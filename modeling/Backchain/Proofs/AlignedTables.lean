import Backchain.Partition.Tables
import Backchain.Proofs.Lists

/-! Tables in step. A key that is named for the first time takes the next number and gets an entry in every table, and
nothing else changes the numbers of keys or the sizes of tables. So whatever equations are tried, a number is a number in
every table. -/

namespace Backchain.Proofs
open Backchain.Tables

variable {tables after : Tables} {value : Option String} {a b key : Key}

/-! ### Tables that grow together -/

/-- Keys are numbered from zero on, without gaps, and every table has one entry for each number. -/
structure Aligned (tables : Tables) : Prop where
  once : (tables.slots.map Prod.fst).Nodup
  numbered : tables.slots.map Prod.snd = List.range tables.slots.length
  parent : tables.parent.size = tables.slots.length
  rank : tables.rank.size = tables.slots.length
  value : tables.value.size = tables.slots.length

theorem notMem_of_lookup_eq_none {entries : List (Key × Nat)} (missing : entries.lookup key = none) :
    key ∉ entries.map Prod.fst := by
  intro member
  obtain ⟨entry, present, rfl⟩ := List.mem_map.mp member
  simpa using List.lookup_eq_none_iff.mp missing entry present

theorem Aligned.slot (aligned : Aligned tables) (key : Key) : Aligned (tables.slot key).2 := by
  rw [Tables.slot]
  cases known : tables.slots.lookup key with
  | some slot => exact aligned
  | none =>
    constructor
    · rw [List.map_append, List.nodup_append]
      refine ⟨aligned.once, List.pairwise_singleton .., fun old member new last same => ?_⟩
      rw [same, List.mem_singleton.mp last] at member
      exact notMem_of_lookup_eq_none known member
    · simp [aligned.numbered, aligned.parent, List.range_succ]
    · simp [aligned.parent]
    · simp [aligned.rank]
    · simp [aligned.value]

variable {slot found : Nat}

/-- The same keys under the same numbers, with as many entries in every table. -/
structure SameShape (before after : Tables) : Prop where
  slots : after.slots = before.slots
  parent : after.parent.size = before.parent.size
  rank : after.rank.size = before.rank.size
  value : after.value.size = before.value.size

theorem SameShape.trans {middle : Tables} (first : SameShape tables middle) (second : SameShape middle after) :
    SameShape tables after :=
  ⟨second.slots.trans first.slots, second.parent.trans first.parent, second.rank.trans first.rank,
    second.value.trans first.value⟩

theorem Aligned.of_sameShape (aligned : Aligned tables) (same : SameShape tables after) : Aligned after := by
  obtain ⟨once, numbered, parent, rank, value⟩ := aligned
  constructor <;> simpa only [same.slots, same.parent, same.rank, same.value]

theorem size_of_write {α : Type} {table written : Array α} {entry : α} (done : write table slot entry = .ok written) :
    written.size = table.size := by
  rw [write] at done
  split at done <;> cases done
  exact Array.size_setIfInBounds

theorem size_of_increment {ranks counted : Array UInt8} (done : increment ranks slot = .ok counted) :
    counted.size = ranks.size := by
  obtain ⟨rank, _, done⟩ := bind_eq_ok.mp done
  split at done
  · cases done
  · exact size_of_write done

theorem sameShape_of_halve {fuel : Nat} (done : halve fuel tables slot = .ok (found, after)) :
    SameShape tables after := by
  induction fuel generalizing tables slot with
  | zero => cases done
  | succ fuel ih =>
    obtain ⟨above, _, done⟩ := bind_eq_ok.mp done
    split at done
    · cases done
      exact ⟨rfl, rfl, rfl, rfl⟩
    · obtain ⟨grandparent, _, done⟩ := bind_eq_ok.mp done
      obtain ⟨parent, written, done⟩ := bind_eq_ok.mp done
      have moved : SameShape tables { tables with parent } := ⟨rfl, size_of_write written, rfl, rfl⟩
      exact moved.trans (ih done)

theorem size_of_grow {ranks grown : Array UInt8} {child root : Nat} (done : grow ranks child root = .ok grown) :
    grown.size = ranks.size := by
  obtain ⟨lower, _, done⟩ := bind_eq_ok.mp done
  obtain ⟨upper, _, done⟩ := bind_eq_ok.mp done
  split at done
  · exact size_of_increment done
  · cases done
    rfl

theorem sameShape_of_attach {child root : Nat} (done : tables.attach child root value = .ok after) :
    SameShape tables after := by
  obtain ⟨rank, grown, done⟩ := bind_eq_ok.mp done
  obtain ⟨parent, linked, done⟩ := bind_eq_ok.mp done
  obtain ⟨value, bound, done⟩ := bind_eq_ok.mp done
  cases done
  exact ⟨rfl, size_of_write linked, size_of_grow grown, size_of_write bound⟩

theorem sameShape_of_link {first second : Nat} (done : tables.link first second value = .ok after) :
    SameShape tables after := by
  obtain ⟨left, _, done⟩ := bind_eq_ok.mp done
  obtain ⟨right, _, done⟩ := bind_eq_ok.mp done
  split at done <;> exact sameShape_of_attach done

/-- Accepted or refused, an equation leaves all tables in step. -/
theorem Aligned.addEqual (aligned : Aligned tables) {accepted : Bool}
    (done : tables.addEqual a b = .ok (accepted, after)) : Aligned after := by
  have named := (aligned.slot a).slot b
  obtain ⟨⟨rootA, middle⟩, foundA, done⟩ := bind_eq_ok.mp done
  obtain ⟨⟨rootB, ready⟩, foundB, done⟩ := bind_eq_ok.mp done
  have kept := (named.of_sameShape (sameShape_of_halve foundA)).of_sameShape (sameShape_of_halve foundB)
  dsimp only at done
  split at done
  · cases done
    exact kept
  · obtain ⟨valueA, _, done⟩ := bind_eq_ok.mp done
    obtain ⟨valueB, _, done⟩ := bind_eq_ok.mp done
    split at done
    · cases done
      exact kept
    · obtain ⟨joined, linked, done⟩ := bind_eq_ok.mp done
      cases done
      exact kept.of_sameShape (sameShape_of_link linked)

/-! ### Equations in turn -/

/-- The tables that a sequence of equations makes of the empty ones, where every equation is accepted. -/
inductive Reached : List (Key × Key) → Tables → Prop where
  | empty : Reached [] {}
  | added {history : List (Key × Key)} {tables after : Tables} {a b : Key} (reached : Reached history tables)
    (accepted : tables.addEqual a b = .ok (true, after)) : Reached (history ++ [(a, b)]) after

theorem Reached.aligned {history : List (Key × Key)} (reached : Reached history tables) : Aligned tables := by
  induction reached with
  | empty => exact ⟨List.nodup_nil, rfl, rfl, rfl, rfl⟩
  | added _ accepted ih => exact ih.addEqual accepted

end Backchain.Proofs
