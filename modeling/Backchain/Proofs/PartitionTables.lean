import Backchain.Proofs.AlignedTables
import Backchain.Proofs.PartitionHistory
import Backchain.Proofs.TreeWeights

/-! The tables that hold a partition. Every operation on them ends, reads and writes inside, and makes of the tables what
it makes of the partition. The one thing that can go wrong is a rank that outgrows its counter. Trees that are joined by
rank are too wide for that, unless there are `2 ^ 255` keys. -/

namespace Backchain.Proofs
open Backchain.Tables

section
variable {α : Type} {size slot : Nat} {entry other : Nat → α}

/-- A table with one entry for each slot. -/
def table (size : Nat) (entry : Nat → α) : Array α := (Array.range size).map entry

@[simp] theorem size_table : (table size entry).size = size := by
  simp [table]

theorem getElem?_table : (table size entry)[slot]? = if slot < size then some (entry slot) else none := by
  rw [table, Array.getElem?_map, Array.getElem?_range]
  split <;> rfl

theorem getElem?_table_eq_some_iff {item : α} :
    (table size entry)[slot]? = some item ↔ slot < size ∧ entry slot = item := by
  rw [getElem?_table]
  split <;> simp [*]

theorem read_table (inside : slot < size) : read (table size entry) slot = .ok (entry slot) := by
  rw [Tables.read, getElem?_table, if_pos inside]

theorem table_congr (same : ∀ slot < size, entry slot = other slot) : table size entry = table size other := by
  apply Array.ext_getElem?
  intro slot
  rw [getElem?_table, getElem?_table]
  split
  next inside => rw [same slot inside]
  next => rfl

theorem push_table {item : α} (below : ∀ slot < size, entry slot = other slot) (last : other size = item) :
    (table size entry).push item = table (size + 1) other := by
  rw [table_congr below, ← last, table, table, Array.range_succ]
  simp

/-- What has changed at one slot is written there. -/
theorem write_table {item : α} (inside : slot < size)
    (changed : ∀ place, other place = if place = slot then item else entry place) :
    write (table size entry) slot item = .ok (table size other) := by
  rw [write, size_table, if_pos inside]
  congr 1
  apply Array.ext_getElem?
  intro place
  rw [Array.getElem?_setIfInBounds, getElem?_table, getElem?_table, size_table, changed]
  by_cases here : slot = place
  · subst here
    simp [inside]
  · simp [here, Ne.symm here]

end

def tablesOf (partition : Partition) : Tables where
  slots := (keys partition).zipIdx
  parent := table partition.size partition.parent
  rank := table partition.size fun slot => .ofNat (partition.rank slot)
  value := table partition.size partition.value

theorem tablesOf_empty : tablesOf Partition.empty = {} := by
  simp [tablesOf, table, Partition.empty, keys, Partition.size]

variable {partition : Partition} {slot : Nat} {key a b : Key}

/-! ### Numbers of keys -/

theorem lookup_zipIdx (items : List Key) (key : Key) (first : Nat) :
    (items.zipIdx first).lookup key = (items.findIdx? (· == key)).map (· + first) := by
  induction items generalizing first with
  | nil => rfl
  | cons item items ih =>
    rw [List.zipIdx_cons, List.lookup_cons, List.findIdx?_cons, ih]
    by_cases same : item = key
    · simp [same]
    · simp [same, beq_false_of_ne (Ne.symm same), Function.comp_def, Nat.add_assoc, Nat.add_comm 1]

theorem lookup_tablesOf (partition : Partition) (key : Key) :
    (tablesOf partition).slots.lookup key = partition.slot? key := by
  obtain ⟨⟨nodes⟩⟩ := partition
  simp [tablesOf, lookup_zipIdx, keys, Partition.slot?, List.findIdx?_map, Function.comp_def]

theorem slot_tablesOf (partition : Partition) (key : Key) :
    (tablesOf partition).slot key = ((partition.intern key).1, tablesOf (partition.intern key).2) := by
  rw [Tables.slot, lookup_tablesOf]
  cases known : partition.slot? key with
  | some slot => simp [Partition.intern, known]
  | none =>
    have parent : (table partition.size partition.parent).push partition.size =
        table (partition.size + 1) (enter partition key key.constant?).parent :=
      push_table (fun slot _ => (parent_enter ..).symm) (by rw [parent_enter, parent_outside le_rfl])
    have rank : (table partition.size fun slot => UInt8.ofNat (partition.rank slot)).push 0 =
        table (partition.size + 1) fun slot => .ofNat ((enter partition key key.constant?).rank slot) :=
      push_table (fun slot _ => by rw [rank_enter]) (by rw [rank_enter, rank_outside le_rfl]; rfl)
    have value : (table partition.size partition.value).push key.constant? =
        table (partition.size + 1) (enter partition key key.constant?).value :=
      push_table (fun slot inside => by rw [value_enter, if_neg inside.ne]) (by rw [value_enter, if_pos rfl])
    rw [intern_of_slot? known]
    simp [tablesOf, parent, rank, value, List.zipIdx_append, keys_length]

/-! ### Loops that end -/

theorem read_parent (inside : slot < partition.size) :
    read (tablesOf partition).parent slot = .ok (partition.parent slot) :=
  read_table inside

theorem read_rank (inside : slot < partition.size) :
    read (tablesOf partition).rank slot = .ok (.ofNat (partition.rank slot)) :=
  read_table inside

theorem read_value (inside : slot < partition.size) :
    read (tablesOf partition).value slot = .ok (partition.value slot) :=
  read_table inside

theorem climb_tablesOf (valid : WellFormed partition) {fuel : Nat} (inside : slot < partition.size)
    (enough : headroom partition slot < fuel) : (tablesOf partition).climb fuel slot = .ok (partition.root slot) := by
  induction fuel generalizing slot with
  | zero => exact absurd enough (Nat.not_lt_zero _)
  | succ fuel ih =>
    rw [Tables.climb, read_parent inside, ok_bind]
    by_cases top : partition.parent slot = slot
    · rw [if_pos top, root_eq_self top]
      rfl
    · have lower := valid.headroom_parent_lt top
      rw [if_neg top, ih (valid.inside slot inside) (by omega), valid.root_parent]

theorem find_tablesOf (valid : WellFormed partition) (inside : slot < partition.size) :
    (tablesOf partition).find slot = .ok (partition.root slot) := by
  refine climb_tablesOf valid inside ?_
  rw [tablesOf, size_table]
  exact headroom_lt_size inside

theorem write_parent (inside : slot < partition.size) (above : Nat) : write (tablesOf partition).parent slot above =
    .ok (tablesOf (partition.setParent slot above)).parent := by
  rw [tablesOf, tablesOf, size_setParent]
  exact write_table inside fun other => parent_setParent inside above other

theorem tablesOf_setParent (partition : Partition) (slot above : Nat) :
    { tablesOf partition with parent := (tablesOf (partition.setParent slot above)).parent } =
      tablesOf (partition.setParent slot above) := by
  simp only [tablesOf, keys_setParent, size_setParent, rank_setParent, Tables.mk.injEq, true_and]
  exact table_congr fun other _ => (value_setParent ..).symm

theorem halve_tablesOf (valid : WellFormed partition) {fuel : Nat} (inside : slot < partition.size)
    (enough : headroom partition slot < fuel) : halve fuel (tablesOf partition) slot =
      .ok ((Partition.halve fuel partition slot).1, tablesOf (Partition.halve fuel partition slot).2) := by
  induction fuel generalizing partition slot with
  | zero => exact absurd enough (Nat.not_lt_zero _)
  | succ fuel ih =>
    rw [Tables.halve, Partition.halve, read_parent inside, ok_bind]
    by_cases top : partition.parent slot = slot
    · rw [if_pos top, if_pos top]
      rfl
    · have skipped := valid.skip_parent top
      have lower := valid.headroom_skip_lt top
      have above := valid.inside _ (valid.inside slot inside)
      rw [if_neg top, if_neg top, read_parent (valid.inside slot inside), ok_bind, write_parent inside, ok_bind,
        tablesOf_setParent]
      exact ih skipped.wellFormed (by rwa [skipped.size]) (by omega)

theorem findCompress_tablesOf (valid : WellFormed partition) (inside : slot < partition.size) :
    (tablesOf partition).findCompress slot =
      .ok ((partition.halvedRoot slot).1, tablesOf (partition.halvedRoot slot).2) := by
  rw [Tables.findCompress, tablesOf, size_table]
  exact halve_tablesOf valid inside (headroom_lt_size inside)

/-! ### Counters that suffice -/

/-- No rank needs more than eight bits. -/
def RanksFit (partition : Partition) : Prop := ∀ slot, partition.rank slot < UInt8.size

section
variable {child root : Nat} (fits : RanksFit partition)
include fits

theorem RanksFit.toNat_ofNat (slot : Nat) : (UInt8.ofNat (partition.rank slot)).toNat = partition.rank slot :=
  UInt8.toNat_ofNat_of_lt' (fits slot)

theorem RanksFit.ofNat_inj : UInt8.ofNat (partition.rank child) = UInt8.ofNat (partition.rank root) ↔
    partition.rank child = partition.rank root := by
  rw [← UInt8.toNat_inj, fits.toNat_ofNat, fits.toNat_ofNat]

theorem RanksFit.ofNat_eq_max_iff : UInt8.ofNat (partition.rank slot) = 255 ↔ partition.rank slot + 1 = UInt8.size := by
  have size : (255 : UInt8).toNat + 1 = UInt8.size := rfl
  rw [← UInt8.toNat_inj, fits.toNat_ofNat, ← size, Nat.add_right_cancel_iff]

variable (roots : Roots partition child root)
include roots

theorem grow_eq : grow (tablesOf partition).rank child root =
    if partition.rank child = partition.rank root then increment (tablesOf partition).rank root
    else .ok (tablesOf partition).rank := by
  rw [Tables.grow, read_rank roots.firstInside, ok_bind, read_rank roots.secondInside, ok_bind]
  simp only [fits.ofNat_inj]
  rfl

theorem grow_of_room (value : Option String)
    (room : partition.rank child = partition.rank root → partition.rank root + 1 ≠ UInt8.size) :
    grow (tablesOf partition).rank child root = .ok (tablesOf (partition.attach child root value)).rank := by
  have rank := rank_attach partition child root value roots.secondInside
  rw [grow_eq fits roots, tablesOf, tablesOf, size_attach]
  split
  next tie =>
    rw [Tables.increment, read_table roots.secondInside, ok_bind, if_neg (fits.ofNat_eq_max_iff.not.mpr (room tie))]
    refine write_table roots.secondInside fun other => ?_
    rw [rank, if_pos tie]
    split
    next => exact UInt8.ofNat_add ..
    next => rfl
  next apart =>
    refine congrArg Except.ok (table_congr fun other _ => ?_)
    rw [rank, if_neg apart, Nat.add_zero]
    split
    next same => rw [same]
    next => rfl

theorem grow_full (tie : partition.rank child = partition.rank root) (full : partition.rank root + 1 = UInt8.size) :
    grow (tablesOf partition).rank child root = .error (.overflow root) := by
  rw [grow_eq fits roots, if_pos tie, Tables.increment, read_rank roots.secondInside, ok_bind,
    if_pos (fits.ofNat_eq_max_iff.mpr full)]
  rfl

/-- The tables join two trees as the partition does, if the rank has room. -/
theorem attach_of_room (value : Option String)
    (room : partition.rank child = partition.rank root → partition.rank root + 1 ≠ UInt8.size) :
    RanksFit (partition.attach child root value) ∧
      (tablesOf partition).attach child root value = .ok (tablesOf (partition.attach child root value)) := by
  constructor
  · intro slot
    rw [rank_attach partition child root value roots.secondInside]
    have old := fits root
    split
    next => split <;> omega
    next => exact fits slot
  · have parent : write (tablesOf partition).parent child root =
        .ok (tablesOf (partition.attach child root value)).parent := by
      rw [tablesOf, tablesOf, size_attach]
      exact write_table roots.firstInside (parent_attach partition child root value roots.firstInside)
    have bound : write (tablesOf partition).value root value =
        .ok (tablesOf (partition.attach child root value)).value := by
      rw [tablesOf, tablesOf, size_attach]
      exact write_table roots.secondInside (value_attach partition child root value roots.secondInside)
    rw [Tables.attach, grow_of_room fits roots value room, ok_bind, parent, ok_bind, bound, ok_bind]
    simp only [tablesOf, keys_attach]
    rfl

end

/-- The tables join two trees as the partition does, or the rank is too much for its counter, which takes `2 ^ 2 ^ 8`
slots. -/
theorem attach_cases (weighted : Weighted partition) (fits : RanksFit partition) {child root : Nat}
    (roots : Roots partition child root) (lower : partition.rank child ≤ partition.rank root) (value : Option String) :
    (RanksFit (partition.attach child root value) ∧
        (tablesOf partition).attach child root value = .ok (tablesOf (partition.attach child root value))) ∨
      2 ^ UInt8.size ≤ partition.size ∧
        ∃ slot, (tablesOf partition).attach child root value = .error (.overflow slot) := by
  by_cases full : partition.rank child = partition.rank root ∧ partition.rank root + 1 = UInt8.size
  · refine Or.inr ⟨?_, root, ?_⟩
    · have large := (weighted.attach roots lower value).two_pow_rank_le_size (size_attach .. ▸ roots.secondInside)
      rwa [size_attach, rank_attach partition child root value roots.secondInside, if_pos rfl, if_pos full.1, full.2]
        at large
    · rw [Tables.attach, grow_full fits roots full.1 full.2]
      rfl
  · exact Or.inl (attach_of_room fits roots value (not_and.mp full))

theorem link_cases (weighted : Weighted partition) (fits : RanksFit partition) {first second : Nat}
    (roots : Roots partition first second) (value : Option String) :
    (RanksFit (partition.link first second value) ∧
        (tablesOf partition).link first second value = .ok (tablesOf (partition.link first second value))) ∨
      2 ^ UInt8.size ≤ partition.size ∧
        ∃ slot, (tablesOf partition).link first second value = .error (.overflow slot) := by
  have compared : (tablesOf partition).link first second value =
      if partition.rank first < partition.rank second then (tablesOf partition).attach first second value
      else (tablesOf partition).attach second first value := by
    rw [Tables.link, read_rank roots.firstInside, ok_bind, read_rank roots.secondInside, ok_bind]
    simp only [UInt8.lt_iff_toNat_lt, fits.toNat_ofNat]
  rw [compared, Partition.link]
  split
  next lower => exact attach_cases weighted fits roots lower.le value
  next higher => exact attach_cases weighted fits roots.symm (Nat.le_of_not_lt higher) value

/-! ### Equations -/

/-- How tables with `size` slots answer an equation whose outcome in the partition is known. -/
inductive Answers (size : Nat) : Option Partition → Except Fault (Bool × Tables) → Prop where
  | accepted {after : Partition} (fits : RanksFit after) : Answers size (some after) (.ok (true, tablesOf after))
  | refused {left : Tables} : Answers size none (.ok (false, left))
  | overflow {outcome : Option Partition} {slot : Nat} (many : 2 ^ 255 ≤ size) :
    Answers size outcome (.error (.overflow slot))

theorem RanksFit.intern (fits : RanksFit partition) (key : Key) : RanksFit (partition.intern key).2 := fun slot => by
  rw [rank_intern]
  exact fits slot

theorem RanksFit.shortened {after : Partition} (fits : RanksFit partition) (moved : Shortened partition after) :
    RanksFit after := fun slot => by
  rw [moved.rank]
  exact fits slot

theorem answers_addEqual (weighted : Weighted partition) (fits : RanksFit partition) (a b : Key) :
    Answers partition.size (partition.equate a b) ((tablesOf partition).addEqual a b) := by
  obtain ⟨named, insideA, insideB, _⟩ := weighted.intern_both a b
  obtain ⟨ready, grown, roots⟩ := weighted.prepare a b
  have movedA := (named.wellFormed.halvedRoot_shortens (partition.intern a).1).2
  have movedB := (movedA.wellFormed.halvedRoot_shortens ((partition.intern a).2.intern b).1).2
  have kept := ((fits.intern a).intern b).shortened (movedA.trans movedB)
  have foundA := findCompress_tablesOf named.wellFormed insideA
  have foundB := findCompress_tablesOf movedA.wellFormed (movedA.size.symm ▸ insideB)
  simp only [Tables.addEqual, Partition.equate, slot_tablesOf, foundA, foundB, ok_bind]
  split
  next => exact .accepted kept
  next apart =>
    rw [read_value (roots apart).firstInside, ok_bind, read_value (roots apart).secondInside, ok_bind]
    cases Partition.mergeValues _ _ with
    | none => exact .refused
    | some merged =>
      dsimp only
      rcases link_cases ready kept (roots apart) merged with ⟨fits, joined⟩ | ⟨many, slot, overflow⟩
      · rw [joined]
        exact .accepted fits
      · -- Up to two of the slots are new.
        have fewer : (2 : Nat) ^ 255 + 2 ≤ 2 ^ UInt8.size := by decide
        rw [overflow]
        exact .overflow (by omega)

/-! ### Answers -/

theorem valueOf_tablesOf (valid : WellFormed partition) (key : Key) :
    (tablesOf partition).valueOf key = .ok (partition.valueOf key) := by
  rw [Tables.valueOf, Partition.valueOf, lookup_tablesOf]
  cases known : partition.slot? key with
  | none => rfl
  | some slot =>
    have inside := lt_size_of_slot? known
    simp only [find_tablesOf valid inside, ok_bind, read_value (valid.root_lt_size inside)]

theorem sameClass_tablesOf (valid : WellFormed partition) (a b : Key) :
    (tablesOf partition).sameClass a b = .ok (partition.sameClass a b) := by
  rw [Tables.sameClass, Partition.sameClass, lookup_tablesOf, lookup_tablesOf]
  rcases eq_or_ne a b with rfl | different
  · rw [if_pos rfl, beq_self_eq_true, Bool.true_or]
    rfl
  rw [if_neg different, beq_false_of_ne different]
  cases knownA : partition.slot? a with
  | none => rfl
  | some slotA =>
    cases knownB : partition.slot? b with
    | none => rfl
    | some slotB =>
      simp only [find_tablesOf valid (lt_size_of_slot? knownA), find_tablesOf valid (lt_size_of_slot? knownB), ok_bind]
      rfl

theorem rooted_eq_map_slots (partition : Partition) :
    partition.rooted = (tablesOf partition).slots.map fun (key, slot) => (partition.root slot, key) := by
  rw [tablesOf, keys, List.zipIdx_map, List.map_map]
  rfl

theorem lt_size_of_mem_slots (member : (key, slot) ∈ (tablesOf partition).slots) : slot < partition.size := by
  simpa [keys_length] using List.snd_lt_of_mem_zipIdx member

theorem classes_tablesOf (valid : WellFormed partition) : (tablesOf partition).classes = .ok partition.classes := by
  have rooted : (tablesOf partition).slots.mapM (fun (key, slot) => return (← (tablesOf partition).find slot, key)) =
      .ok partition.rooted := by
    rw [rooted_eq_map_slots]
    refine mapM_eq_pure fun (key, slot) member => ?_
    simp only [find_tablesOf valid (lt_size_of_mem_slots member), ok_bind]
  have tops : ∀ top ∈ (partition.rooted.map Prod.fst).eraseDups, top < partition.size := by
    intro top member
    rw [List.mem_eraseDups, rooted_eq_map_slots, List.map_map, List.mem_map] at member
    obtain ⟨⟨key, slot⟩, present, rfl⟩ := member
    exact valid.root_lt_size (lt_size_of_mem_slots present)
  rw [Tables.classes, rooted, ok_bind]
  refine mapM_eq_pure fun top member => ?_
  rw [read_value (tops top member), ok_bind]

/-! ### Whole histories -/

variable {tables : Tables} {history : List (Key × Key)}

theorem Reached.exists_built (reached : Reached history tables) :
    ∃ partition, Built history partition ∧ RanksFit partition ∧ tables = tablesOf partition := by
  induction reached with
  | empty => exact ⟨Partition.empty, Built.nil, fun _ => Nat.zero_lt_succ _, tablesOf_empty.symm⟩
  | @added history tables after a b _ accepted ih =>
    obtain ⟨partition, built, fits, rfl⟩ := ih
    have answers := answers_addEqual built.weighted fits a b
    generalize equated : partition.equate a b = outcome at answers
    rw [accepted] at answers
    cases answers with
    | accepted fits => exact ⟨_, built.append_singleton equated, fits, rfl⟩

theorem Weighted.ranksFit (weighted : Weighted partition) (few : partition.size < 2 ^ UInt8.size) :
    RanksFit partition := by
  intro slot
  by_cases inside : slot < partition.size
  · exact weighted.rank_lt inside few
  · rw [rank_outside (Nat.le_of_not_lt inside)]
    exact Nat.zero_lt_succ _

theorem Built.size_mono {before : Partition} {pairs : List (Key × Key)} (earlier : Built history before)
    (built : Built (history ++ pairs) partition) : before.size ≤ partition.size := by
  rw [earlier.represents.size_eq, built.represents.size_eq]
  apply Finset.card_le_card
  intro key member
  rw [mentionedKeys, List.flatMap_append, List.toFinset_append]
  exact Finset.mem_union_left _ member

/-- Below `2 ^ 255` keys the tables can do all that the partition can. -/
theorem Built.reached (built : Built history partition) (few : partition.size < 2 ^ 255) :
    Reached history (tablesOf partition) := by
  induction history using List.reverseRecOn generalizing partition with
  | nil =>
    cases built
    rw [tablesOf_empty]
    exact .empty
  | append_singleton history pair ih =>
    have whole := built
    rw [Built, List.foldlM_append, Option.bind_eq_bind, Option.bind_eq_some_iff] at built
    obtain ⟨before, earlier, last⟩ := built
    have fewBefore := (Built.size_mono earlier whole).trans_lt few
    have fits := Weighted.ranksFit (Built.weighted earlier) (fewBefore.trans (by decide))
    have answers := answers_addEqual (Built.weighted earlier) fits pair.1 pair.2
    refine (ih earlier fewBefore).added ?_
    rw [show before.equate pair.1 pair.2 = some partition by simpa using last] at answers
    generalize (tablesOf before).addEqual pair.1 pair.2 = outcome at answers ⊢
    cases answers with
    | accepted => rfl
    | overflow many => exact absurd fewBefore many.not_gt

/-- Tables answer every question as the partition that has the same history. -/
theorem Reached.answers (reached : Reached history tables) :
    ∃ partition, Built history partition ∧ tables.classes = .ok partition.classes ∧
      (∀ key, tables.valueOf key = .ok (partition.valueOf key)) ∧
      (∀ a b, tables.sameClass a b = .ok (partition.sameClass a b)) := by
  obtain ⟨partition, built, _, rfl⟩ := reached.exists_built
  have valid := built.weighted.wellFormed
  exact ⟨partition, built, classes_tablesOf valid, valueOf_tablesOf valid, sameClass_tablesOf valid⟩

/-- Whatever equations have been accepted, the tables number the keys without gaps and have an entry for each number.
Parents are numbers, of a higher rank than what is below them, and a root of rank `r` has at least `2 ^ r` slots. So both
climbs end at a root, nothing outside is read or written, and no counter is full before there are `2 ^ 255` keys. -/
theorem reached_without_faults (reached : Reached history tables) :
    Aligned tables ∧
    (∀ slot above : Nat, tables.parent[slot]? = some above → above < tables.slots.length) ∧
    (∀ (slot above : Nat) (lower upper : UInt8), tables.parent[slot]? = some above → above ≠ slot →
      tables.rank[slot]? = some lower → tables.rank[above]? = some upper → lower < upper) ∧
    (∀ (top : Nat) (rank : UInt8), tables.parent[top]? = some top → tables.rank[top]? = some rank →
      2 ^ rank.toNat ≤ {slot ∈ Finset.range tables.slots.length | tables.find slot = .ok top}.card) ∧
    (∀ slot < tables.slots.length, ∃ root, tables.parent[root]? = some root ∧ tables.find slot = .ok root ∧
      ∃ after, tables.findCompress slot = .ok (root, after)) ∧
    (∃ classes, tables.classes = .ok classes) ∧
    (∀ a b, (∃ outcome, tables.addEqual a b = .ok outcome) ∨
      2 ^ 255 ≤ tables.slots.length ∧ ∃ slot, tables.addEqual a b = .error (.overflow slot)) := by
  have aligned := reached.aligned
  obtain ⟨partition, built, fits, rfl⟩ := reached.exists_built
  have weighted := built.weighted
  have valid := weighted.wellFormed
  have length : (tablesOf partition).slots.length = partition.size := by
    rw [tablesOf, List.length_zipIdx, keys_length]
  have parent {slot above : Nat} : (tablesOf partition).parent[slot]? = some above ↔
      slot < partition.size ∧ partition.parent slot = above := getElem?_table_eq_some_iff
  have rank {slot : Nat} {rank : UInt8} (known : (tablesOf partition).rank[slot]? = some rank) :
      rank.toNat = partition.rank slot := by
    obtain ⟨_, rfl⟩ := getElem?_table_eq_some_iff.mp known
    exact fits.toNat_ofNat slot
  rw [length]
  refine ⟨aligned, ?inside, ?rises, ?weight, ?climbs, ⟨_, classes_tablesOf valid⟩, ?safe⟩
  case inside =>
    intro slot above linked
    obtain ⟨inside, rfl⟩ := parent.mp linked
    exact valid.inside slot inside
  case rises =>
    intro slot above lower upper linked below knownLower knownUpper
    obtain ⟨_, rfl⟩ := parent.mp linked
    rw [UInt8.lt_iff_toNat_lt, rank knownLower, rank knownUpper]
    exact valid.rises slot below
  case weight =>
    intro top counter here known
    obtain ⟨inside, here⟩ := parent.mp here
    have same : {slot ∈ Finset.range partition.size | (tablesOf partition).find slot = .ok top} = tree partition top := by
      refine Finset.filter_congr fun slot member => ?_
      rw [find_tablesOf valid (Finset.mem_range.mp member), Except.ok.injEq]
    rw [same, rank known]
    exact weighted.weight_of_top inside here
  case climbs =>
    intro slot inside
    have top := parent.mpr ⟨valid.root_lt_size inside, valid.parent_root slot⟩
    have same := (valid.halvedRoot_shortens slot).1
    exact ⟨_, top, find_tablesOf valid inside, _, same ▸ findCompress_tablesOf valid inside⟩
  case safe =>
    intro a b
    have answers := answers_addEqual weighted fits a b
    generalize partition.equate a b = equated at answers
    generalize (tablesOf partition).addEqual a b = outcome at answers ⊢
    cases answers with
    | accepted | refused => exact Or.inl ⟨_, rfl⟩
    | overflow many => exact Or.inr ⟨many, _, rfl⟩

/-- Two pairs that have become one class, with a slot two links below the root. -/
def twoPairs : Tables where
  slots := [(.var "X" 0, 0), (.var "Y" 0, 1), (.var "Z" 0, 2), (.var "W" 0, 3)]
  parent := #[0, 0, 0, 2]
  rank := #[2, 0, 1, 0]
  value := #[none, none, none, none]

theorem reached_without_faults_twoPairs :
    Reached [(.var "X" 0, .var "Y" 0), (.var "Z" 0, .var "W" 0), (.var "Y" 0, .var "W" 0)] twoPairs ∧
      2 ^ 2 ≤ {slot ∈ Finset.range 4 | twoPairs.find slot = .ok 0}.card ∧
      (∃ root, twoPairs.parent[root]? = some root ∧ twoPairs.find 3 = .ok root ∧
        ∃ after, twoPairs.findCompress 3 = .ok (root, after)) ∧
      ∃ outcome, twoPairs.addEqual (.var "W" 0) (.const "tom") = .ok outcome := by
  have first : Tables.addEqual {} (.var "X" 0) (.var "Y" 0) = .ok (true, ⟨[(.var "X" 0, 0), (.var "Y" 0, 1)],
      #[0, 0], #[1, 0], #[none, none]⟩) := rfl
  have second : Tables.addEqual ⟨[(.var "X" 0, 0), (.var "Y" 0, 1)], #[0, 0], #[1, 0], #[none, none]⟩ (.var "Z" 0)
      (.var "W" 0) = .ok (true, { twoPairs with parent := #[0, 0, 2, 2], rank := #[1, 0, 1, 0] }) := rfl
  have third : Tables.addEqual { twoPairs with parent := #[0, 0, 2, 2], rank := #[1, 0, 1, 0] } (.var "Y" 0)
      (.var "W" 0) = .ok (true, twoPairs) := rfl
  have reached := ((Reached.empty.added first).added second).added third
  obtain ⟨_, _, _, weight, climbs, _, safe⟩ := reached_without_faults reached
  have few := (safe (.var "W" 0) (.const "tom")).resolve_right fun many => absurd many.1 (by decide)
  exact ⟨reached, weight 0 2 rfl rfl, climbs 3 (by decide), few⟩

end Backchain.Proofs
