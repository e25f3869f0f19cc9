import Backchain.Proofs.Lists
import Backchain.Proofs.PartitionClosure

/-! Partitions that are built by trial: an equation that is refused leaves the partition as it was. Whatever is asked of
such a partition is answered by the equivalence closure of the equations that were accepted. -/

namespace Backchain.Proofs
open Backchain.Partition

/-- The equations accepted so far, in their order, and the partition that they have made. -/
structure History where
  accepted : List (Key × Key) := []
  partition : Partition := Partition.empty

namespace History

def attempt (history : History) (pair : Key × Key) : History :=
  match history.partition.equate pair.1 pair.2 with
  | some after => ⟨history.accepted ++ [pair], after⟩
  | none => history

def ofAttempts (tried : List (Key × Key)) : History := tried.foldl attempt {}

variable {history : History}

theorem built_attempt (built : Built history.accepted history.partition) (pair : Key × Key) :
    Built (history.attempt pair).accepted (history.attempt pair).partition := by
  rw [attempt]
  cases result : history.partition.equate pair.1 pair.2 with
  | none => exact built
  | some after => exact built.append_singleton result

theorem built_foldl (built : Built history.accepted history.partition) (tried : List (Key × Key)) :
    Built (tried.foldl attempt history).accepted (tried.foldl attempt history).partition := by
  induction tried generalizing history with
  | nil => exact built
  | cons pair tried ih => exact ih (built_attempt built pair)

theorem built_ofAttempts (tried : List (Key × Key)) :
    Built (ofAttempts tried).accepted (ofAttempts tried).partition :=
  built_foldl Built.nil tried

end History

def mentionedKeys (pairs : List (Key × Key)) : List Key := pairs.flatMap fun pair => [pair.1, pair.2]

variable {partition : Partition} {pairs : List (Key × Key)}

theorem mem_mentionedKeys {key : Key} : key ∈ mentionedKeys pairs ↔ Mentioned pairs key := by
  simp [mentionedKeys, Mentioned]

namespace Represents

theorem size_eq (valid : Represents partition pairs) : partition.size = (mentionedKeys pairs).toFinset.card := by
  have same : (keys partition).toFinset = (mentionedKeys pairs).toFinset := by
    ext key
    rw [List.mem_toFinset, List.mem_toFinset, valid.entered, mem_mentionedKeys]
  rw [← same, List.toFinset_card_of_nodup valid.wellFormed.distinct, keys_length]

theorem valueOf_const (valid : Represents partition pairs) (name : String) :
    partition.valueOf (.const name) = some name :=
  (valid.valueOf_eq_some_iff _ name).mpr (Linked.refl pairs _)

theorem sameClass_of_valueOf (valid : Represents partition pairs) {a b : Key} {name : String}
    (first : partition.valueOf a = some name) (second : partition.valueOf b = some name) :
    partition.sameClass a b = true := by
  rw [valid.valueOf_eq_some_iff] at first second
  exact (valid.sameClass_iff a b).mpr (first.trans second.symm)

end Represents

/-! ### The order in which keys enter -/

theorem keys_halve (fuel : Nat) (partition : Partition) (slot : Nat) :
    keys (halve fuel partition slot).2 = keys partition := by
  induction fuel generalizing partition slot with
  | zero => rfl
  | succ fuel ih =>
    rw [halve]
    split
    · rfl
    · exact (ih _ _).trans (keys_setParent ..)

theorem keys_link (partition : Partition) (first second : Nat) (value : Option String) :
    keys (partition.link first second value) = keys partition := by
  rw [link]
  split <;> exact keys_attach ..

theorem keys_equate {after : Partition} {a b : Key} (accepted : partition.equate a b = some after) :
    keys after = keys ((partition.intern a).2.intern b).2 := by
  let named := ((partition.intern a).2.intern b).2
  let first := named.halvedRoot (partition.intern a).1
  let second := first.2.halvedRoot ((partition.intern a).2.intern b).1
  have kept : keys second.2 = keys named := (keys_halve _ first.2 _).trans (keys_halve _ named _)
  change (if first.1 = second.1 then some second.2
    else (mergeValues (second.2.value first.1) (second.2.value second.1)).map (second.2.link first.1 second.1)) =
      some after at accepted
  split_ifs at accepted
  · cases accepted
    exact kept
  · obtain ⟨merged, _, rfl⟩ := Option.map_eq_some_iff.mp accepted
    rw [keys_link, kept]

theorem keys_intern {entered : List Key} (here : keys partition = entered.eraseDups) (key : Key) :
    keys (partition.intern key).2 = (entered ++ [key]).eraseDups := by
  have known : key ∈ keys partition ↔ key ∈ entered := by rw [here, List.mem_eraseDups]
  rw [eraseDups_append_singleton, ← here]
  cases found : partition.slot? key with
  | some slot =>
    have present : key ∈ entered := by
      rw [← known, ← Proofs.contains_iff, contains, found, Option.isSome_some]
    rw [if_pos present, intern, found]
  | none =>
    have absent : key ∉ entered := fun member => slot?_eq_none_iff.mp found (known.mpr member)
    rw [if_neg absent, intern_of_slot? found, keys_enter]

/-- Keys enter when they are first mentioned, the left side of an equation before the right, and never leave. -/
theorem Built.keys_eq {history : List (Key × Key)} (built : Built history partition) :
    keys partition = (mentionedKeys history).eraseDups := by
  induction history using List.reverseRecOn generalizing partition with
  | nil =>
    cases built
    rfl
  | append_singleton history pair ih =>
    rw [Built, List.foldlM_append, Option.bind_eq_bind, Option.bind_eq_some_iff] at built
    obtain ⟨before, earlier, last⟩ := built
    have accepted : before.equate pair.1 pair.2 = some partition := by simpa using last
    have split : mentionedKeys (history ++ [pair]) = mentionedKeys history ++ [pair.1] ++ [pair.2] := by
      simp [mentionedKeys]
    rw [keys_equate accepted, split]
    exact keys_intern (keys_intern (ih earlier) pair.1) pair.2

/-- What a partition built by trial knows is the least equivalence of keys that contains the accepted equations. The
next equation is accepted exactly when it equates no two constants together with those. -/
theorem attempts_closure (tried : List (Key × Key)) :
    let history := History.ofAttempts tried
    (∀ a b, (∃ after, history.partition.equate a b = some after) ↔
      ∀ x y, Linked (history.accepted ++ [(a, b)]) (.const x) (.const y) → x = y) ∧
    (∀ a b, history.partition.sameClass a b = true ↔ Linked history.accepted a b) ∧
    (∀ key name, history.partition.valueOf key = some name ↔ Linked history.accepted key (.const name)) ∧
    (∀ name, history.partition.valueOf (.const name) = some name) ∧
    (∀ a b name, history.partition.valueOf a = some name ∧ history.partition.valueOf b = some name →
      history.partition.sameClass a b = true) ∧
    (∀ key, history.partition.contains key = true ↔ Mentioned history.accepted key) ∧
    history.partition.size = (mentionedKeys history.accepted).toFinset.card := by
  intro history
  have valid := (History.built_ofAttempts tried).represents
  refine ⟨fun a b => valid.equate_iff, valid.sameClass_iff, valid.valueOf_eq_some_iff, valid.valueOf_const, ?_,
    valid.contains_iff, valid.size_eq⟩
  exact fun a b name bound => valid.sameClass_of_valueOf bound.1 bound.2

example : (History.ofAttempts [(.var "X" 0, .const "a"), (.const "b", .var "X" 0), (.var "Y" 0, .var "X" 0)]).accepted =
    [(.var "X" 0, .const "a"), (.var "Y" 0, .var "X" 0)] := by cbv

end Backchain.Proofs
