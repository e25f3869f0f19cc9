import Backchain.Proofs.Equalities
import Backchain.Proofs.PartitionForest

/-! A partition is the equivalence closure of the equations it was built from: its trees are the classes, its
values are the constants linked to them, and an equation is refused exactly when it links two constants. -/

namespace Backchain.Proofs
open Backchain.Partition

/-- The partition that results when the equations are added in their order, starting from nothing. None of them
may be refused. -/
def Built (history : List (Key × Key)) (partition : Partition) : Prop :=
  history.foldlM (fun partition pair => partition.equate pair.1 pair.2) Partition.empty = some partition

/-- The forest of a partition stands for the closure of the pairs. -/
structure Represents (partition : Partition) (pairs : List (Key × Key)) : Prop where
  wellFormed : WellFormed partition
  entered : ∀ key, key ∈ keys partition ↔ Mentioned pairs key
  linked : ∀ i j a b, (keys partition)[i]? = some a → (keys partition)[j]? = some b →
    (partition.root i = partition.root j ↔ Linked pairs a b)
  value : ∀ i a name, (keys partition)[i]? = some a →
    (partition.value (partition.root i) = some name ↔ Linked pairs a (.const name))

variable {partition after : Partition} {pairs more history : List (Key × Key)} {a b key : Key}

theorem lt_size_of_key {slot : Nat} (here : (keys partition)[slot]? = some key) : slot < partition.size := by
  rw [← keys_length]
  exact (List.getElem?_eq_some_iff.mp here).1

namespace Represents

theorem empty : Represents Partition.empty [] := by
  refine ⟨⟨List.nodup_nil, ?_, ?_⟩, ?_, ?_, ?_⟩
  · intro slot inside
    exact absurd inside (Nat.not_lt_zero slot)
  · intro slot linked
    exact absurd (lt_size_of_parent_ne linked) (Nat.not_lt_zero slot)
  · exact fun key => ⟨fun member => absurd member List.not_mem_nil, fun mentioned => absurd mentioned mentioned_nil⟩
  · intro i j a b first
    cases first
  · intro i a name here
    cases here

theorem congr (valid : Represents partition pairs) (same : ∀ a b, Linked pairs a b ↔ Linked more a b)
    (mentioned : ∀ key, Mentioned pairs key ↔ Mentioned more key) : Represents partition more where
  wellFormed := valid.wellFormed
  entered key := (valid.entered key).trans (mentioned key)
  linked i j a b first second := (valid.linked i j a b first second).trans (same a b)
  value i a name here := (valid.value i a name here).trans (same a (.const name))

theorem shortened (valid : Represents partition pairs) (moved : Shortened partition after) :
    Represents after pairs where
  wellFormed := moved.wellFormed
  entered key := by rw [moved.keys, valid.entered]
  linked i j a b first second := by
    rw [moved.keys] at first second
    rw [moved.root, moved.root, valid.linked i j a b first second]
  value i a name here := by
    rw [moved.keys] at here
    rw [moved.root, moved.value, valid.value i a name here]

theorem consistent (valid : Represents partition pairs) : Consistent pairs := by
  intro a b linked
  rcases linked.eq_or_mentioned with same | ⟨mentioned, _⟩
  · exact Key.const.inj same
  · obtain ⟨slot, here⟩ := List.mem_iff_getElem?.mp ((valid.entered _).mpr mentioned)
    have own := (valid.value slot _ a here).mpr (Linked.refl pairs _)
    have other := (valid.value slot _ b here).mpr linked
    exact Option.some.inj (own.symm.trans other)

/-! ### What can be asked of a partition -/

theorem slot_of_mentioned (valid : Represents partition pairs) (mentioned : Mentioned pairs key) :
    ∃ slot, partition.slot? key = some slot ∧ (keys partition)[slot]? = some key := by
  obtain ⟨slot, here⟩ := List.mem_iff_getElem?.mp ((valid.entered key).mpr mentioned)
  exact ⟨slot, (slot?_eq_some_iff valid.wellFormed.distinct).mpr here, here⟩

theorem slot?_of_not_mentioned (valid : Represents partition pairs) (absent : ¬ Mentioned pairs key) :
    partition.slot? key = none :=
  slot?_eq_none_iff.mpr fun member => absent ((valid.entered key).mp member)

theorem contains_iff (valid : Represents partition pairs) (key : Key) :
    partition.contains key = true ↔ Mentioned pairs key :=
  Proofs.contains_iff.trans (valid.entered key)

theorem sameClass_iff (valid : Represents partition pairs) (a b : Key) :
    partition.sameClass a b = true ↔ Linked pairs a b := by
  by_cases same : a = b
  · subst b
    simp [sameClass, Linked.refl]
  · by_cases mentioned : Mentioned pairs a ∧ Mentioned pairs b
    · obtain ⟨i, foundA, hereA⟩ := valid.slot_of_mentioned mentioned.1
      obtain ⟨j, foundB, hereB⟩ := valid.slot_of_mentioned mentioned.2
      simp [sameClass, same, foundA, foundB, valid.linked i j a b hereA hereB]
    · have apart : ¬ Linked pairs a b := fun linked => linked.eq_or_mentioned.elim same mentioned
      simp only [apart, iff_false]
      rcases not_and_or.mp mentioned with absent | absent
      · simp [sameClass, same, valid.slot?_of_not_mentioned absent]
      · cases found : partition.slot? a <;> simp [sameClass, same, found, valid.slot?_of_not_mentioned absent]

theorem valueOf_eq_some_iff (valid : Represents partition pairs) (key : Key) (name : String) :
    partition.valueOf key = some name ↔ Linked pairs key (.const name) := by
  by_cases mentioned : Mentioned pairs key
  · obtain ⟨slot, found, here⟩ := valid.slot_of_mentioned mentioned
    simp only [valueOf, found]
    exact valid.value slot key name here
  · simp only [valueOf, valid.slot?_of_not_mentioned mentioned]
    constructor
    · intro own
      cases key <;> cases own
      exact Linked.refl pairs _
    · intro linked
      rcases linked.eq_or_mentioned with rfl | ⟨present, _⟩
      · rfl
      · exact absurd present mentioned

/-! ### Adding an equation -/

theorem root_lt_size (valid : Represents partition pairs) {slot : Nat} (here : (keys partition)[slot]? = some key) :
    partition.root slot < partition.size :=
  valid.wellFormed.root_lt_size (lt_size_of_key here)

theorem getElem?_keys_enter {value : Option String} {slot : Nat} {name : Key}
    (here : (keys (Proofs.enter partition key value))[slot]? = some name) :
    (keys partition)[slot]? = some name ∨ slot = partition.size ∧ name = key := by
  rw [keys_enter, List.getElem?_append, keys_length] at here
  split at here
  · exact Or.inl here
  · obtain ⟨last, same⟩ : slot - partition.size = 0 ∧ key = name := by
      simpa [List.getElem?_singleton] using here
    exact Or.inr ⟨by omega, same.symm⟩

/-- A key that has not entered has neither a tree nor an equation in common with another. -/
theorem apart_of_absent (valid : Represents partition pairs) (absent : key ∉ keys partition) {slot : Nat} {old : Key}
    (here : (keys partition)[slot]? = some old) : partition.root slot ≠ partition.size ∧ ¬ Linked pairs old key := by
  refine ⟨(valid.root_lt_size here).ne, fun linked => absent ?_⟩
  rcases linked.eq_or_mentioned with same | known
  · exact same ▸ List.mem_of_getElem? here
  · exact (valid.entered key).mpr known.2

theorem linked_const_of_absent (valid : Represents partition pairs) (absent : key ∉ keys partition) (name : String) :
    key.constant? = some name ↔ Linked pairs key (.const name) := by
  constructor
  · intro own
    cases key <;> cases own
    exact Linked.refl pairs _
  · intro linked
    rcases linked.eq_or_mentioned with same | known
    · exact same ▸ rfl
    · exact absurd ((valid.entered key).mpr known.1) absent

theorem enter (valid : Represents partition pairs) (absent : key ∉ keys partition) :
    Represents (Proofs.enter partition key key.constant?) (pairs ++ [(key, key)]) := by
  have root := valid.wellFormed.root_enter absent key.constant?
  have alone : partition.root partition.size = partition.size := root_eq_self (parent_outside (Nat.le_refl _))
  refine ⟨valid.wellFormed.enter absent _, ?_, ?_, ?_⟩
  · intro other
    simp [valid.entered]
  · intro i j a b first second
    rw [root, root, Linked.append_self_iff]
    rcases getElem?_keys_enter first with oldA | ⟨rfl, rfl⟩
    · rcases getElem?_keys_enter second with oldB | ⟨rfl, rfl⟩
      · exact valid.linked i j a b oldA oldB
      · have apart := valid.apart_of_absent absent oldA
        rw [alone]
        exact iff_of_false apart.1 apart.2
    · rcases getElem?_keys_enter second with oldB | ⟨rfl, rfl⟩
      · have apart := valid.apart_of_absent absent oldB
        rw [alone]
        exact iff_of_false apart.1.symm fun linked => apart.2 linked.symm
      · exact iff_of_true rfl (Linked.refl pairs _)
  · intro i a name here
    rw [root, value_enter, Linked.append_self_iff]
    rcases getElem?_keys_enter here with old | ⟨rfl, rfl⟩
    · rw [if_neg (valid.apart_of_absent absent old).1]
      exact valid.value i a name old
    · rw [alone, if_pos rfl]
      exact valid.linked_const_of_absent absent name

/-- Naming a key is adding its equation with itself. -/
theorem intern (valid : Represents partition pairs) (key : Key) :
    Represents (partition.intern key).2 (pairs ++ [(key, key)]) ∧
      (keys (partition.intern key).2)[(partition.intern key).1]? = some key ∧
      ∀ (slot : Nat) (old : Key), (keys partition)[slot]? = some old →
        (keys (partition.intern key).2)[slot]? = some old := by
  cases found : partition.slot? key with
  | some slot =>
    have here := (slot?_eq_some_iff valid.wellFormed.distinct).mp found
    simp only [Partition.intern, found]
    refine ⟨valid.congr (fun a b => Linked.append_self_iff.symm) fun other => ?_, here, fun _ _ old => old⟩
    have entered := (valid.entered key).mp (List.mem_of_getElem? here)
    simp only [mentioned_append, mentioned_singleton, or_self]
    exact ⟨Or.inl, fun known => known.elim id fun same => same ▸ entered⟩
  | none =>
    rw [intern_of_slot? found]
    refine ⟨valid.enter (slot?_eq_none_iff.mp found), ?_, ?_⟩
    · rw [keys_enter, ← keys_length]
      simp
    · intro slot old here
      rw [keys_enter, List.getElem?_append_left (by rw [keys_length]; exact lt_size_of_key here)]
      exact here

theorem mergeValues_spec (first second : Option String) :
    match mergeValues first second with
    | some merged => ∀ name, merged = some name ↔ first = some name ∨ second = some name
    | none => ∃ x y, first = some x ∧ second = some y ∧ x ≠ y := by
  cases first with
  | none => simp [mergeValues]
  | some x =>
    cases second with
    | none => simp [mergeValues]
    | some y => by_cases same : x = y <;> simp [mergeValues, same]

theorem link (valid : Represents partition pairs) {i j : Nat} (hereA : (keys partition)[i]? = some a)
    (hereB : (keys partition)[j]? = some b) (different : partition.root i ≠ partition.root j)
    {merged : Option String} (values : ∀ name, merged = some name ↔
      partition.value (partition.root i) = some name ∨ partition.value (partition.root j) = some name) :
    Represents (partition.link (partition.root i) (partition.root j) merged) (pairs ++ [(a, b)]) := by
  have roots := valid.wellFormed.roots (lt_size_of_key hereA) (lt_size_of_key hereB) different
  obtain ⟨kept, names, top, chosen, root, value⟩ := valid.wellFormed.link roots merged
  have atA {slot : Nat} {key : Key} (here : (keys partition)[slot]? = some key) :=
    valid.linked slot i key a here hereA
  have atB {slot : Nat} {key : Key} (here : (keys partition)[slot]? = some key) :=
    valid.linked slot j key b here hereB
  refine ⟨kept, ?_, ?_, ?_⟩
  · intro key
    have knownA := (valid.entered a).mp (List.mem_of_getElem? hereA)
    have knownB := (valid.entered b).mp (List.mem_of_getElem? hereB)
    simp only [names, valid.entered, mentioned_append, mentioned_singleton]
    refine ⟨Or.inl, Or.rec id ?_⟩
    rintro (rfl | rfl)
    · exact knownA
    · exact knownB
  · intro s t x y first second
    rw [names] at first second
    have symm {x y : Key} : Linked pairs x y ↔ Linked pairs y x := ⟨Linked.symm, Linked.symm⟩
    rw [root, root, Linked.append_singleton_iff, symm (x := b), symm (x := a) (y := y), ← atA first, ← atB first,
      ← atA second, ← atB second, ← valid.linked s t x y first second]
    grind
  · intro s x name here
    rw [names] at here
    have symm {x y : Key} : Linked pairs x y ↔ Linked pairs y x := ⟨Linked.symm, Linked.symm⟩
    rw [root, Linked.append_singleton_iff, ← atA here, ← atB here, ← valid.value s x name here,
      ← valid.value i a name hereA, ← valid.value j b name hereB, value]
    grind

theorem prepare (valid : Represents partition pairs) (a b : Key) :
    ∃ ready i j, Represents ready (pairs ++ [(a, a)] ++ [(b, b)]) ∧
      (keys ready)[i]? = some a ∧ (keys ready)[j]? = some b ∧
      partition.equate a b =
        if ready.root i = ready.root j then some ready
        else (mergeValues (ready.value (ready.root i)) (ready.value (ready.root j))).map
          (ready.link (ready.root i) (ready.root j)) := by
  obtain ⟨first, hereA, _⟩ := valid.intern a
  obtain ⟨second, hereB, stays⟩ := first.intern b
  obtain ⟨foundA, movedA⟩ := second.wellFormed.halvedRoot_shortens (partition.intern a).1
  obtain ⟨foundB, movedB⟩ := movedA.wellFormed.halvedRoot_shortens ((partition.intern a).2.intern b).1
  have moved := movedA.trans movedB
  refine ⟨_, (partition.intern a).1, ((partition.intern a).2.intern b).1, second.shortened moved, ?_, ?_, ?_⟩
  · rw [moved.keys]
    exact stays _ a hereA
  · rw [moved.keys]
    exact hereB
  · rw [moved.root, movedB.root, ← foundA, ← foundB]
    rfl

theorem equate_spec (valid : Represents partition pairs) (a b : Key) :
    match partition.equate a b with
    | some after => Represents after (pairs ++ [(a, b)])
    | none => ¬ Consistent (pairs ++ [(a, b)]) := by
  obtain ⟨ready, i, j, named, hereA, hereB, result⟩ := valid.prepare a b
  -- The keys have entered one by one, which links nothing, and mentions what the equation mentions.
  have old {x y : Key} : Linked (pairs ++ [(a, a)] ++ [(b, b)]) x y ↔ Linked pairs x y := by
    rw [Linked.append_self_iff, Linked.append_self_iff]
  have known (key : Key) : Mentioned (pairs ++ [(a, a)] ++ [(b, b)]) key ↔ Mentioned (pairs ++ [(a, b)]) key := by
    simp only [mentioned_append, mentioned_singleton, or_self, or_assoc]
  rw [result]
  split_ifs with same
  · have linked : Linked pairs a b := old.mp ((named.linked i j a b hereA hereB).mp same)
    refine named.congr (fun x y => ?_) known
    rw [old, Linked.append_singleton_iff]
    refine ⟨Or.inl, Or.rec id (Or.rec ?_ ?_)⟩
    · exact fun both => both.1.trans (linked.trans both.2)
    · exact fun both => both.1.trans (linked.symm.trans both.2)
  · have values := mergeValues_spec (ready.value (ready.root i)) (ready.value (ready.root j))
    cases merge : mergeValues (ready.value (ready.root i)) (ready.value (ready.root j)) with
    | some merged =>
      rw [merge] at values
      refine (named.link hereA hereB same values).congr (fun x y => ?_) fun key => ?_
      · rw [Linked.append_singleton_iff]
        simp only [old]
        exact Linked.append_singleton_iff.symm
      · rw [mentioned_append, known]
        simp
    | none =>
      rw [merge] at values
      obtain ⟨x, y, boundA, boundB, apart⟩ := values
      have linkedA := old.mp ((named.value i a x hereA).mp boundA)
      have linkedB := old.mp ((named.value j b y hereB).mp boundB)
      intro consistent
      refine apart (consistent x y ?_)
      exact Linked.append_singleton_iff.mpr (Or.inr (Or.inl ⟨linkedA.symm, linkedB⟩))

end Represents

/-- An equation is accepted exactly when it links no two different constants. -/
theorem Represents.equate_iff (valid : Represents partition pairs) :
    (∃ after, partition.equate a b = some after) ↔ Consistent (pairs ++ [(a, b)]) := by
  have spec := valid.equate_spec a b
  cases result : partition.equate a b with
  | none =>
    rw [result] at spec
    simpa using spec
  | some after =>
    rw [result] at spec
    simpa using spec.consistent

theorem Represents.of_equate (valid : Represents partition pairs) (accepted : partition.equate a b = some after) :
    Represents after (pairs ++ [(a, b)]) := by
  have spec := valid.equate_spec a b
  rwa [accepted] at spec

/-! ### Whole histories -/

namespace Built

theorem nil : Built [] Partition.empty := rfl

theorem append_singleton (built : Built history partition) (accepted : partition.equate a b = some after) :
    Built (history ++ [(a, b)]) after := by
  rw [Built, List.foldlM_append, show List.foldlM _ _ history = some partition from built]
  simpa using accepted

theorem represents (built : Built history partition) : Represents partition history := by
  induction history using List.reverseRecOn generalizing partition with
  | nil =>
    cases built
    exact Represents.empty
  | append_singleton history pair ih =>
    rw [Built, List.foldlM_append, Option.bind_eq_bind, Option.bind_eq_some_iff] at built
    obtain ⟨before, earlier, last⟩ := built
    exact (ih earlier).of_equate (by simpa using last)

end Built

def Valuation.Respects (valuation : Valuation) (partition : Partition) : Prop :=
  ∀ a b, partition.sameClass a b = true → valuation a = valuation b

theorem Built.respects_iff (built : Built history partition) {valuation : Valuation} :
    valuation.Respects partition ↔ valuation.Satisfies history := by
  constructor
  · intro respects pair member
    exact respects pair.1 pair.2 ((built.represents.sameClass_iff _ _).mpr (Linked.of_mem member))
  · intro satisfied a b same
    exact satisfied.same_value ((built.represents.sameClass_iff a b).mp same)

theorem Built.exists_respects (built : Built history partition) :
    ∃ valuation : Valuation, valuation.Respects partition := by
  obtain ⟨valuation, satisfied⟩ := consistent_iff_satisfiable.mp built.represents.consistent
  exact ⟨valuation, built.respects_iff.mpr satisfied⟩

end Backchain.Proofs
