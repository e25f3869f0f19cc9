import Backchain.Proofs.PartitionHistory
import Backchain.Proofs.UnificationClosure
import Mathlib.Data.List.Zip

/-! Unification as a question about equivalences alone. Two atoms unify exactly if the classes of the partition can be joined
along their arguments without joining two constants, and then these classes are the result. Hence neither the side on
which an atom stands matters nor the order of the arguments. -/

namespace Backchain

def ScopedAtom.withArguments (goal : ScopedAtom) (arguments : List Term) : ScopedAtom :=
  ⟨⟨goal.atom.predicate, arguments⟩, goal.scope⟩

namespace Proofs
open Backchain.Partition

variable {history pairs more : List (Key × Key)} {partition after : Partition} {candidate goal other another : ScopedAtom}
  {a b key : Key}

/-- The least equivalence that contains the classes of the partition and the pairs. -/
def Joined (partition : Partition) (pairs : List (Key × Key)) : Key → Key → Prop :=
  Relation.EqvGen fun a b => partition.sameClass a b = true ∨ (a, b) ∈ pairs

theorem Built.joined_iff (built : Built history partition) : Joined partition pairs a b ↔ Linked (history ++ pairs) a b := by
  have old {a b : Key} : partition.sameClass a b = true ↔ Linked history a b := built.represents.sameClass_iff a b
  constructor
  · intro joined
    induction joined with
    | rel a b either =>
      rcases either with same | member
      · exact (old.mp same).mono (List.subset_append_left _ _)
      · exact Linked.of_mem (List.mem_append_right _ member)
    | refl a => exact Linked.refl _ a
    | symm a b _ ih => exact ih.symm
    | trans a b c _ _ first second => exact first.trans second
  · intro linked
    refine Relation.EqvGen.mono (fun a b member => ?_) _ _ linked
    exact (List.mem_append.mp member).imp (fun known => old.mpr (Linked.of_mem known)) id

/-! ### Equations that say the same -/

/-- The equations link the same keys and mention the same keys. -/
structure SaysTheSame (pairs more : List (Key × Key)) : Prop where
  linked : ∀ a b, Linked pairs a b ↔ Linked more a b
  mentioned : ∀ key, Mentioned pairs key ↔ Mentioned more key

theorem SaysTheSame.of_perm (arranged : pairs.Perm more) : SaysTheSame pairs more where
  linked _ _ := ⟨fun linked => linked.mono arranged.subset, fun linked => linked.mono arranged.symm.subset⟩
  mentioned key := by simp only [Mentioned, arranged.mem_iff]

theorem SaysTheSame.swap (pairs : List (Key × Key)) : SaysTheSame pairs (pairs.map Prod.swap) where
  linked a b := by
    constructor
    · intro linked
      refine linked.of_forall_linked fun pair member => Linked.symm (Linked.of_mem ?_)
      exact List.mem_map_of_mem member
    · intro linked
      refine linked.of_forall_linked fun pair member => Linked.symm (Linked.of_mem ?_)
      obtain ⟨old, present, rfl⟩ := List.mem_map.mp member
      exact present
  mentioned key := by
    simp only [Mentioned, List.mem_map, exists_exists_and_eq_and, Prod.fst_swap, Prod.snd_swap]
    exact exists_congr fun pair => and_congr_right fun _ => or_comm

theorem SaysTheSame.append_left (same : SaysTheSame pairs more) (history : List (Key × Key)) :
    SaysTheSame (history ++ pairs) (history ++ more) where
  linked a b := by
    have carry {first second : List (Key × Key)} (same : ∀ a b, Linked first a b → Linked second a b)
        (linked : Linked (history ++ first) a b) : Linked (history ++ second) a b := by
      refine linked.of_forall_linked fun pair member => ?_
      rcases List.mem_append.mp member with old | new
      · exact Linked.of_mem (List.mem_append_left _ old)
      · exact (same _ _ (Linked.of_mem new)).mono (List.subset_append_right _ _)
    exact ⟨carry fun a b => (same.linked a b).mp, carry fun a b => (same.linked a b).mpr⟩
  mentioned key := by rw [mentioned_append, mentioned_append, same.mentioned]

theorem SaysTheSame.consistent_iff (same : SaysTheSame pairs more) : Consistent pairs ↔ Consistent more := by
  simp only [Consistent, same.linked]

/-- Nothing that can be asked about equalities tells the partitions apart. -/
structure SameEqualities (first second : Partition) : Prop where
  sameClass : ∀ a b, first.sameClass a b = second.sameClass a b
  valueOf : ∀ key, first.valueOf key = second.valueOf key
  contains : ∀ key, first.contains key = second.contains key
  size : first.size = second.size

theorem Represents.sameEqualities {first second : Partition} (valid : Represents first pairs)
    (others : Represents second pairs) : SameEqualities first second where
  sameClass a b := by rw [Bool.eq_iff_iff, valid.sameClass_iff, others.sameClass_iff]
  valueOf key := by
    apply Option.ext
    intro name
    rw [valid.valueOf_eq_some_iff, others.valueOf_eq_some_iff]
  contains key := by rw [Bool.eq_iff_iff, valid.contains_iff, others.contains_iff]
  size := by rw [valid.size_eq, others.size_eq]

/-! ### Unification -/

theorem Built.unify_iff (built : Built history partition) :
    (∃ after, unify candidate goal partition = some after) ↔
      Matches candidate goal ∧ Consistent (history ++ equations candidate goal) := by
  constructor
  · rintro ⟨after, unified⟩
    obtain ⟨fits, finished⟩ := built.of_unify unified
    exact ⟨fits, finished.represents.consistent⟩
  · rintro ⟨fits, consistent⟩
    exact built.exists_unify fits consistent

/-- Atoms unify alike if they match alike and their equations say the same. -/
theorem Built.unify_rel (built : Built history partition) (fits : Matches candidate goal ↔ Matches other another)
    (same : SaysTheSame (equations candidate goal) (equations other another)) :
    Option.Rel SameEqualities (unify candidate goal partition) (unify other another partition) := by
  have extended := same.append_left history
  have succeeds : (∃ after, unify candidate goal partition = some after) ↔
      ∃ after, unify other another partition = some after := by
    rw [built.unify_iff, built.unify_iff, fits, extended.consistent_iff]
  cases first : unify candidate goal partition with
  | none =>
    cases second : unify other another partition with
    | none => exact .none
    | some after =>
      obtain ⟨impossible, unified⟩ := succeeds.mpr ⟨after, second⟩
      cases first.symm.trans unified
  | some after =>
    obtain ⟨copy, second⟩ := succeeds.mp ⟨after, first⟩
    rw [second]
    have valid := (built.of_unify first).2.represents
    have others := (built.of_unify second).2.represents
    exact .some ((valid.congr extended.linked extended.mentioned).sameEqualities others)

theorem Matches.symm (fits : Matches candidate goal) : Matches goal candidate where
  predicate := fits.predicate.symm
  arity := fits.arity.symm
  apart pair member isVar same := by
    rw [equations, ← List.zip_swap] at member
    obtain ⟨facing, present, rfl⟩ := List.mem_map.mp member
    have free : facing.1.isVar = true := by rwa [show facing.1 = facing.2 from same.symm]
    exact fits.apart facing present free same.symm

theorem Built.unify_swap (built : Built history partition) (candidate goal : ScopedAtom) :
    Option.Rel SameEqualities (unify candidate goal partition) (unify goal candidate partition) := by
  apply built.unify_rel ⟨Matches.symm, Matches.symm⟩
  rw [show equations goal candidate = (equations candidate goal).map Prod.swap from (List.zip_swap ..).symm]
  exact .swap _

/-- The atoms with their arguments in another order, the same for both. -/
theorem Built.unify_rearranged (built : Built history partition) (arity : candidate.atom.arity = goal.atom.arity)
    {facing : List (Term × Term)} (arranged : facing.Perm (candidate.atom.arguments.zip goal.atom.arguments)) :
    Option.Rel SameEqualities
      (unify (candidate.withArguments (facing.map Prod.fst)) (goal.withArguments (facing.map Prod.snd)) partition)
      (unify candidate goal partition) := by
  have moved : (equations (candidate.withArguments (facing.map Prod.fst))
      (goal.withArguments (facing.map Prod.snd))).Perm (equations candidate goal) := by
    have paired : facing = (facing.map Prod.fst).zip (facing.map Prod.snd) := by
      rw [← List.unzip_fst, ← List.unzip_snd, List.zip_unzip]
    rw [equations, ScopedAtom.keys, ScopedAtom.keys, List.zip_map, equations, ScopedAtom.keys, ScopedAtom.keys,
      List.zip_map]
    simp only [ScopedAtom.withArguments, ← paired]
    exact arranged.map _
  refine built.unify_rel ?_ (.of_perm moved)
  constructor
  · intro fits
    exact ⟨fits.predicate, arity, fun pair member => fits.apart pair (moved.mem_iff.mpr member)⟩
  · intro fits
    refine ⟨fits.predicate, ?_, fun pair member => fits.apart pair (moved.mem_iff.mp member)⟩
    simp [ScopedAtom.withArguments, Atom.arity]

/-- The keys are those of the partition, and then those of the arguments, position by position. -/
theorem Built.keys_unify (built : Built history partition) (unified : unify candidate goal partition = some after) :
    keys after = (keys partition ++ mentionedKeys (equations candidate goal)).eraseDups := by
  have old : (mentionedKeys history).eraseDups = keys partition := built.keys_eq.symm
  have joined : mentionedKeys (history ++ equations candidate goal) =
      mentionedKeys history ++ mentionedKeys (equations candidate goal) := List.flatMap_append
  have new : (mentionedKeys (equations candidate goal)).removeAll (mentionedKeys history) =
      (mentionedKeys (equations candidate goal)).removeAll (keys partition) := by
    simp [List.removeAll, ← old]
  rw [(built.of_unify unified).2.keys_eq, joined, List.eraseDups_append, List.eraseDups_append, old, new,
    eraseDups_of_nodup built.represents.wellFormed.distinct]

/-- Unification succeeds exactly if the atoms match, and joining the classes of the partition along the arguments links no
two different constants. Then the result is just that: nothing more is equated, and nothing that was is lost. It makes
no difference which of the atoms comes first, or in which order the arguments stand. -/
theorem unify_most_general (built : Built history partition) (candidate goal : ScopedAtom) :
    ((∃ after, unify candidate goal partition = some after) ↔
      (candidate.atom.predicate = goal.atom.predicate ∧ candidate.atom.arity = goal.atom.arity ∧
        ∀ pair ∈ equations candidate goal, pair.1.isVar = true → pair.1 ≠ pair.2) ∧
      ∀ x y, Joined partition (equations candidate goal) (.const x) (.const y) → x = y) ∧
    (∀ after, unify candidate goal partition = some after →
      (∀ a b, after.sameClass a b = true ↔ Joined partition (equations candidate goal) a b) ∧
      (∀ key name, after.valueOf key = some name ↔ Joined partition (equations candidate goal) key (.const name)) ∧
      (∀ key, after.contains key = true ↔
        partition.contains key = true ∨ key ∈ candidate.keys ∨ key ∈ goal.keys) ∧
      keys after = (keys partition ++ mentionedKeys (equations candidate goal)).eraseDups ∧
      after.size = (keys partition ++ mentionedKeys (equations candidate goal)).eraseDups.length) ∧
    Option.Rel SameEqualities (unify candidate goal partition) (unify goal candidate partition) ∧
    ∀ facing : List (Term × Term), candidate.atom.arity = goal.atom.arity →
      facing.Perm (candidate.atom.arguments.zip goal.atom.arguments) →
        Option.Rel SameEqualities
          (unify (candidate.withArguments (facing.map Prod.fst)) (goal.withArguments (facing.map Prod.snd)) partition)
          (unify candidate goal partition) := by
  refine ⟨?_, ?_, built.unify_swap candidate goal, fun facing arity => built.unify_rearranged arity⟩
  · have joined (a b : Key) : Joined partition (equations candidate goal) a b ↔
        Linked (history ++ equations candidate goal) a b := built.joined_iff
    rw [built.unify_iff, Consistent]
    simp only [joined]
    refine and_congr_left fun _ => ?_
    exact ⟨fun fits => ⟨fits.predicate, fits.arity, fits.apart⟩, fun fits => ⟨fits.1, fits.2.1, fits.2.2⟩⟩
  · intro after unified
    obtain ⟨fits, finished⟩ := built.of_unify unified
    have entered := built.keys_unify unified
    refine ⟨fun a b => ?_, fun key name => ?_, fun key => ?_, entered, by rw [← entered, keys_length]⟩
    · rw [finished.represents.sameClass_iff, built.joined_iff]
    · rw [finished.represents.valueOf_eq_some_iff, built.joined_iff]
    · rw [finished.represents.contains_iff, mentioned_append, fits.mentioned_iff, built.represents.contains_iff]

/-- The branch already equates `X` and `Y`. -/
def aliased : Partition := ⟨#[⟨.var "X" 0, 0, 1, none⟩, ⟨.var "Y" 0, 0, 0, none⟩]⟩

def reflexive : ScopedAtom := ⟨⟨"same", [⟨"W"⟩, ⟨"W"⟩]⟩, 1⟩

def sameAsAnn : ScopedAtom := ⟨⟨"same", [⟨"X"⟩, ⟨"ann"⟩]⟩, 0⟩

theorem unify_most_general_aliased :
    Built [(.var "X" 0, .var "Y" 0)] aliased ∧
      ∃ after, unify reflexive sameAsAnn aliased = some after ∧ after.valueOf (.var "Y" 0) = some "ann" ∧
        keys after = [.var "X" 0, .var "Y" 0, .var "W" 1, .const "ann"] ∧
        ∃ turned, unify sameAsAnn reflexive aliased = some turned ∧ SameEqualities after turned := by
  have accepted : Partition.empty.equate (.var "X" 0) (.var "Y" 0) = some aliased := by cbv
  have built : Built [(.var "X" 0, .var "Y" 0)] aliased := Built.nil.append_singleton accepted
  obtain ⟨_, exact, swapped, _⟩ := unify_most_general built reflexive sameAsAnn
  have succeeds : (unify reflexive sameAsAnn aliased).isSome = true := by cbv
  obtain ⟨after, unified⟩ := Option.isSome_iff_exists.mp succeeds
  obtain ⟨_, valueOf, _, entered, _⟩ := exact after unified
  refine ⟨built, after, unified, (valueOf _ _).mpr ?_, by rw [entered]; decide, ?_⟩
  · have old : aliased.sameClass (.var "Y" 0) (.var "X" 0) = true := by cbv
    have first : (.var "W" 1, .var "X" 0) ∈ equations reflexive sameAsAnn := by decide
    have second : (.var "W" 1, .const "ann") ∈ equations reflexive sameAsAnn := by decide
    exact .trans _ _ _ (.rel _ _ (.inl old)) (.trans _ _ _ (.symm _ _ (.rel _ _ (.inr first))) (.rel _ _ (.inr second)))
  · rw [unified] at swapped
    cases turned : unify sameAsAnn reflexive aliased with
    | none =>
      rw [turned] at swapped
      cases swapped
    | some other =>
      rw [turned] at swapped
      cases swapped with
      | some same => exact ⟨other, rfl, same⟩

end Proofs
end Backchain
