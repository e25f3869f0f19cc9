import Backchain.Proofs.ProofProducts
import Backchain.Proofs.ProofRenaming
import Backchain.Proofs.SearchLimits
import Backchain.Proofs.SearchTermination

/-! Equations that are added before a search or after it. They rule out the same proofs, so that a search from the
constrained partition finds those solutions of the other search that the equations can be added to. -/

namespace Backchain.Proofs

/-- The partition with all of the equations on top of its own. -/
def constrain (equations : List (Key × Key)) (partition : Partition) : Option Partition :=
  equations.foldlM (fun partition (a, b) => partition.equate a b) partition

section
variable {history equations : List (Key × Key)} {partition constrained : Partition}

theorem Built.constrain_eq_some_iff (built : Built history partition) :
    constrain equations partition = some constrained ↔ Built (history ++ equations) constrained := by
  rw [Built, List.foldlM_append, show List.foldlM _ _ history = some partition from built, constrain]
  rfl

theorem Built.exists_constrain_iff (built : Built history partition) :
    (∃ constrained, constrain equations partition = some constrained) ↔ Consistent (history ++ equations) := by
  constructor
  · rintro ⟨constrained, added⟩
    exact (built.constrain_eq_some_iff.mp added).represents.consistent
  · intro consistent
    induction equations generalizing history partition with
    | nil => exact ⟨partition, rfl⟩
    | cons pair equations ih =>
      obtain ⟨a, b⟩ := pair
      rw [List.append_cons] at consistent
      obtain ⟨middle, accepted⟩ := built.represents.equate_iff.mpr consistent.of_append
      obtain ⟨constrained, added⟩ := ih (built.append_singleton accepted) consistent
      refine ⟨constrained, ?_⟩
      change (partition.equate a b).bind (constrain equations) = some constrained
      rw [accepted]
      exact added

end

section
variable {database : Database} {low high higher : Nat} {goals : List ScopedAtom} {history equations : List (Key × Key)}
  {start constrained : Partition} {depth : Nat} {entries others : List (ProofForest Scope × Partition)}
  {entry other : ProofForest Scope × Partition}

theorem ScopesBelow.constrain (below : ScopesBelow low goals start) (built : Built history start)
    (known : ∀ key, Mentioned equations key → BelowScope low key) (added : constrain equations start = some constrained) :
    ScopesBelow low goals constrained where
  goals := below.goals
  partition name scope inside := by
    have finished := built.constrain_eq_some_iff.mp added
    rw [finished.represents.contains_iff, mentioned_append] at inside
    exact inside.elim (below.belowScope built) (known _)

/-- The solutions that the equations can be added to, with the equations added. -/
def keepConstrained (equations : List (Key × Key)) (entries : List (ProofForest Scope × Partition)) :
    List (ProofForest Scope × Partition) :=
  entries.filterMap fun entry => (constrain equations entry.2).map (entry.1, ·)

theorem mem_keepConstrained : other ∈ keepConstrained equations entries ↔
    ∃ entry ∈ entries, entry.1 = other.1 ∧ constrain equations entry.2 = some other.2 := by
  simp only [keepConstrained, List.mem_filterMap, Option.map_eq_some_iff]
  constructor
  · rintro ⟨entry, member, partition, added, rfl⟩
    exact ⟨entry, member, rfl, added⟩
  · rintro ⟨entry, member, same, added⟩
    exact ⟨entry, member, other.2, added, Prod.ext same rfl⟩

theorem map_snd_keepConstrained (equations : List (Key × Key)) (entries : List (ProofForest Scope × Partition)) :
    (keepConstrained equations entries).map Prod.snd = (entries.map Prod.snd).filterMap (constrain equations) := by
  simp [keepConstrained, List.map_filterMap, List.filterMap_map, Function.comp_def]

theorem erase_ordered_keepConstrained (valid : Enumerates database low high ⟨goals, start, depth⟩ entries) :
    ((keepConstrained equations entries).map (·.1.erase)).Pairwise ProofForest.Before := by
  refine List.pairwise_map.mpr (List.pairwise_filterMap.mpr ((List.pairwise_map.mp valid.erase_ordered).imp ?_))
  intro first second before left fromFirst right fromSecond
  obtain ⟨_, _, rfl⟩ := Option.map_eq_some_iff.mp fromFirst
  obtain ⟨_, _, rfl⟩ := Option.map_eq_some_iff.mp fromSecond
  exact before

namespace Enumerates

variable (valid : Enumerates database low high ⟨goals, start, depth⟩ entries)
  (again : Enumerates database low higher ⟨goals, constrained, depth⟩ others)
  (built : Built history start) (below : ScopesBelow low goals start)
  (known : ∀ key, Mentioned equations key → BelowScope low key) (added : constrain equations start = some constrained)

include valid again built below known added

/-- A solution that the equations can be added to is found under them as well. -/
theorem exists_constrained (member : other ∈ keepConstrained equations entries) :
    ∃ entry ∈ others, entry.1.erase = other.1.erase ∧ AgreeBelow low other.2 entry.2 := by
  obtain ⟨entry, present, same, extended⟩ := mem_keepConstrained.mp member
  obtain ⟨needed, proves, finished⟩ := valid.sound history built entry present
  have final := finished.constrain_eq_some_iff.mp extended
  have arranged : (history ++ needed ++ equations).Perm (history ++ equations ++ needed) := by
    simpa only [List.append_assoc] using List.perm_append_comm.append_left history
  obtain ⟨found, inside, shape, agree⟩ := again.exists_entry (built.constrain_eq_some_iff.mp added)
    (below.constrain built known added) (Nat.le_refl low) (valid.labelsAbove (Nat.le_refl low) present) proves
    (final.represents.of_perm arranged).consistent
  exact ⟨found, inside, same ▸ shape, agree _ _ final.represents arranged⟩

/-- What is found under the equations is found without them, and the equations can be added to it. -/
theorem exists_unconstrained (member : other ∈ others) :
    ∃ entry ∈ keepConstrained equations entries, entry.1.erase = other.1.erase := by
  have extended := built.constrain_eq_some_iff.mp added
  have labels := again.labelsAbove (Nat.le_refl low) member
  obtain ⟨needed, proves, finished⟩ := again.sound _ extended other member
  have possible : Consistent (history ++ needed) :=
    finished.represents.consistent.mono (by grind)
  obtain ⟨entry, present, same, _⟩ := valid.exists_entry built below (Nat.le_refl low) labels proves possible
  obtain ⟨more, likewise, found⟩ := valid.sound history built entry present
  -- The equations of the two proofs differ in scopes that neither the history nor the new equations know.
  obtain ⟨exchange, fixed, rfl⟩ := proves.exists_rename likewise same.symm labels
    (valid.labelsAbove (Nat.le_refl low) present) below.goals
  have unchanged : renamePairs exchange (history ++ equations) = history ++ equations := by
    refine renamePairs_of_belowScope fixed fun key mentioned => ?_
    exact (mentioned_append.mp mentioned).elim (below.belowScope built) (known key)
  have consistent := (consistent_rename_iff exchange).mpr finished.represents.consistent
  rw [renamePairs_append, unchanged] at consistent
  have extensible : Consistent (history ++ renamePairs exchange needed ++ equations) := consistent.mono (by grind)
  obtain ⟨kept, last⟩ := found.exists_constrain_iff.mpr extensible
  exact ⟨(entry.1, kept), mem_keepConstrained.mpr ⟨entry, present, rfl, last⟩, same⟩

theorem map_erase_keepConstrained :
    (keepConstrained equations entries).map (·.1.erase) = others.map (·.1.erase) := by
  refine List.Pairwise.eq_of_mem_iff (erase_ordered_keepConstrained valid) again.erase_ordered fun shape => ?_
  simp only [List.mem_map]
  constructor
  · rintro ⟨entry, member, rfl⟩
    obtain ⟨found, inside, same, _⟩ := valid.exists_constrained again built below known added member
    exact ⟨found, inside, same⟩
  · rintro ⟨entry, member, rfl⟩
    exact valid.exists_unconstrained again built below known added member

end Enumerates
end

variable {search after : Search} {fuel : Nat} {goals : List ScopedAtom} {history equations : List (Key × Key)}
  {start : Partition} {found : List Partition}

/-- Equations between old keys can be added before a search without limits or after it. If they can be added to what the
search starts from, the search ends as well, and finds in the same order what they can be added to afterwards. If they
cannot, they cannot be added to any solution. -/
theorem run_constrain (free : search.limits = .unbounded) (built : Built history start)
    (below : ScopesBelow search.supply.next goals start)
    (known : ∀ key, Mentioned equations key → BelowScope search.supply.next key)
    (ran : search.run fuel goals start = some ⟨.ok found, after⟩) :
    (∀ constrained, constrain equations start = some constrained →
      ∃ fuel kept last, search.run fuel goals constrained = some ⟨.ok kept, last⟩ ∧
        List.Forall₂ (AgreeBelow search.supply.next) (found.filterMap (constrain equations)) kept) ∧
    (constrain equations start = none → ∀ solution ∈ found, constrain equations solution = none) := by
  obtain ⟨entries, rfl, valid⟩ := exists_enumerates_of_run ran
  constructor
  · intro constrained added
    have extended := built.constrain_eq_some_iff.mp added
    have bounded (valuation : Valuation) (respects : valuation.Respects constrained) (count : Nat)
        (possible : Resolvable search.database count (valuation.assigned goals)) : count < after.stats.steps + 1 := by
      have satisfied := (Valuation.Satisfies.append_iff.mp (extended.respects_iff.mp respects)).1
      exact resolvable_lt_of_run ran built below (built.respects_iff.mpr satisfied) possible
    obtain ⟨fuel, kept, last, again⟩ := exists_run_of_resolvable_lt free extended bounded
    refine ⟨fuel, kept, last, again, ?_⟩
    obtain ⟨others, rfl, enumerated⟩ := exists_enumerates_of_run again
    rw [← map_snd_keepConstrained]
    refine List.forall₂_map_left_iff.mpr (forall₂_of_shapes enumerated.erase_nodup (List.Subset.refl _)
      (valid.map_erase_keepConstrained enumerated built below known added) fun entry member => ?_)
    exact valid.exists_constrained enumerated built below known added member
  · intro refused
    refine List.forall_mem_map.mpr fun entry member => Option.eq_none_iff_forall_ne_some.mpr fun kept extended => ?_
    obtain ⟨needed, _, finished⟩ := valid.sound history built entry member
    have consistent := (finished.constrain_eq_some_iff.mp extended).represents.consistent
    have possible : Consistent (history ++ equations) := consistent.mono (by grind)
    obtain ⟨constrained, added⟩ := built.exists_constrain_iff.mpr possible
    rw [refused] at added
    cases added

/-- Every dish goes with rice, and soup goes with bread as well. -/
def menu : Database where
  facts := [⟨"dish", [⟨"soup"⟩]⟩, ⟨"dish", [⟨"curry"⟩]⟩, ⟨"goes", [⟨"soup"⟩, ⟨"bread"⟩]⟩,
    ⟨"goes", [⟨"Any"⟩, ⟨"rice"⟩]⟩]
  rules := [⟨⟨"order", [⟨"X"⟩, ⟨"Y"⟩]⟩, [⟨"dish", [⟨"X"⟩]⟩, ⟨"goes", [⟨"X"⟩, ⟨"Y"⟩]⟩]⟩]

/-- Two of the three orders are with rice. -/
theorem run_constrain_menu : ∃ found after constrained fuel kept last,
    Search.run 40 (⟨menu, {}, ⟨1⟩, {}⟩ : Search) [⟨⟨"order", [⟨"D"⟩, ⟨"S"⟩]⟩, 0⟩] Partition.empty = some ⟨.ok found, after⟩ ∧
      found.length = 3 ∧ constrain [(.var "S" 0, .const "rice")] Partition.empty = some constrained ∧
      Search.run fuel (⟨menu, {}, ⟨1⟩, {}⟩ : Search) [⟨⟨"order", [⟨"D"⟩, ⟨"S"⟩]⟩, 0⟩] constrained = some ⟨.ok kept, last⟩ ∧
      kept.length = 2 ∧ List.Forall₂ (AgreeBelow 1) (found.filterMap (constrain [(.var "S" 0, .const "rice")])) kept := by
  have below : ScopesBelow 1 [⟨⟨"order", [⟨"D"⟩, ⟨"S"⟩]⟩, 0⟩] Partition.empty := .of_goals (by simp)
  have known : ∀ key, Mentioned [(.var "S" 0, .const "rice")] key → BelowScope 1 key := by
    simp [BelowScope]
  obtain ⟨found, after, ran, sizes⟩ : ∃ found after, Search.run 40 (⟨menu, {}, ⟨1⟩, {}⟩ : Search)
      [⟨⟨"order", [⟨"D"⟩, ⟨"S"⟩]⟩, 0⟩] Partition.empty = some ⟨.ok found, after⟩ ∧
      (found.length, (found.filterMap (constrain [(.var "S" 0, .const "rice")])).length) = (3, 2) :=
    exists_found (by cbv)
  obtain ⟨three, two⟩ := Prod.mk.inj sizes
  obtain ⟨constrained, added⟩ : ∃ constrained,
      constrain [(.var "S" 0, .const "rice")] Partition.empty = some constrained := ⟨_, by cbv⟩
  obtain ⟨fuel, kept, last, again, paired⟩ := (run_constrain rfl Built.nil below known ran).1 constrained added
  exact ⟨found, after, constrained, fuel, kept, last, ran, three, added, again, paired.length_eq.symm.trans two, paired⟩

end Backchain.Proofs
