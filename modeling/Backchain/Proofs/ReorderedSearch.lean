import Backchain.Proofs.ProofRearrangement

/-! Goals, facts and rules in another order. A search then comes to the same solutions in another order, since the
proofs that it enumerates are carried over one by one. -/

namespace Backchain.Proofs

section
variable {database other : Database} {low high lower higher depth depth' : Nat} {bound : Scope}
  {goals arranged : List ScopedAtom} {change : Equiv.Perm (ProofForest Unit)} {history : List (Key × Key)}
  {start : Partition} {entries others : List (ProofForest Scope × Partition)}

/-- If proofs are carried both ways, the solutions correspond one by one. -/
theorem Enumerates.exists_matched (forward : Carries database goals other arranged change)
    (backward : Carries other arranged database goals change.symm)
    (valid : Enumerates database low high ⟨goals, start, depth⟩ entries)
    (again : Enumerates other lower higher ⟨arranged, start, depth'⟩ others) (built : Built history start)
    (below : ScopesBelow bound goals start) (same : ScopesBelow bound arranged start) (above : bound ≤ low)
    (beyond : bound ≤ lower) :
    ∃ matched, matched.Perm (others.map Prod.snd) ∧
      List.Forall₂ (AgreeBelow bound) (entries.map Prod.snd) matched := by
  have shapes : (entries.map fun entry => change entry.1.erase).Perm (others.map (·.1.erase)) := by
    have once : (entries.map fun entry => change entry.1.erase).Nodup := by
      have distinct := valid.erase_nodup.map change.injective
      rwa [List.map_map] at distinct
    refine (List.perm_ext_iff_of_nodup once again.erase_nodup).mpr fun shape => ?_
    simp only [List.mem_map]
    constructor
    · rintro ⟨entry, member, rfl⟩
      obtain ⟨counterpart, inside, equal, _⟩ :=
        forward.exists_entry valid again built same above beyond member
      exact ⟨counterpart, inside, equal⟩
    · rintro ⟨entry, member, rfl⟩
      obtain ⟨counterpart, inside, equal, _⟩ :=
        backward.exists_entry again valid built below beyond above member
      exact ⟨counterpart, inside, by rw [equal, change.apply_symm_apply]⟩
  obtain ⟨chosen, equal, order⟩ := exists_arranged shapes
  refine ⟨chosen.map Prod.snd, order.map Prod.snd, List.forall₂_map_left_iff.mpr ?_⟩
  exact forall₂_of_shapes again.erase_nodup order.subset equal fun entry member =>
    forward.exists_entry valid again built same above beyond member

end

variable {search other : Search} {bound : Scope} {goals arranged : List ScopedAtom} {history : List (Key × Key)}
  {start : Partition} {fuel more : Nat} {found reached : List Partition} {after last : Search}

/-- The order of goals, facts and rules is the order of the solutions, and nothing else: solution by solution, two
searches that differ in it alone agree on whatever was there before, and show the same bindings. -/
theorem run_reordered (facts : search.database.facts.Perm other.database.facts)
    (rules : search.database.rules.Perm other.database.rules) (order : goals.Perm arranged)
    (built : Built history start) (below : ScopesBelow bound goals start) (above : bound ≤ search.supply.next)
    (beyond : bound ≤ other.supply.next) (ran : search.run fuel goals start = some ⟨.ok found, after⟩)
    (again : other.run more arranged start = some ⟨.ok reached, last⟩) :
    (∃ matched, matched.Perm reached ∧ List.Forall₂ (AgreeBelow bound) found matched) ∧
      ∀ queries : List ScopedAtom, (∀ query ∈ queries, query.scope < bound) →
        (found.map (Bindings.ofQueries queries)).Perm (reached.map (Bindings.ofQueries queries)) := by
  obtain ⟨entries, rfl, valid⟩ := exists_enumerates_of_run ran
  obtain ⟨others, rfl, enumerated⟩ := exists_enumerates_of_run again
  obtain ⟨change, forward, backward⟩ := exists_carries_of_perm order search.database
  obtain ⟨further, onward, homeward⟩ := exists_carries_of_perm_database facts rules arranged
  have same : ScopesBelow bound arranged start :=
    ⟨fun goal member => below.goals goal (order.mem_iff.mpr member), below.partition⟩
  have carried : Carries search.database goals other.database arranged (change.trans further) := forward.trans onward
  have returned : Carries other.database arranged search.database goals (change.trans further).symm :=
    homeward.trans backward
  obtain ⟨matched, permuted, paired⟩ :=
    Enumerates.exists_matched carried returned valid enumerated built below same above beyond
  refine ⟨⟨matched, permuted, paired⟩, fun queries old => ?_⟩
  rw [map_eq_of_forall₂ paired fun _ _ agree => agree.ofQueries_eq old]
  exact permuted.map _

/-- Whoever is rich or loved is happy. -/
def fortunes : Database where
  facts := [⟨"rich", [⟨"ann"⟩]⟩, ⟨"loved", [⟨"ann"⟩]⟩, ⟨"loved", [⟨"bob"⟩]⟩]
  rules := [⟨⟨"happy", [⟨"X"⟩]⟩, [⟨"rich", [⟨"X"⟩]⟩]⟩, ⟨⟨"happy", [⟨"X"⟩]⟩, [⟨"loved", [⟨"X"⟩]⟩]⟩]

def turned : Database where
  facts := fortunes.facts.reverse
  rules := fortunes.rules.reverse

def happyAndLoved : List ScopedAtom := [⟨⟨"happy", [⟨"P"⟩]⟩, 0⟩, ⟨⟨"loved", [⟨"P"⟩]⟩, 0⟩]

/-- Both reasons for which ann is happy are found either way, and bob before them when everything is turned round. -/
theorem run_reordered_fortunes : ∃ found after reached last,
    Search.run 40 (⟨fortunes, {}, ⟨1⟩, {}⟩ : Search) happyAndLoved Partition.empty = some ⟨.ok found, after⟩ ∧
      Search.run 40 (⟨turned, {}, ⟨1⟩, {}⟩ : Search) happyAndLoved.reverse Partition.empty = some ⟨.ok reached, last⟩ ∧
      found.map (fun solution => solution.valueOf (.var "P" 0)) = [some "ann", some "ann", some "bob"] ∧
      reached.map (fun solution => solution.valueOf (.var "P" 0)) = [some "bob", some "ann", some "ann"] ∧
      (∃ matched, matched.Perm reached ∧ List.Forall₂ (AgreeBelow 1) found matched) ∧
      (found.map (Bindings.ofQueries happyAndLoved)).Perm (reached.map (Bindings.ofQueries happyAndLoved)) := by
  have old : ∀ query ∈ happyAndLoved, query.scope < 1 := by simp [happyAndLoved]
  obtain ⟨found, after, ran, values⟩ : ∃ found after, Search.run 40 (⟨fortunes, {}, ⟨1⟩, {}⟩ : Search) happyAndLoved
      Partition.empty = some ⟨.ok found, after⟩ ∧
      found.map (fun solution => solution.valueOf (.var "P" 0)) = [some "ann", some "ann", some "bob"] :=
    exists_found (by cbv)
  obtain ⟨reached, last, again, others⟩ : ∃ reached last, Search.run 40 (⟨turned, {}, ⟨1⟩, {}⟩ : Search) happyAndLoved.reverse
      Partition.empty = some ⟨.ok reached, last⟩ ∧
      reached.map (fun solution => solution.valueOf (.var "P" 0)) = [some "bob", some "ann", some "ann"] :=
    exists_found (by cbv)
  obtain ⟨matched, bindings⟩ := run_reordered (List.reverse_perm _).symm (List.reverse_perm _).symm
    (List.reverse_perm _).symm Built.nil (.of_goals old) (Nat.le_refl 1) (Nat.le_refl 1) ran again
  exact ⟨found, after, reached, last, ran, again, values, others, matched, bindings _ old⟩

end Backchain.Proofs
