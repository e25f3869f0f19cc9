import Backchain.Proofs.SearchEnumeration

/-! A run finds one solution for every proof of its goals, in the order of the proofs' choices. Which proofs there are
does not depend on a search: a proof is valid if its equations can be added to those that the run started from. -/

namespace Backchain.Proofs

/-- Every rule of the proofs has a scope of its own, which occurs neither in the goals nor in the partition. -/
structure OwnScopes (goals : List ScopedAtom) (partition : Partition) (forest : ProofForest Scope) : Prop where
  once : forest.labels.Nodup
  goals : ∀ goal ∈ goals, goal.scope ∉ forest.labels
  partition : ∀ name scope, partition.contains (.var name scope) = true → scope ∉ forest.labels

/-- Names, arities and variables fit at every goal, and no two constants are equated when all equations of the
proofs are added to the history. -/
def ValidFrom (database : Database) (history : List (Key × Key)) (goals : List ScopedAtom)
    (forest : ProofForest Scope) : Prop :=
  ∃ needed, Proves database goals forest needed ∧ Consistent (history ++ needed)

section
variable {database : Database} {low high : Nat} {goals : List ScopedAtom} {history : List (Key × Key)}
  {start : Partition} {depth : Nat} {forest other : ProofForest Scope}
  {entries : List (ProofForest Scope × Partition)}

theorem ValidFrom.exists_solved (valid : ValidFrom database history goals forest) :
    ∃ valuation : Valuation, valuation.Satisfies history ∧ Solved database (valuation.assigned goals) forest.erase := by
  obtain ⟨needed, proves, consistent⟩ := valid
  obtain ⟨valuation, satisfied⟩ := consistent_iff_satisfiable.mp consistent
  obtain ⟨old, new⟩ := Valuation.Satisfies.append_iff.mp satisfied
  exact ⟨valuation, old, proves.solved new⟩

theorem OwnScopes.validFrom (own : OwnScopes goals start forest) (built : Built history start) {valuation : Valuation}
    (satisfied : valuation.Satisfies history) (solved : Solved database (valuation.assigned goals) forest.erase) :
    ValidFrom database history goals forest := by
  obtain ⟨needed, extended, proves, new, agree⟩ := solved.exists_proves own.once own.goals
  have old : extended.Satisfies history := agree.satisfies satisfied fun name scope mentioned =>
    own.partition name scope ((built.represents.contains_iff _).mpr mentioned)
  exact ⟨needed, proves, (Valuation.Satisfies.append_iff.mpr ⟨old, new⟩).consistent⟩

/-- Which scopes tell the rules of a proof apart is of no importance. -/
theorem OwnScopes.validFrom_of_erase_eq (own : OwnScopes goals start forest) (built : Built history start)
    (valid : ValidFrom database history goals other) (same : other.erase = forest.erase) :
    ValidFrom database history goals forest := by
  obtain ⟨valuation, satisfied, solved⟩ := valid.exists_solved
  exact own.validFrom built satisfied (same ▸ solved)

namespace Enumerates

theorem ownScopes (valid : Enumerates database low high ⟨goals, start, depth⟩ entries)
    (below : ScopesBelow low goals start) {entry : ProofForest Scope × Partition} (member : entry ∈ entries) :
    OwnScopes goals start entry.1 where
  once := valid.once entry member
  goals goal inside label := Nat.not_le_of_lt (below.goals goal inside) (valid.drawn entry member _ label).1
  partition name scope inside label :=
    Nat.not_le_of_lt (below.partition name scope inside) (valid.drawn entry member _ label).1

theorem validFrom (valid : Enumerates database low high ⟨goals, start, depth⟩ entries) (built : Built history start)
    {entry : ProofForest Scope × Partition} (member : entry ∈ entries) : ValidFrom database history goals entry.1 := by
  obtain ⟨needed, proves, finished⟩ := valid.sound history built entry member
  exact ⟨needed, proves, finished.represents.consistent⟩

theorem mem_erase_iff (valid : Enumerates database low high ⟨goals, start, depth⟩ entries) (built : Built history start)
    (below : ScopesBelow low goals start) (own : OwnScopes goals start forest) :
    forest.erase ∈ entries.map (·.1.erase) ↔ ValidFrom database history goals forest := by
  rw [List.mem_map]
  constructor
  · rintro ⟨entry, member, same⟩
    exact own.validFrom_of_erase_eq built (valid.validFrom built member) same
  · intro proved
    obtain ⟨valuation, satisfied, solved⟩ := proved.exists_solved
    obtain ⟨entry, member, same, _⟩ :=
      valid.complete history built below valuation (built.respects_iff.mpr satisfied) forest.erase solved
    exact ⟨entry, member, same⟩

theorem erase_ordered (valid : Enumerates database low high ⟨goals, start, depth⟩ entries) :
    (entries.map (·.1.erase)).Pairwise ProofForest.Before := by
  refine List.pairwise_map.mpr (valid.ordered.imp fun before => ?_)
  simpa only [ProofForest.Before, ProofForest.choices_erase] using before

theorem erase_nodup (valid : Enumerates database low high ⟨goals, start, depth⟩ entries) :
    (entries.map (·.1.erase)).Nodup := by
  refine valid.erase_ordered.imp ?_
  rintro first second before rfl
  exact first.before_irrefl before

end Enumerates
end

variable {search after : Search} {fuel : Nat} {goals : List ScopedAtom} {history : List (Key × Key)}
  {start : Partition} {found : List Partition}

/-- The solutions of a run whose rules take scopes above those in use correspond one by one to the valid proofs of
its goals, sorted by their choices. The partition of a solution is the closure of what the run started from and of
the equations of the proof. -/
theorem run_enumerates_proofs (built : Built history start) (below : ScopesBelow search.supply.next goals start)
    (ran : search.run fuel goals start = some ⟨.ok found, after⟩) :
    ∃ proofs : List (ProofForest Unit), proofs.Nodup ∧ proofs.Pairwise ProofForest.Before ∧
      (∀ forest : ProofForest Scope, OwnScopes goals start forest →
        (forest.erase ∈ proofs ↔ ValidFrom search.database history goals forest)) ∧
      List.Forall₂ (fun proof solution => ∃ forest needed, forest.erase = proof ∧ OwnScopes goals start forest ∧
        Proves search.database goals forest needed ∧ Built (history ++ needed) solution) proofs found := by
  obtain ⟨entries, rfl, valid⟩ := exists_enumerates_of_run ran
  refine ⟨entries.map (·.1.erase), ?_, valid.erase_ordered, fun forest own => valid.mem_erase_iff built below own, ?_⟩
  · refine valid.erase_ordered.imp ?_
    rintro first second before rfl
    exact ProofForest.before_irrefl _ before
  · refine List.forall₂_map_left_iff.mpr (List.forall₂_map_right_iff.mpr (List.forall₂_same.mpr ?_))
    intro entry member
    obtain ⟨needed, proves, finished⟩ := valid.sound history built entry member
    exact ⟨entry.1, needed, rfl, valid.ownScopes below member, proves, finished⟩

/-- Everyone knows, by a fact with a variable, and some know from others. -/
def gossip : Database where
  facts := [⟨"knows", [⟨"ann"⟩]⟩, ⟨"knows", [⟨"Z"⟩]⟩, ⟨"told", [⟨"ann"⟩, ⟨"bob"⟩]⟩]
  rules := [⟨⟨"knows", [⟨"Y"⟩]⟩, [⟨"told", [⟨"X"⟩, ⟨"Y"⟩]⟩, ⟨"knows", [⟨"X"⟩]⟩]⟩]

theorem run_enumerates_proofs_gossip : ScopesBelow 1 [⟨⟨"knows", [⟨"bob"⟩]⟩, 0⟩] Partition.empty ∧
    ∃ found after, Search.run 30 (⟨gossip, {}, ⟨1⟩, {}⟩ : Search) [⟨⟨"knows", [⟨"bob"⟩]⟩, 0⟩] Partition.empty =
        some ⟨.ok found, after⟩ ∧
      ∃ proofs : List (ProofForest Unit), proofs.length = 3 ∧ proofs.Nodup ∧ proofs.Pairwise ProofForest.Before ∧
        ∀ forest : ProofForest Scope, OwnScopes [⟨⟨"knows", [⟨"bob"⟩]⟩, 0⟩] Partition.empty forest →
          (forest.erase ∈ proofs ↔ ValidFrom gossip [] [⟨⟨"knows", [⟨"bob"⟩]⟩, 0⟩] forest) := by
  have below : ScopesBelow 1 [⟨⟨"knows", [⟨"bob"⟩]⟩, 0⟩] Partition.empty := by
    constructor
    · simp
    · simp [Partition.empty, Partition.contains, Partition.slot?]
  obtain ⟨found, after, ran, three⟩ : ∃ found after, Search.run 30 (⟨gossip, {}, ⟨1⟩, {}⟩ : Search)
      [⟨⟨"knows", [⟨"bob"⟩]⟩, 0⟩] Partition.empty = some ⟨.ok found, after⟩ ∧ found.length = 3 :=
    exists_found (by cbv)
  obtain ⟨proofs, once, ordered, complete, paired⟩ := run_enumerates_proofs Built.nil below ran
  exact ⟨below, found, after, ran, proofs, paired.length_eq.trans three, once, ordered, complete⟩

end Backchain.Proofs
