import Backchain.Proofs.ProofEnumeration
import Backchain.Proofs.ProofProducts
import Backchain.Proofs.SearchModel
import Backchain.Proofs.SolutionBindings
import Mathlib.Data.Fintype.EquivFin

/-! What a solution binds. A variable of a query is bound to a constant exactly when the proof leaves it no other, which
does not depend on scopes, on the partition or on what else is proved. -/

namespace Backchain.Proofs

theorem Built.valueOf_eq_some_iff {history : List (Key × Key)} {partition : Partition} (built : Built history partition)
    {key : Key} {name : String} :
    partition.valueOf key = some name ↔ ∀ valuation : Valuation, valuation.Respects partition → valuation key = name := by
  rw [built.represents.valueOf_eq_some_iff]
  constructor
  · intro linked valuation respects
    exact ((built.respects_iff.mp respects).same_value linked).trans (valuation.constant name)
  · intro forced
    by_contra free
    -- The class has no other constant either, and can be given one that differs.
    obtain ⟨other, different⟩ := exists_ne name
    obtain ⟨valuation, satisfied, unbound⟩ := built.represents.consistent.satisfiable other
    have value := forced valuation (built.respects_iff.mpr satisfied)
    refine different ((unbound key fun constant linked => free ?_).symm.trans value)
    have same := (satisfied.same_value linked).symm.trans value
    rw [valuation.constant] at same
    exact same ▸ linked

variable {database : Database} {goals : List ScopedAtom}

theorem exists_assigned (apart : (goals.map ScopedAtom.scope).Nodup) {assigns : List (String → String)}
    (size : assigns.length = goals.length) :
    ∃ valuation : Valuation, valuation.assigned goals = (goals.map ScopedAtom.atom).zip assigns := by
  induction goals generalizing assigns with
  | nil => exact ⟨⟨Key.name, fun _ => rfl⟩, rfl⟩
  | cons goal goals ih =>
    obtain ⟨assign, assigns, rfl⟩ := List.exists_cons_of_length_eq_add_one size
    obtain ⟨absent, apart⟩ := List.nodup_cons.mp apart
    obtain ⟨valuation, assigned⟩ := ih apart (Nat.succ.inj size)
    have others := (valuation.agree_update goal.scope assign).assigned_eq fun other member same =>
      absent (List.mem_map.mpr ⟨other, member, same⟩)
    refine ⟨valuation.update goal.scope assign, ?_⟩
    rw [List.map_cons, List.zip_cons_cons, ← assigned, ← others]
    simp only [Valuation.assigned, List.map_cons, Valuation.within_update]

namespace Enumerates
variable {low high : Nat} {depth : Nat} {entries : List (ProofForest Scope × Partition)}
  {entry : ProofForest Scope × Partition}

theorem exists_solved (valid : Enumerates database low high ⟨goals, Partition.empty, depth⟩ entries)
    (member : entry ∈ entries) : ∃ valuation : Valuation, Solved database (valuation.assigned goals) entry.1.erase := by
  obtain ⟨needed, proves, finished⟩ := valid.sound [] Built.nil entry member
  obtain ⟨valuation, satisfied⟩ := consistent_iff_satisfiable.mp finished.represents.consistent
  exact ⟨valuation, proves.solved satisfied⟩

theorem listsProofs (valid : Enumerates database low high ⟨goals, Partition.empty, depth⟩ entries)
    (below : ScopesBelow low goals Partition.empty) (apart : (goals.map ScopedAtom.scope).Nodup) :
    ListsProofs database (goals.map ScopedAtom.atom) (entries.map (·.1.erase)) where
  ordered := valid.erase_ordered
  complete forest := by
    rw [List.mem_map]
    constructor
    · rintro ⟨entry, member, rfl⟩
      obtain ⟨valuation, solved⟩ := valid.exists_solved member
      rw [Valuation.assigned_eq_zip] at solved
      exact ⟨_, by simp only [List.length_map], solved⟩
    · rintro ⟨assigns, size, solved⟩
      obtain ⟨valuation, assigned⟩ := exists_assigned apart (size.trans (List.length_map _))
      obtain ⟨entry, member, same, _⟩ := valid.complete [] Built.nil below valuation valuation.respects_empty forest
        (assigned.symm ▸ solved)
      exact ⟨entry, member, same⟩

/-- The constants that a solution allows are those under which its proof proves the goals. -/
theorem valueOf_eq_some_iff (valid : Enumerates database low high ⟨goals, Partition.empty, depth⟩ entries)
    (below : ScopesBelow low goals Partition.empty) (member : entry ∈ entries) {scope : Scope} (old : scope < low)
    {name value : String} :
    entry.2.valueOf (.var name scope) = some value ↔ ∀ valuation : Valuation,
      Solved database (valuation.assigned goals) entry.1.erase → valuation (.var name scope) = value := by
  obtain ⟨needed, proves, finished⟩ := valid.sound [] Built.nil entry member
  rw [finished.valueOf_eq_some_iff]
  constructor
  · intro forced valuation solved
    obtain ⟨found, inside, same, extended, agree, respects⟩ :=
      valid.complete [] Built.nil below valuation valuation.respects_empty _ solved
    obtain rfl := List.inj_on_of_nodup_map valid.erase_nodup inside member same
    exact (agree name scope (Nat.not_le_of_lt old)).symm.trans (forced extended respects)
  · intro forced valuation respects
    exact forced valuation (proves.solved (finished.respects_iff.mp respects))

end Enumerates

/-! ### Proofs side by side -/

/-- The value of a name is the constant that it has whenever the forest proves the query. -/
def Forces (database : Database) (query : Atom) (forest : ProofForest Unit) (value : String → Option String) : Prop :=
  ∀ name constant, value name = some constant ↔
    ∀ assign, Solved database [(query, assign)] forest → assign name = constant

theorem Forces.eq {query : Atom} {forest : ProofForest Unit} {value other : String → Option String}
    (forces : Forces database query forest value) (again : Forces database query forest other) : value = other := by
  funext name
  apply Option.ext
  intro constant
  rw [forces, again]

/-- The forests prove the goals, each on its own. -/
def ProvedEach (database : Database) (goals : List ScopedAtom) (forests : List (ProofForest Unit)) : Prop :=
  List.Forall₂ (fun goal forest => ∃ assign, Solved database [(goal.atom, assign)] forest) goals forests

variable {forests : List (ProofForest Unit)} {valuation : Valuation}

theorem ProvedEach.solved_join_iff (each : ProvedEach database goals forests) :
    Solved database (valuation.assigned goals) (ProofForest.join forests) ↔
      List.Forall₂ (fun goal forest => Solved database [(goal.atom, valuation.within goal.scope)] forest) goals forests := by
  induction each with
  | nil => exact iff_of_true .done .nil
  | @cons goal forest goals forests first _ ih =>
    obtain ⟨assign, solved⟩ := first
    have size : 1 = forest.size := solved.size_eq.symm
    rw [List.forall₂_cons, ← ih]
    constructor
    · intro together
      change Solved database ([(goal.atom, valuation.within goal.scope)] ++ valuation.assigned goals)
        (forest.append (ProofForest.join forests)) at together
      obtain ⟨front, back⟩ := together.split
      rw [List.length_singleton, size] at front back
      rw [ProofForest.take_append] at front
      rw [ProofForest.drop_append] at back
      exact ⟨front, back⟩
    · rintro ⟨front, back⟩
      exact front.append back

/-- Goals in scopes of their own are bound by their own proofs alone. -/
theorem Enumerates.forces {low high depth : Nat} {entries : List (ProofForest Scope × Partition)}
    {entry : ProofForest Scope × Partition}
    (valid : Enumerates database low high ⟨goals, Partition.empty, depth⟩ entries)
    (below : ScopesBelow low goals Partition.empty) (apart : (goals.map ScopedAtom.scope).Nodup)
    (member : entry ∈ entries) (each : ProvedEach database goals forests)
    (same : entry.1.erase = ProofForest.join forests) :
    List.Forall₂ (fun goal forest => Forces database goal.atom forest (boundIn entry.2 goal.scope)) goals forests := by
  refine List.forall₂_iff_get.mpr ⟨each.length_eq, fun i inside present name constant => ?_⟩
  rw [boundIn, valid.valueOf_eq_some_iff below member (below.goals _ (List.get_mem ..)), same]
  simp only [each.solved_join_iff]
  constructor
  · intro forced assign solved
    obtain ⟨valuation, together⟩ := valid.exists_solved member
    rw [same, each.solved_join_iff] at together
    have agree := valuation.agree_update (goals.get ⟨i, inside⟩).scope assign
    have moved := forced (valuation.update (goals.get ⟨i, inside⟩).scope assign) ?_
    · rwa [← Valuation.within, Valuation.within_update] at moved
    · refine List.forall₂_iff_get.mpr ⟨each.length_eq, fun j other later => ?_⟩
      by_cases here : j = i
      · subst here
        rwa [Valuation.within_update]
      · have different : (goals.get ⟨j, other⟩).scope ≠ (goals.get ⟨i, inside⟩).scope := by
          intro shared
          refine here ((List.getElem?_inj (by rwa [List.length_map]) apart).mp ?_)
          simpa [other, inside] using shared
        rw [agree.within_eq different]
        exact (List.forall₂_iff_get.mp together).2 j other later
  · intro forced valuation together
    exact forced _ ((List.forall₂_iff_get.mp together).2 i inside present)

end Backchain.Proofs
