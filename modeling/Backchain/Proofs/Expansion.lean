import Backchain.Proofs.Exploration
import Backchain.Proofs.ProofForest
import Mathlib.Data.List.Forall2

/-! What the expansion of a goal tries: every fact, and then every rule in a scope of its own. The candidates stand
in the order of the choices they make, and those that unify are the branches of the search. -/

namespace Backchain.Proofs

inductive Candidate where
  | fact (index : Nat) (fact : Atom)
  | rule (index : Nat) (rule : Rule) (scope : Scope)

namespace Candidate

def choice : Candidate → Choice
  | .fact index _ => .fact index
  | .rule index _ _ => .rule index

def branch (goal : ScopedAtom) (rest : List ScopedAtom) (partition : Partition) (depth : Nat) :
    Candidate → Option Branch
  | .fact _ stored => (unify ⟨stored, goal.scope⟩ goal partition).map (⟨rest, ·, depth⟩)
  | .rule _ stored scope => (unify ⟨stored.head, scope⟩ goal partition).map
      (⟨stored.body.map (⟨·, scope⟩) ++ rest, ·, depth + 1⟩)

def prove (forest : ProofForest Scope) : Candidate → ProofForest Scope
  | .fact index _ => .fact index forest
  | .rule index stored scope => .rule index scope (forest.take stored.body.length) (forest.drop stored.body.length)

theorem choices_prove (candidate : Candidate) (forest : ProofForest Scope) :
    (candidate.prove forest).choices = candidate.choice :: forest.choices := by
  cases candidate with
  | fact index stored => rfl
  | rule index stored scope =>
    rw [prove, ProofForest.choices, ← ProofForest.choices_append, ProofForest.append_take_drop, choice]

end Candidate

/-- The rules take the scopes from the first one on. -/
def candidates (database : Database) (first : Scope) : List Candidate :=
  database.facts.zipIdx.map (fun (fact, index) => .fact index fact) ++
    database.rules.zipIdx.map fun (rule, index) => .rule index rule (first + index)

/-- The rules with the scopes that they take when the next goal is expanded. -/
def instances (search : Search) : List (Rule × Scope) :=
  search.database.rules.zip (ScopeSource.draw search.database.rules.length search.supply).1

variable {database : Database} {first : Scope}

theorem instances_eq (search : Search) : instances search =
    search.database.rules.zipIdx.map fun (rule, index) => (rule, search.supply.next + index) := by
  rw [instances, ScopeSupply.draw_eq, ← List.zipIdx_eq_zip_range', List.zipIdx_eq_map_add]

theorem getElem?_instances {search : Search} {index : Nat} {rule : Rule} {scope : Scope} :
    (instances search)[index]? = some (rule, scope) ↔
      search.database.rules[index]? = some rule ∧ scope = search.supply.next + index := by
  rw [instances_eq, List.getElem?_map, List.getElem?_zipIdx]
  cases search.database.rules[index]? <;> simp [eq_comm]

/-- Rules at the same place take scopes at the same place. -/
theorem forall₂_instances {search other : Search} {related : Rule × Scope → Rule × Scope → Prop}
    (size : search.database.rules.length = other.database.rules.length)
    (each : ∀ (index : Nat) rule rule', search.database.rules[index]? = some rule →
      other.database.rules[index]? = some rule' → related (rule, search.supply.next + index) (rule', other.supply.next + index)) :
    List.Forall₂ related (instances search) (instances other) := by
  apply List.forall₂_iff_get.mpr
  refine ⟨by simpa [instances_eq] using size, ?_⟩
  intro index here there
  obtain ⟨first, own⟩ := getElem?_instances.mp (List.getElem?_eq_getElem here)
  obtain ⟨second, others⟩ := getElem?_instances.mp (List.getElem?_eq_getElem there)
  have holds := each index _ _ first second
  rwa [← own, ← others] at holds

theorem expand_eq_candidates (search : Search) (goal : ScopedAtom) (rest : List ScopedAtom) (partition : Partition)
    (depth : Nat) : (search.expand goal rest partition depth).1 =
      (candidates search.database search.supply.next).filterMap (Candidate.branch goal rest partition depth) := by
  have facts : search.database.facts = search.database.facts.zipIdx.map Prod.fst := by simp
  have rules := instances_eq search
  rw [instances, ScopeSupply.draw_eq] at rules
  rw [candidates, List.filterMap_append, List.filterMap_map, List.filterMap_map]
  simp only [Search.expand, Search.factBranches, Search.ruleBranches, ScopeSupply.draw_eq, rules]
  congr 1
  · conv_lhs => rw [facts]
    rw [List.filterMap_map]
    rfl
  · rw [List.filterMap_map]
    apply List.filterMap_congr
    rintro ⟨rule, index⟩ _
    simp only [Function.comp_apply, Rule.apply, Candidate.branch, Option.map_map]
    rfl

theorem fact_mem_candidates {index : Nat} {fact : Atom} :
    .fact index fact ∈ candidates database first ↔ database.facts[index]? = some fact := by
  simp [candidates, List.mem_zipIdx_iff_getElem?]

theorem rule_mem_candidates {index : Nat} {rule : Rule} {scope : Scope} :
    .rule index rule scope ∈ candidates database first ↔
      database.rules[index]? = some rule ∧ scope = first + index := by
  simp only [candidates, List.mem_append, List.mem_map, Prod.exists, List.mk_mem_zipIdx_iff_getElem?]
  constructor
  · rintro (⟨_, _, _, impossible⟩ | ⟨stored, position, here, same⟩)
    · cases impossible
    · cases same
      exact ⟨here, rfl⟩
  · rintro ⟨here, rfl⟩
    exact Or.inr ⟨rule, index, here, rfl⟩

theorem candidates_ordered (database : Database) (first : Scope) :
    (candidates database first).Pairwise fun a b => a.choice.Before b.choice := by
  have increasing {α : Type} (items : List α) : items.zipIdx.Pairwise fun a b => a.2 < b.2 := by
    rw [← List.pairwise_map, List.zipIdx_map_snd]
    exact List.pairwise_lt_range'
  refine List.pairwise_append.mpr ⟨?_, ?_, ?_⟩
  · exact List.pairwise_map.mpr (increasing database.facts)
  · exact List.pairwise_map.mpr (increasing database.rules)
  · intro fact fromFacts rule fromRules
    obtain ⟨_, _, rfl⟩ := List.mem_map.mp fromFacts
    obtain ⟨_, _, rfl⟩ := List.mem_map.mp fromRules
    exact trivial

/-- Whatever belongs to the branches that were started can be assigned to the candidates that started them. -/
theorem assign_to_candidates {ι β γ : Type} {started : ι → Option β} {belongs : β → List γ → Prop} {items : List ι}
    {groups : List (List γ)} (distinct : items.Nodup) (all : List.Forall₂ belongs (items.filterMap started) groups) :
    ∃ group : ι → List γ, groups.flatten = items.flatMap group ∧
      ∀ item ∈ items, (∀ branch, started item = some branch → belongs branch (group item)) ∧
        (started item = none → group item = []) := by
  classical
  induction items generalizing groups with
  | nil =>
    cases all
    exact ⟨fun _ => [], rfl, by simp⟩
  | cons item items ih =>
    obtain ⟨absent, distinct⟩ := List.nodup_cons.mp distinct
    -- The group of the first candidate is set after the others have theirs.
    have assign {own : List γ} {others : List (List γ)} (rest : List.Forall₂ belongs (items.filterMap started) others)
        (here : (∀ branch, started item = some branch → belongs branch own) ∧ (started item = none → own = [])) :
        ∃ group : ι → List γ, own ++ others.flatten = (item :: items).flatMap group ∧
          ∀ other ∈ item :: items, (∀ branch, started other = some branch → belongs branch (group other)) ∧
            (started other = none → group other = []) := by
      obtain ⟨group, joined, valid⟩ := ih distinct rest
      have kept {other : ι} (member : other ∈ items) : Function.update group item own other = group other :=
        Function.update_of_ne (fun same : other = item => absent (same ▸ member)) own group
      refine ⟨Function.update group item own, ?_, List.forall_mem_cons.mpr ⟨?_, ?_⟩⟩
      · rw [List.flatMap_cons, Function.update_self, joined, List.flatMap_congr fun other member => kept member]
      · simpa only [Function.update_self] using here
      · intro other member
        simpa only [kept member] using valid other member
    cases begun : started item with
    | none =>
      rw [List.filterMap_cons_none begun] at all
      simpa using assign all ⟨by simp [begun], fun _ => rfl⟩
    | some branch =>
      rw [List.filterMap_cons_some begun] at all
      cases all with
      | cons own others => exact assign others ⟨by simpa [begun] using own, by simp [begun]⟩

end Backchain.Proofs
