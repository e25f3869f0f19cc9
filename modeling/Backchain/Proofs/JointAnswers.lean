import Backchain.Proofs.ForcedValues
import Backchain.Proofs.QueryAnswers
import Backchain.Proofs.SearchTermination

/-! Conjunctions. Each of the queries has a scope of its own, and rules take their scopes above those, so that no query
has a say in another one's proofs. A conjunction ends if its queries do, and its answers are all combinations of theirs. -/

namespace Backchain.Proofs
open Bindings

/-- A search for the query alone has ended with these bindings, one for each proof. -/
def FoundAlone (database : Database) (query : Atom) (all : List Bindings) : Prop :=
  ∃ (fuel : Nat) (search : Search) (scope : Scope) (found : List Partition) (after : Search),
    search.database = database ∧ scope < search.supply.next ∧
      search.run fuel [⟨query, scope⟩] Partition.empty = some ⟨.ok found, after⟩ ∧
      all = found.map (ofQuery ⟨query, scope⟩)

variable {database : Database} {query : Atom} {queries : List Atom} {all : List Bindings} {alone : List (List Bindings)}

/-! ### The joint search ends -/

theorem FoundAlone.exists_bound (found : FoundAlone database query all) :
    ∃ bound, ∀ assign count, Resolvable database count [(query, assign)] → count ≤ bound := by
  obtain ⟨fuel, search, scope, partitions, after, rfl, old, ran, _⟩ := found
  refine ⟨after.stats.steps, fun assign count possible => ?_⟩
  have below : ScopesBelow search.supply.next [⟨query, scope⟩] Partition.empty := .of_goals (by simpa using old)
  have within : (Valuation.ofAssign scope assign).assigned [⟨query, scope⟩] = [(query, assign)] := by
    simp only [Valuation.assigned, Valuation.ofAssign, List.map_singleton, Valuation.within_update]
  have counted := (Explores.of_run ran).resolvable_le (List.mem_singleton.mpr rfl) Built.nil below
    (Valuation.ofAssign scope assign).respects_empty (within.symm ▸ possible)
  exact (Nat.le_add_left ..).trans counted

/-- The bounds of the queries add up. -/
theorem exists_bound_zip (each : List.Forall₂ (FoundAlone database) queries alone) :
    ∃ bound, ∀ assigns count, Resolvable database count (queries.zip assigns) → count ≤ bound := by
  induction each with
  | nil =>
    refine ⟨0, fun assigns count possible => ?_⟩
    cases possible
    exact Nat.le_refl 0
  | cons first _ ih =>
    obtain ⟨here, single⟩ := first.exists_bound
    obtain ⟨later, others⟩ := ih
    refine ⟨here + later, fun assigns count possible => ?_⟩
    cases assigns with
    | nil =>
      cases possible
      exact Nat.zero_le _
    | cons assign assigns =>
      change Resolvable database count ([(_, assign)] ++ _) at possible
      obtain ⟨i, j, rfl, left, right⟩ := possible.split
      exact Nat.add_le_add (single assign i left) (others assigns j right)

/-! ### The proofs of each query -/

/-- Wherever a partition binds the query as its proof forces it to, the bindings are the given ones. -/
structure Shows (database : Database) (query : Atom) (proof : ProofForest Unit × Bindings) : Prop where
  solved : ∃ assign, Solved database [(query, assign)] proof.1
  bindings : ∀ partition scope, Forces database query proof.1 (boundIn partition scope) →
    ofQuery ⟨query, scope⟩ partition = proof.2

/-- The proofs of a query, and the bindings that are shown for them. -/
structure ListsAnswers (database : Database) (query : Atom) (answers : List (ProofForest Unit × Bindings)) : Prop where
  proofs : ListsProofs database [query] (answers.map Prod.fst)
  shown : ∀ answer ∈ answers, Shows database query answer

theorem FoundAlone.exists_answers (found : FoundAlone database query all) :
    ∃ answers, answers.map Prod.snd = all ∧ ListsAnswers database query answers := by
  obtain ⟨fuel, search, scope, partitions, after, rfl, old, ran, rfl⟩ := found
  obtain ⟨entries, rfl, valid⟩ := exists_enumerates_of_run ran
  have below : ScopesBelow search.supply.next [⟨query, scope⟩] Partition.empty := .of_goals (by simpa using old)
  have apart : ([⟨query, scope⟩].map ScopedAtom.scope).Nodup := List.nodup_singleton scope
  refine ⟨entries.map fun entry => (entry.1.erase, ofQuery ⟨query, scope⟩ entry.2), by simp, ?_, ?_⟩
  · rw [List.map_map]
    exact valid.listsProofs below apart
  · rw [List.forall_mem_map]
    intro entry member
    obtain ⟨valuation, solved⟩ := valid.exists_solved member
    have proved : ProvedEach search.database [⟨query, scope⟩] [entry.1.erase] := .cons ⟨_, solved⟩ .nil
    have forced := valid.forces below apart member proved entry.1.erase.append_done.symm
    refine ⟨⟨_, solved⟩, fun partition other forces => ?_⟩
    exact ofQuery_eq_of_boundIn (forces.eq (List.forall₂_cons.mp forced).1)

theorem exists_answers_each (each : List.Forall₂ (FoundAlone database) queries alone) :
    ∃ answers, answers.map (List.map Prod.snd) = alone ∧ List.Forall₂ (ListsAnswers database) queries answers := by
  induction each with
  | nil => exact ⟨[], rfl, .nil⟩
  | cons first _ ih =>
    obtain ⟨here, rfl, lists⟩ := first.exists_answers
    obtain ⟨later, rfl, others⟩ := ih
    exact ⟨here :: later, rfl, .cons lists others⟩

/-! ### The proofs of all queries -/

theorem shows_of_mem_selections {answers : List (List (ProofForest Unit × Bindings))}
    (each : List.Forall₂ (ListsAnswers database) queries answers) {chosen : List (ProofForest Unit × Bindings)}
    (member : chosen ∈ selections answers) : List.Forall₂ (Shows database) queries chosen := by
  rw [mem_selections] at member
  induction each generalizing chosen with
  | nil =>
    cases member
    exact .nil
  | cons first _ ih =>
    cases member with
    | cons here later => exact .cons (first.shown _ here) (ih later)

variable {goals : List ScopedAtom} {low high depth : Nat} {entries : List (ProofForest Scope × Partition)}

/-- A proof that is put together from one of each query shows the merged bindings. -/
theorem Enumerates.ofQueries_eq (valid : Enumerates database low high ⟨goals, Partition.empty, depth⟩ entries)
    (below : ScopesBelow low goals Partition.empty) (apart : (goals.map ScopedAtom.scope).Nodup)
    {entry : ProofForest Scope × Partition} (member : entry ∈ entries) {chosen : List (ProofForest Unit × Bindings)}
    (shown : List.Forall₂ (Shows database) (goals.map ScopedAtom.atom) chosen)
    (same : entry.1.erase = ProofForest.join (chosen.map Prod.fst)) :
    ofQueries goals entry.2 = mergeAll (chosen.map Prod.snd) := by
  rw [List.forall₂_map_left_iff] at shown
  have proved : ProvedEach database goals (chosen.map Prod.fst) :=
    List.forall₂_map_right_iff.mpr (shown.imp fun _ _ shown => shown.solved)
  have forced := List.forall₂_map_right_iff.mp (valid.forces below apart member proved same)
  have agree : List.Forall₂ (fun goal proof => ofQuery goal entry.2 = proof.2) goals chosen :=
    List.Forall₂.mp (fun goal proof shows forces => shows.bindings entry.2 goal.scope forces) shown forced
  have equal : goals.map (ofQuery · entry.2) = chosen.map Prod.snd := by
    rwa [← List.forall₂_eq_eq_eq, List.forall₂_map_left_iff, List.forall₂_map_right_iff]
  rw [ofQueries_eq_mergeAll, equal]

/-- The proofs of a conjunction show all combinations of what is shown for the queries. -/
theorem Enumerates.map_ofQueries (valid : Enumerates database low high ⟨goals, Partition.empty, depth⟩ entries)
    (below : ScopesBelow low goals Partition.empty) (apart : (goals.map ScopedAtom.scope).Nodup)
    (each : List.Forall₂ (FoundAlone database) (goals.map ScopedAtom.atom) alone) :
    (entries.map Prod.snd).map (ofQueries goals) = (selections alone).map mergeAll := by
  obtain ⟨answers, rfl, lists⟩ := exists_answers_each each
  have joined := ListsProofs.join (List.forall₂_map_right_iff.mpr (lists.imp fun _ _ answers => answers.proofs))
  have proofs := (valid.listsProofs below apart).eq joined
  rw [selections_map, List.map_map] at proofs ⊢
  rw [List.map_map]
  refine map_eq_map_of_forall proofs fun entry member chosen combined same => ?_
  exact valid.ofQueries_eq below apart member (shows_of_mem_selections lists combined) same

/-! ### Answers to a conjunction -/

theorem nodup_scope_goals (queries : List Atom) : ((Engine.goals queries).map ScopedAtom.scope).Nodup := by
  have scopes : (Engine.goals queries).map ScopedAtom.scope = List.range' 0 queries.length := by
    rw [Engine.goals, List.map_map]
    exact List.zipIdx_map_snd 0 queries
  rw [scopes]
  exact List.nodup_range'

theorem solve_of_run {engine : Engine} (directive : engine.database.hasAllDirective = true) {fuel more : Nat}
    {found : List Partition} {after : Search}
    (ran : (engine.search (Engine.goals queries)).run fuel (Engine.goals queries) Partition.empty =
      some ⟨.ok found, after⟩) (enough : fuel ≤ more) :
    engine.solve more queries = some (.ok [Answer.ofPartitions (Engine.goals queries) found]) := by
  have again : (engine.search (Engine.goals queries)).run more (Engine.goals queries) Partition.empty = _ :=
    Run.finish_of_le ran enough
  rw [Engine.solve, if_pos directive, Engine.conjunction, Engine.partitions, again]
  rfl

/-- The answer to a conjunction when each of its queries, asked alone, has the given bindings. -/
def combine (queries : List Atom) (alone : List (List Bindings)) : Answer :=
  if queries.all Atom.isGround then .truth (alone.all (!·.isEmpty)) else .solutions ((selections alone).map mergeAll)

theorem Enumerates.ofPartitions_eq_combine
    (valid : Enumerates database low high ⟨Engine.goals queries, Partition.empty, depth⟩ entries)
    (shown : (entries.map Prod.snd).map (ofQueries (Engine.goals queries)) = (selections alone).map mergeAll) :
    Answer.ofPartitions (Engine.goals queries) (entries.map Prod.snd) = combine queries alone := by
  cases ground : queries.all Atom.isGround with
  | false =>
    rw [valid.ofPartitions_eq_solutions ground, shown, combine, ground]
    rfl
  | true =>
    have proved : entries.map Prod.snd = [] ↔ [] ∈ alone := by
      rw [← selections_eq_nil_iff, ← List.map_eq_nil_iff, shown, List.map_eq_nil_iff]
    rw [ofPartitions_of_all_isGround ground, combine, if_pos ground, Answer.truth.injEq, Bool.eq_iff_iff]
    simp only [Bool.not_eq_true', List.isEmpty_eq_false_iff, List.all_eq_true, ne_eq, proved]
    exact ⟨fun absent found member same => absent (same ▸ member), fun proved member => proved [] member rfl⟩

/-- Under the directive, queries that have each been answered alone are answered together: true if each has a proof,
and else by all combinations of their bindings, those of the last query changing first. -/
theorem solve_eq_combine (directive : database.hasAllDirective = true)
    (each : List.Forall₂ (FoundAlone database) queries alone) :
    ∃ enough, ∀ fuel, enough ≤ fuel → Engine.solve fuel { database } queries = some (.ok [combine queries alone]) := by
  obtain ⟨bound, bounded⟩ := exists_bound_zip each
  rw [← map_atom_goals queries] at bounded each
  have ended : ∃ fuel found after, (Engine.search { database } (Engine.goals queries)).run fuel (Engine.goals queries)
      Partition.empty = some ⟨.ok found, after⟩ := exists_run_of_bound rfl bounded
  obtain ⟨fuel, found, after, ran⟩ := ended
  refine ⟨fuel, fun more enough => ?_⟩
  rw [solve_of_run directive ran enough]
  obtain ⟨entries, rfl, valid⟩ := exists_enumerates_of_run ran
  have below := scopesBelow_scopeAbove (Engine.goals queries)
  rw [valid.ofPartitions_eq_combine (valid.map_ofQueries below (nodup_scope_goals queries) each)]

/-- Whoever is a guest drinks what they like, and everyone likes tea. -/
def party : Database where
  facts := [Database.allDirective, ⟨"guest", [⟨"bob"⟩]⟩, ⟨"guest", [⟨"cal"⟩]⟩, ⟨"likes", [⟨"Anyone"⟩, ⟨"tea"⟩]⟩]
  rules := [⟨⟨"drinks", [⟨"X"⟩, ⟨"Y"⟩]⟩, [⟨"guest", [⟨"X"⟩]⟩, ⟨"likes", [⟨"X"⟩, ⟨"Y"⟩]⟩]⟩]

def partyQueries : List Atom :=
  [⟨"guest", [⟨"X"⟩]⟩, ⟨"drinks", [⟨"X"⟩, ⟨"Y"⟩]⟩, ⟨"likes", [⟨"U"⟩, ⟨"V"⟩]⟩, ⟨"guest", [⟨"bob"⟩]⟩]

theorem solve_eq_combine_party : party.hasAllDirective = true ∧
    List.Forall₂ (FoundAlone party) partyQueries [[ofList [("X", "bob")], ofList [("X", "cal")]],
      [ofList [("X", "bob"), ("Y", "tea")], ofList [("X", "cal"), ("Y", "tea")]], [ofList [("V", "tea")]], [empty]] ∧
    ∃ enough, ∀ fuel, enough ≤ fuel → Engine.solve fuel { database := party } partyQueries =
      some (.ok [.solutions [ofList [("X", "bob"), ("Y", "tea"), ("V", "tea")],
        ofList [("X", "cal"), ("Y", "tea"), ("V", "tea")], ofList [("X", "bob"), ("Y", "tea"), ("V", "tea")],
        ofList [("X", "cal"), ("Y", "tea"), ("V", "tea")]]]) := by
  have alone {query : Atom} {all : List Bindings} (ran : ((Search.run 40 (⟨party, {}, ⟨1⟩, {}⟩ : Search) [⟨query, 0⟩]
      Partition.empty).map fun outcome => outcome.result.map (List.map (ofQuery ⟨query, 0⟩))) = some (.ok all)) :
      FoundAlone party query all := by
    obtain ⟨found, after, ran, same⟩ := exists_found ran
    exact ⟨40, _, 0, found, after, rfl, Nat.zero_lt_one, ran, same.symm⟩
  have directive : party.hasAllDirective = true := by decide
  have each : List.Forall₂ (FoundAlone party) partyQueries [[ofList [("X", "bob")], ofList [("X", "cal")]],
      [ofList [("X", "bob"), ("Y", "tea")], ofList [("X", "cal"), ("Y", "tea")]], [ofList [("V", "tea")]], [empty]] := by
    refine .cons (alone ?_) (.cons (alone ?_) (.cons (alone ?_) (.cons (alone ?_) .nil))) <;> cbv
  exact ⟨directive, each, solve_eq_combine directive each⟩

end Backchain.Proofs
