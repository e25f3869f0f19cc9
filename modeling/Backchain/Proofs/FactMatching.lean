import Backchain.Proofs.ProvenQueries
import Backchain.Proofs.SearchTermination

/-! Queries over ground facts alone. Without rules there is nothing to search: a query is held against one fact after the
other, and its variables stand for the arguments that they face. -/

namespace Backchain.Proofs
open Bindings

/-! ### Matching -/

/-- The fact has the query's predicate and arity, its constants, and the same argument wherever a variable is repeated. -/
structure Covers (query fact : Atom) : Prop where
  predicate : fact.predicate = query.predicate
  arity : fact.arity = query.arity
  constants : ∀ facing ∈ fact.arguments.zip query.arguments, facing.2.isVariable = false → facing.1 = facing.2
  repeated : ∀ facing ∈ fact.arguments.zip query.arguments, ∀ other ∈ fact.arguments.zip query.arguments,
    facing.2.isVariable = true → facing.2 = other.2 → facing.1 = other.1

instance (query fact : Atom) : Decidable (Covers query fact) :=
  decidable_of_iff (fact.predicate = query.predicate ∧ fact.arity = query.arity ∧
      (∀ facing ∈ fact.arguments.zip query.arguments, facing.2.isVariable = false → facing.1 = facing.2) ∧
      ∀ facing ∈ fact.arguments.zip query.arguments, ∀ other ∈ fact.arguments.zip query.arguments,
        facing.2.isVariable = true → facing.2 = other.2 → facing.1 = other.1)
    ⟨fun ⟨predicate, arity, constants, repeated⟩ => ⟨predicate, arity, constants, repeated⟩,
      fun covers => ⟨covers.predicate, covers.arity, covers.constants, covers.repeated⟩⟩

/-- The text of the fact's argument at the first place that the term has in the query. -/
def argumentAt (query fact : Atom) (term : Term) : String :=
  fact.arguments[query.arguments.idxOf term]?.elim "" Term.text

variable {query fact : Atom} {facts : List Atom} {scope : Scope} {after : Partition}

theorem isVariable_eq_false_of_mem_zip (ground : fact.isGround = true) {facing : Term × Term}
    (member : facing ∈ fact.arguments.zip query.arguments) : facing.1.isVariable = false := by
  have constant := List.all_eq_true.mp ground facing.1 (List.of_mem_zip member).1
  simpa [Term.isConstant] using constant

theorem exists_facing (arity : fact.arity = query.arity) {term : Term} (member : term ∈ query.arguments) :
    ∃ argument, (argument, term) ∈ fact.arguments.zip query.arguments ∧ argumentAt query fact term = argument.text := by
  have place := List.idxOf_lt_length_of_mem member
  have inside : query.arguments.idxOf term < fact.arguments.length := by
    rwa [show fact.arguments.length = query.arguments.length from arity]
  refine ⟨fact.arguments[query.arguments.idxOf term], ?_, ?_⟩
  · apply List.mem_of_getElem? (i := query.arguments.idxOf term)
    rw [List.getElem?_zip_eq_some]
    exact ⟨List.getElem?_eq_getElem inside, by rw [List.getElem?_eq_getElem place, List.getElem_idxOf]⟩
  · rw [argumentAt, List.getElem?_eq_getElem inside]
    rfl

theorem Term.eq_of_text_eq {first second : Term} (same : first.text = second.text) : first = second := by
  cases first
  cases second
  cases same
  rfl

/-- A query without variables covers itself alone. -/
theorem covers_iff_eq (ground : query.isGround = true) : Covers query fact ↔ fact = query := by
  constructor
  · intro covers
    have arguments : fact.arguments = query.arguments := by
      rw [← List.map_id fact.arguments, ← List.map_id query.arguments, map_eq_map_iff_zip]
      refine ⟨covers.arity, fun facing member => ?_⟩
      have constant := List.all_eq_true.mp ground facing.2 (List.of_mem_zip member).2
      exact covers.constants facing member (by simpa [Term.isConstant] using constant)
    cases fact
    cases query
    cases arguments
    cases covers.predicate
    rfl
  · intro same
    subst same
    have equal (facing : Term × Term) (member : facing ∈ fact.arguments.zip fact.arguments) : facing.1 = facing.2 :=
      List.forall₂_iff_zip.mp (List.forall₂_refl fact.arguments) |>.2 member
    exact ⟨rfl, rfl, fun facing member _ => equal facing member, fun facing member other present _ same =>
      (equal facing member).trans (same.trans (equal other present).symm)⟩

/-- Covering a ground fact is having it as an instance. -/
theorem covers_of_instantiate_eq (ground : fact.isGround = true) {assign : String → String}
    (same : instantiate assign fact = instantiate assign query) : Covers query fact := by
  obtain ⟨predicate, arity⟩ := predicate_and_arity_of_instantiate_eq same
  have faces (facing : Term × Term) (member : facing ∈ fact.arguments.zip query.arguments) :
      facing.1.text = if facing.2.isVariable then assign facing.2.text else facing.2.text := by
    have equal := ((map_eq_map_iff_zip _ _ _).mp (GroundAtom.mk.inj same).2).2 facing member
    rwa [if_neg (by simp [isVariable_eq_false_of_mem_zip ground member])] at equal
  refine ⟨predicate, arity, ?_, ?_⟩
  · intro facing member constant
    have equal := faces facing member
    rw [if_neg (by simp [constant])] at equal
    exact Term.eq_of_text_eq equal
  · intro facing member other present free shared
    have first := faces facing member
    have second := faces other present
    rw [if_pos free, shared] at first
    rw [if_pos (shared ▸ free)] at second
    exact Term.eq_of_text_eq (first.trans second.symm)

theorem Covers.instantiate_eq (covers : Covers query fact) (ground : fact.isGround = true) :
    instantiate (fun name => argumentAt query fact ⟨name⟩) fact =
      instantiate (fun name => argumentAt query fact ⟨name⟩) query := by
  rw [instantiate, instantiate, GroundAtom.mk.injEq, map_eq_map_iff_zip]
  refine ⟨covers.predicate, covers.arity, fun facing member => ?_⟩
  rw [if_neg (by simp [isVariable_eq_false_of_mem_zip ground member])]
  split
  next free =>
    obtain ⟨argument, faces, text⟩ := exists_facing covers.arity (List.of_mem_zip member).2
    rw [text, covers.repeated facing member _ faces free rfl]
  next constant => rw [covers.constants facing member (by simpa using constant)]

/-! ### Unification with a ground fact -/

theorem apart_of_isGround (ground : fact.isGround = true) (query : Atom) : Apart fact query := by
  intro facing member free
  simp [isVariable_eq_false_of_mem_zip ground member] at free

theorem Covers.exists_unify (covers : Covers query fact) (ground : fact.isGround = true) (scope : Scope) :
    ∃ after, unify ⟨fact, scope⟩ ⟨query, scope⟩ Partition.empty = some after := by
  let valuation := Valuation.ofAssign scope fun name => argumentAt query fact ⟨name⟩
  have same := covers.instantiate_eq ground
  have equal : valuation.ground ⟨fact, scope⟩ = valuation.ground ⟨query, scope⟩ := by
    rw [Valuation.ground_ofAssign, Valuation.ground_ofAssign, same]
  obtain ⟨after, unified, _⟩ := Built.nil.unify_of_ground_eq valuation.respects_empty
    (Matches.of_apart (apart_of_isGround ground query) same) equal
  exact ⟨after, unified⟩

theorem covers_of_unify (ground : fact.isGround = true)
    (unified : unify ⟨fact, scope⟩ ⟨query, scope⟩ Partition.empty = some after) : Covers query fact := by
  obtain ⟨fits, finished⟩ := Built.nil.of_unify unified
  obtain ⟨valuation, satisfied⟩ := consistent_iff_satisfiable.mp finished.represents.consistent
  have same := fits.ground_eq satisfied
  rw [Valuation.ground_eq, Valuation.ground_eq] at same
  exact covers_of_instantiate_eq ground same

/-- A variable of the query is bound to the argument that it faces. -/
theorem entries_of_unify (ground : fact.isGround = true)
    (unified : unify ⟨fact, scope⟩ ⟨query, scope⟩ Partition.empty = some after) :
    (ofQuery ⟨query, scope⟩ after).entries = query.vars.map fun term => (term.text, argumentAt query fact term) := by
  obtain ⟨fits, finished⟩ := Built.nil.of_unify unified
  let assign name := argumentAt query fact ⟨name⟩
  have bound (term : Term) (occurs : term ∈ query.vars) :
      after.valueOf (Key.ofTerm scope term) = some (assign term.text) := by
    obtain ⟨argument, faces, text⟩ := exists_facing fits.arity (mem_vars.mp occurs).1
    have constant : Key.ofTerm scope argument = .const argument.text :=
      if_neg (by simp [isVariable_eq_false_of_mem_zip ground faces])
    have equated : (Key.ofTerm scope argument, Key.ofTerm scope term) ∈ equations ⟨fact, scope⟩ ⟨query, scope⟩ := by
      rw [equations, ScopedAtom.keys, ScopedAtom.keys, List.zip_map]
      exact List.mem_map_of_mem (f := Prod.map (Key.ofTerm scope) (Key.ofTerm scope)) faces
    change after.valueOf (Key.ofTerm scope term) = some (argumentAt query fact term)
    rw [text, finished.represents.valueOf_eq_some_iff, ← constant]
    exact (Linked.of_mem equated).symm
  exact entries_ofQuery bound

/-! ### Searching facts alone -/

theorem finish_solutions (search : Search) (partitions found : List Partition) (depth : Nat) {fuel : Nat}
    (enough : partitions.length < fuel) :
    ∃ after, Run.finish fuel ⟨search, partitions.map (⟨[], ·, depth⟩), found⟩ =
      some ⟨.ok (found.reverse ++ partitions), after⟩ := by
  obtain ⟨fuel, rfl⟩ := Nat.exists_eq_add_one_of_ne_zero (show fuel ≠ 0 by omega)
  induction partitions generalizing search found fuel with
  | nil => exact ⟨search, by rw [List.append_nil]; rfl⟩
  | cons partition partitions ih =>
    rw [List.length_cons] at enough
    obtain ⟨fuel, rfl⟩ := Nat.exists_eq_add_one_of_ne_zero (show fuel ≠ 0 by omega)
    obtain ⟨after, ended⟩ := ih search.countSolution (partition :: found) fuel (by omega)
    refine ⟨after, ?_⟩
    rw [List.reverse_cons, List.append_assoc] at ended
    exact ended

/-- One step for the goal, one for each fact that unifies, and one to end. -/
theorem run_of_facts {search : Search} (unruled : search.database.rules = []) (free : search.limits = .unbounded)
    (goal : ScopedAtom) (start : Partition) {fuel : Nat} (enough : search.database.facts.length + 2 ≤ fuel) :
    ∃ after, search.run fuel [goal] start =
      some ⟨.ok (search.database.facts.filterMap fun fact => unify ⟨fact, goal.scope⟩ goal start), after⟩ := by
  obtain ⟨counted, entered, _⟩ := exists_enter_of_unbounded free 0
  have kept : counted.database = search.database := (enter_keeps entered).1
  have children : (counted.expand goal [] start 0).1 =
      (search.database.facts.filterMap fun fact => unify ⟨fact, goal.scope⟩ goal start).map (⟨[], ·, 0⟩) := by
    simp [Search.expand, Search.factBranches, Search.ruleBranches, kept, unruled, List.map_filterMap]
  obtain ⟨fuel, rfl⟩ := Nat.exists_eq_add_one_of_ne_zero (show fuel ≠ 0 by omega)
  have fewer := List.length_filterMap_le (fun fact => unify ⟨fact, goal.scope⟩ goal start) search.database.facts
  obtain ⟨after, ended⟩ := finish_solutions (counted.expand goal [] start 0).2 _ [] 0
    (Nat.lt_of_le_of_lt fewer (show search.database.facts.length < fuel by omega))
  refine ⟨after, ?_⟩
  rw [← children] at ended
  simp only [Search.run, Search.start, Run.finish, Run.step, entered, List.append_nil]
  exact ended

/-- What is found is what is covered. -/
theorem map_filterMap_unify (ground : ∀ fact ∈ facts, fact.isGround = true) (query : Atom) (scope : Scope) :
    (facts.filterMap fun fact => unify ⟨fact, scope⟩ ⟨query, scope⟩ Partition.empty).map
        (fun after => (ofQuery ⟨query, scope⟩ after).entries) =
      (facts.filter (Covers query ·)).map fun fact => query.vars.map fun term => (term.text, argumentAt query fact term) := by
  rw [List.map_filterMap, ← List.filterMap_eq_map, List.filterMap_filter]
  apply List.filterMap_congr
  intro fact member
  cases unified : unify ⟨fact, scope⟩ ⟨query, scope⟩ Partition.empty with
  | some after =>
    have covers := covers_of_unify (ground fact member) unified
    simp [covers, entries_of_unify (ground fact member) unified]
  | none =>
    have uncovered : ¬ Covers query fact := by
      intro covers
      obtain ⟨after, found⟩ := covers.exists_unify (ground fact member) scope
      cases unified.symm.trans found
    simp [uncovered]

theorem isEmpty_filterMap_unify (ground : ∀ fact ∈ facts, fact.isGround = true) (closed : query.isGround = true)
    (scope : Scope) : (facts.filterMap fun fact => unify ⟨fact, scope⟩ ⟨query, scope⟩ Partition.empty).isEmpty =
      !facts.contains query := by
  have size := congrArg List.isEmpty (map_filterMap_unify ground query scope)
  rw [List.isEmpty_map, List.isEmpty_map] at size
  rw [size, Bool.eq_iff_iff, List.isEmpty_iff, List.filter_eq_nil_iff]
  simp only [covers_iff_eq closed, decide_eq_true_eq, Bool.not_eq_true', List.contains_eq_mem, decide_eq_false_iff_not]
  exact ⟨fun absent member => absent query member rfl, fun absent fact member same => absent (same ▸ member)⟩

theorem partitions_of_facts (facts : List Atom) (query : Atom) {fuel : Nat} (enough : facts.length + 2 ≤ fuel) :
    Engine.partitions fuel { database := { facts } } (Engine.goals [query]) =
      some (.ok (facts.filterMap fun fact => unify ⟨fact, 0⟩ ⟨query, 0⟩ Partition.empty)) := by
  let search := Engine.search { database := { facts } } (Engine.goals [query])
  have ran : ∃ after, search.run fuel (Engine.goals [query]) Partition.empty = some ⟨.ok _, after⟩ :=
    run_of_facts rfl rfl ⟨query, 0⟩ Partition.empty enough
  obtain ⟨after, ran⟩ := ran
  rw [Engine.partitions, ran]
  rfl

/-- Over ground facts without rules, a query without variables is true if it is one of the facts. One with variables is
answered by the facts that it covers, each as often as it is stored and in their order, with every variable bound to the
argument at its first place. -/
theorem query_of_facts (ground : ∀ fact ∈ facts, fact.isGround = true) (query : Atom) {fuel : Nat}
    (enough : facts.length + 2 ≤ fuel) :
    (query.isGround = true →
      Engine.query fuel { database := { facts } } query = some (.ok (.truth (facts.contains query)))) ∧
    (query.isGround = false → ∃ all, Engine.query fuel { database := { facts } } query = some (.ok (.solutions all)) ∧
      all.map Bindings.entries = (facts.filter (Covers query ·)).map fun fact =>
        query.vars.map fun term => (term.text, argumentAt query fact term)) := by
  have searched := partitions_of_facts facts query enough
  have answered := conjunction_of_partitions searched
  constructor
  · intro closed
    rw [Engine.query, answered, ofPartitions_of_isGround closed, isEmpty_filterMap_unify ground closed, Bool.not_not]
  · intro free
    have entered := isEmpty_eq_false_of_partitions searched (by simpa using free)
    rw [ofPartitions_of_not_isGround free entered] at answered
    refine ⟨_, answered, ?_⟩
    rw [List.map_map]
    exact map_filterMap_unify ground query 0

def trips : List Atom :=
  [⟨"trip", [⟨"rome"⟩, ⟨"oslo"⟩, ⟨"rome"⟩]⟩, ⟨"trip", [⟨"rome"⟩, ⟨"oslo"⟩, ⟨"bonn"⟩]⟩,
    ⟨"trip", [⟨"bonn"⟩, ⟨"oslo"⟩, ⟨"bonn"⟩]⟩, ⟨"stay", [⟨"oslo"⟩]⟩, ⟨"trip", [⟨"rome"⟩, ⟨"oslo"⟩, ⟨"rome"⟩]⟩]

theorem query_of_facts_trips : (∀ fact ∈ trips, fact.isGround = true) ∧ trips.length + 2 ≤ 7 ∧
    Engine.query 7 { database := { facts := trips } } ⟨"trip", [⟨"rome"⟩, ⟨"oslo"⟩, ⟨"bonn"⟩]⟩ =
      some (.ok (.truth true)) ∧
    ∃ all, Engine.query 7 { database := { facts := trips } } ⟨"trip", [⟨"X"⟩, ⟨"oslo"⟩, ⟨"X"⟩]⟩ =
        some (.ok (.solutions all)) ∧
      all.map Bindings.entries = [[("X", "rome")], [("X", "bonn")], [("X", "rome")]] := by
  have ground : ∀ fact ∈ trips, fact.isGround = true := by decide
  have enough : trips.length + 2 ≤ 7 := by decide
  obtain ⟨all, answered, shown⟩ :=
    (query_of_facts ground ⟨"trip", [⟨"X"⟩, ⟨"oslo"⟩, ⟨"X"⟩]⟩ enough).2 (by decide)
  have proved := (query_of_facts ground ⟨"trip", [⟨"rome"⟩, ⟨"oslo"⟩, ⟨"bonn"⟩]⟩ enough).1 (by decide)
  exact ⟨ground, enough, proved, all, answered, shown.trans (by decide)⟩

end Backchain.Proofs
