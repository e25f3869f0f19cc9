import Backchain.Proofs.QueryAnswers

/-! Answers to a conjunction against the least model. Every query is true under bindings of its own. A solution merges
them by bare name, so that a query keeps its bindings only as far as later queries do not use the same names. -/

namespace Backchain.Proofs
open Bindings

/-- The instance of a query under bindings of all its variables. -/
def substitute? (bindings : Bindings) (query : Atom) : Option GroundAtom :=
  (query.arguments.mapM fun (term : Term) => if term.isVariable then bindings.get? term.text else some term.text).map
    (⟨query.predicate, ·⟩)

/-- The bindings make a ground atom of the query, and it is true. -/
def HoldsUnder (database : Database) (bindings : Bindings) (query : Atom) : Prop :=
  ∃ atom, substitute? bindings query = some atom ∧ Holds database atom

/-- The bindings are of the variables of the query, and make it true. -/
structure Satisfies (database : Database) (query : Atom) (own : Bindings) : Prop where
  names : own.entries.map Prod.fst = query.vars.map Term.text
  holds : HoldsUnder database own query

variable {database : Database} {query : Atom} {queries : List Atom} {bindings own : Bindings} {each : List Bindings}

theorem substitute?_eq {assign : String → String}
    (bound : ∀ term ∈ query.vars, bindings.get? term.text = some (assign term.text)) :
    substitute? bindings query = some (instantiate assign query) := by
  have value (term : Term) (member : term ∈ query.arguments) :
      (if term.isVariable then bindings.get? term.text else some term.text) =
        some (if term.isVariable then assign term.text else term.text) := by
    by_cases free : term.isVariable = true
    · rw [if_pos free, if_pos free, bound term (mem_vars.mpr ⟨member, free⟩)]
    · rw [if_neg free, if_neg free]
  rw [substitute?, mapM_eq_pure value]
  rfl

/-- The constant that a name is bound to. -/
def valueIn (bindings : Bindings) (name : String) : String := (bindings.get? name).getD name

theorem get?_eq_valueIn {name value : String} (bound : bindings.get? name = some value) :
    bindings.get? name = some (valueIn bindings name) := by
  rw [valueIn, bound, Option.getD_some]

namespace Satisfies

theorem exists_get? (satisfies : Satisfies database query own) {term : Term} (occurs : term ∈ query.vars) :
    ∃ value, own.get? term.text = some value := by
  rw [← Option.ne_none_iff_exists', ne_eq, get?, lookup_eq_none_iff_not_mem, satisfies.names, not_not]
  exact List.mem_map_of_mem occurs

theorem get?_eq_none (satisfies : Satisfies database query own) {term : Term} (absent : term ∉ query.vars) :
    own.get? term.text = none := by
  rw [get?, lookup_eq_none_iff_not_mem, satisfies.names]
  intro member
  obtain ⟨other, occurs, same⟩ := List.mem_map.mp member
  cases term
  cases other
  cases same
  exact absent occurs

/-- All bindings in which the variables of the query are the same make it true. -/
theorem holdsUnder (satisfies : Satisfies database query own)
    (same : ∀ term ∈ query.vars, bindings.get? term.text = own.get? term.text) : HoldsUnder database bindings query := by
  obtain ⟨atom, instanced, holds⟩ := satisfies.holds
  have value (term : Term) (occurs : term ∈ query.vars) : own.get? term.text = some (valueIn own term.text) := by
    obtain ⟨value, bound⟩ := satisfies.exists_get? occurs
    exact get?_eq_valueIn bound
  have equal : substitute? bindings query = substitute? own query := by
    rw [substitute?_eq value]
    exact substitute?_eq fun term occurs => (same term occurs).trans (value term occurs)
  exact ⟨atom, equal.trans instanced, holds⟩

end Satisfies

/-! ### Merged bindings -/

/-- One of the queries has its own bindings, and those after them are of the queries after it. -/
theorem exists_own {earlier later : List Atom}
    (all : List.Forall₂ (Satisfies database) (earlier ++ query :: later) each) :
    ∃ front own back, each = front ++ own :: back ∧ Satisfies database query own ∧
      List.Forall₂ (Satisfies database) later back := by
  induction earlier generalizing each with
  | nil =>
    obtain ⟨own, back, satisfies, others, rfl⟩ := List.forall₂_cons_left_iff.mp all
    exact ⟨[], own, back, rfl, satisfies, others⟩
  | cons first earlier ih =>
    obtain ⟨before, rest, _, remaining, rfl⟩ := List.forall₂_cons_left_iff.mp all
    obtain ⟨front, own, back, rfl, found⟩ := ih remaining
    exact ⟨before :: front, own, back, rfl, found⟩

theorem get?_eq_none_of_absent {term : Term} (all : List.Forall₂ (Satisfies database) queries each)
    (absent : ∀ query ∈ queries, term ∉ query.vars) : ∀ own ∈ each, own.get? term.text = none := by
  induction all with
  | nil => exact List.forall_mem_nil _
  | cons satisfies _ ih =>
    obtain ⟨here, later⟩ := List.forall_mem_cons.mp absent
    exact List.forall_mem_cons.mpr ⟨satisfies.get?_eq_none here, ih later⟩

/-- The merged bindings make a query true if its names are not those of later queries. -/
theorem holdsUnder_mergeAll {earlier later : List Atom}
    (all : List.Forall₂ (Satisfies database) (earlier ++ query :: later) each)
    (last : ∀ term ∈ query.vars, ∀ other ∈ later, term ∉ other.vars) : HoldsUnder database (mergeAll each) query := by
  obtain ⟨front, own, back, rfl, satisfies, others⟩ := exists_own all
  refine satisfies.holdsUnder fun term occurs => ?_
  obtain ⟨value, bound⟩ := satisfies.exists_get? occurs
  have unbound := List.findSome?_eq_none_iff.mpr fun more member =>
    get?_eq_none_of_absent others (last term occurs) more (List.mem_reverse.mp member)
  rw [get?_mergeAll, List.reverse_append, List.reverse_cons, List.findSome?_append, List.findSome?_append, unbound,
    List.findSome?_singleton, bound]
  rfl

/-- All variables of all queries are bound by the merged bindings. -/
theorem exists_substitute?_mergeAll (all : List.Forall₂ (Satisfies database) queries each) (member : query ∈ queries) :
    ∃ atom, substitute? (mergeAll each) query = some atom := by
  obtain ⟨earlier, later, rfl⟩ := List.append_of_mem member
  obtain ⟨front, own, back, rfl, satisfies, _⟩ := exists_own all
  have value (term : Term) (occurs : term ∈ query.vars) : (mergeAll (front ++ own :: back)).get? term.text =
      some (valueIn (mergeAll (front ++ own :: back)) term.text) := by
    obtain ⟨value, bound⟩ := satisfies.exists_get? occurs
    have merged : ((mergeAll (front ++ own :: back)).get? term.text).isSome = true := by
      rw [get?_mergeAll, List.findSome?_isSome_iff]
      exact ⟨own, by simp, by simp [bound]⟩
    obtain ⟨value, same⟩ := Option.isSome_iff_exists.mp merged
    exact get?_eq_valueIn same
  exact ⟨_, substitute?_eq value⟩

/-! ### Solutions of a conjunction -/

variable {goals : List ScopedAtom} {low high depth : Nat} {entries : List (ProofForest Scope × Partition)}
  {entry : ProofForest Scope × Partition}

theorem Enumerates.satisfies (valid : Enumerates database low high ⟨goals, Partition.empty, depth⟩ entries)
    (facts : ∀ fact ∈ database.facts, fact.isGround = true)
    (restricted : ∀ rule ∈ database.rules, RangeRestricted rule) (member : entry ∈ entries) {goal : ScopedAtom}
    (asked : goal ∈ goals) : Satisfies database goal.atom (ofQuery goal entry.2) := by
  obtain ⟨valuation, respects⟩ := valid.exists_respects Built.nil member
  have shown := entries_ofQuery (valid.valueOf_eq facts restricted member respects asked)
  have holds := (valid.holds Built.nil member respects).1 goal asked
  rw [Valuation.ground_eq] at holds
  refine ⟨?_, _, substitute?_eq fun term occurs => get?_of_entries shown occurs, holds⟩
  rw [shown, assignedEntries, List.map_map]
  rfl

/-- Every solution of a conjunction is merged, in the order of the queries, from bindings of each query that make it
true. It binds all variables, and makes those queries true whose names do not occur in later ones. -/
theorem solve_sound {engine : Engine} {fuel : Nat} {answers : List Answer}
    (directive : engine.database.hasAllDirective = true) (facts : ∀ fact ∈ engine.database.facts, fact.isGround = true)
    (restricted : ∀ rule ∈ engine.database.rules, RangeRestricted rule) (free : ∃ query ∈ queries, query.isGround = false)
    (answered : engine.solve fuel queries = some (.ok answers)) :
    ∃ all, answers = [.solutions all] ∧ ∀ solution ∈ all,
      (∃ each, List.Forall₂ (Satisfies engine.database) queries each ∧ solution = mergeAll each) ∧
      (∀ query ∈ queries, ∃ atom, substitute? solution query = some atom) ∧
      ∀ earlier query later, queries = earlier ++ query :: later →
        (∀ term ∈ query.vars, ∀ other ∈ later, term ∉ other.vars) → HoldsUnder engine.database solution query := by
  rw [Engine.solve, if_pos directive, Option.map_eq_some_iff] at answered
  obtain ⟨result, answered, same⟩ := answered
  obtain ⟨answer, rfl, rfl⟩ : ∃ answer, result = .ok answer ∧ answers = [answer] := by
    cases result with
    | error => cases same
    | ok answer =>
      cases same
      exact ⟨answer, rfl, rfl⟩
  obtain ⟨found, after, ran, rfl⟩ := exists_run_of_conjunction answered
  obtain ⟨entries, rfl, valid⟩ := exists_enumerates_of_run ran
  change Enumerates engine.database _ _ ⟨Engine.goals queries, Partition.empty, 0⟩ entries at valid
  have answer := valid.ofPartitions_eq_solutions (by simpa using free)
  refine ⟨_, congrArg ([·]) answer, List.forall_mem_map.mpr fun partition member => ?_⟩
  obtain ⟨entry, inside, rfl⟩ := List.mem_map.mp member
  have each : List.Forall₂ (Satisfies engine.database) queries ((Engine.goals queries).map (ofQuery · entry.2)) := by
    conv => lhs; rw [← map_atom_goals queries]
    rw [List.forall₂_map_left_iff, List.forall₂_map_right_iff, List.forall₂_same]
    exact fun goal asked => valid.satisfies facts restricted inside asked
  rw [ofQueries_eq_mergeAll]
  refine ⟨⟨_, each, rfl⟩, fun query asked => exists_substitute?_mergeAll each asked, ?_⟩
  intro earlier query later split last
  subst split
  exact holdsUnder_mergeAll each last

/-- Whoever beats another ranks before them and before all those whom they rank before. -/
def tournament : Database where
  facts := [Database.allDirective, ⟨"beats", [⟨"ann"⟩, ⟨"bob"⟩]⟩, ⟨"beats", [⟨"bob"⟩, ⟨"cal"⟩]⟩]
  rules := [⟨⟨"ranks", [⟨"X"⟩, ⟨"Y"⟩]⟩, [⟨"beats", [⟨"X"⟩, ⟨"Y"⟩]⟩]⟩,
    ⟨⟨"ranks", [⟨"X"⟩, ⟨"Z"⟩]⟩, [⟨"beats", [⟨"X"⟩, ⟨"Y"⟩]⟩, ⟨"ranks", [⟨"Y"⟩, ⟨"Z"⟩]⟩]⟩]

theorem solve_sound_tournament : tournament.hasAllDirective = true ∧
    (∀ fact ∈ tournament.facts, fact.isGround = true) ∧ (∀ rule ∈ tournament.rules, RangeRestricted rule) ∧
    Engine.solve 40 { database := tournament } [⟨"beats", [⟨"X"⟩, ⟨"bob"⟩]⟩, ⟨"ranks", [⟨"ann"⟩, ⟨"Y"⟩]⟩] =
      some (.ok [.solutions [⟨[("X", "ann"), ("Y", "bob")], by simp⟩, ⟨[("X", "ann"), ("Y", "cal")], by simp⟩]]) ∧
    HoldsUnder tournament ⟨[("X", "ann"), ("Y", "cal")], by simp⟩ ⟨"beats", [⟨"X"⟩, ⟨"bob"⟩]⟩ ∧
    HoldsUnder tournament ⟨[("X", "ann"), ("Y", "cal")], by simp⟩ ⟨"ranks", [⟨"ann"⟩, ⟨"Y"⟩]⟩ := by
  have directive : tournament.hasAllDirective = true := by decide
  have facts : ∀ fact ∈ tournament.facts, fact.isGround = true := by decide
  have restricted : ∀ rule ∈ tournament.rules, RangeRestricted rule := by decide
  have answered : Engine.solve 40 { database := tournament } [⟨"beats", [⟨"X"⟩, ⟨"bob"⟩]⟩, ⟨"ranks", [⟨"ann"⟩, ⟨"Y"⟩]⟩] =
      some (.ok [.solutions [⟨[("X", "ann"), ("Y", "bob")], by simp⟩, ⟨[("X", "ann"), ("Y", "cal")], by simp⟩]]) := by
    cbv
  obtain ⟨all, same, sound⟩ := solve_sound directive facts restricted (by decide) answered
  cases same
  obtain ⟨_, _, satisfied⟩ := sound ⟨[("X", "ann"), ("Y", "cal")], by simp⟩ (by simp)
  exact ⟨directive, facts, restricted, answered, satisfied [] _ _ rfl (by decide), satisfied [_] _ [] rfl (by simp)⟩

/-! ### Queries that share a name -/

def contest : Database where
  facts := [Database.allDirective, ⟨"winner", [⟨"ann"⟩]⟩, ⟨"loser", [⟨"bob"⟩]⟩]

theorem mem_facts_of_holds {atom : GroundAtom} (facts : ∀ fact ∈ database.facts, fact.isGround = true)
    (unruled : database.rules = []) (holds : Holds database atom) :
    ∃ fact ∈ database.facts, (⟨fact.predicate, fact.arguments.map Term.text⟩ : GroundAtom) = atom := by
  cases holds with
  | fact assign stored => exact ⟨_, stored, (instantiate_of_isGround (facts _ stored) assign).symm⟩
  | rule _ stored => exact absurd (unruled ▸ stored) List.not_mem_nil

/-- Nobody has won and lost, and yet there is a solution. It says of the winner what is true of the loser. -/
theorem solve_shared_name : contest.hasAllDirective = true ∧ (∀ fact ∈ contest.facts, fact.isGround = true) ∧
    (∀ rule ∈ contest.rules, RangeRestricted rule) ∧ Atom.isGround ⟨"winner", [⟨"X"⟩]⟩ = false ∧
    Engine.solve 9 { database := contest } [⟨"winner", [⟨"X"⟩]⟩, ⟨"loser", [⟨"X"⟩]⟩] =
      some (.ok [.solutions [⟨[("X", "bob")], by simp⟩]]) ∧
    substitute? ⟨[("X", "bob")], by simp⟩ ⟨"winner", [⟨"X"⟩]⟩ = some ⟨"winner", ["bob"]⟩ ∧
    ¬ Holds contest ⟨"winner", ["bob"]⟩ := by
  have facts : ∀ fact ∈ contest.facts, fact.isGround = true := by decide
  refine ⟨by decide, facts, by decide, by decide, by cbv, by decide, fun holds => ?_⟩
  have stored := mem_facts_of_holds facts rfl holds
  exact absurd stored (by decide)

end Backchain.Proofs
