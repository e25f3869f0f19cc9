import Backchain.Engine
import Backchain.Proofs.ActiveDomain
import Backchain.Proofs.SearchModel
import Backchain.Proofs.SolutionBindings

/-! Answers to queries against the least model. For ground facts and rules that bring in no variables of their own,
the bindings of an answer are exactly the instances of the query that hold. -/

namespace Backchain.Proofs

theorem foldl_scope_bound (goals : List ScopedAtom) (bound : Scope) :
    bound ≤ goals.foldl (fun bound goal => max bound (goal.scope + 1)) bound ∧
      ∀ goal ∈ goals, goal.scope < goals.foldl (fun bound goal => max bound (goal.scope + 1)) bound := by
  induction goals generalizing bound with
  | nil => exact ⟨Nat.le_refl bound, by simp⟩
  | cons goal goals ih =>
    obtain ⟨grown, others⟩ := ih (max bound (goal.scope + 1))
    constructor
    · exact (Nat.le_max_left ..).trans grown
    · exact List.forall_mem_cons.mpr ⟨(Nat.le_max_right bound (goal.scope + 1)).trans grown, others⟩

theorem scopesBelow_scopeAbove (goals : List ScopedAtom) :
    ScopesBelow (Engine.scopeAbove goals) goals Partition.empty :=
  .of_goals (foldl_scope_bound goals 0).2

theorem exists_run_of_conjunction {engine : Engine} {fuel : Nat} {queries : List Atom} {answer : Answer}
    (answered : engine.conjunction fuel queries = some (.ok answer)) :
    ∃ found after, (engine.search (Engine.goals queries)).run fuel (Engine.goals queries) Partition.empty =
        some ⟨.ok found, after⟩ ∧
      Answer.ofPartitions (Engine.goals queries) found = answer := by
  rw [Engine.conjunction, Engine.partitions, Option.map_map] at answered
  exact exists_found answered

variable {database : Database} {low high : Nat} {query : Atom} {entries : List (ProofForest Scope × Partition)}
  {entry : ProofForest Scope × Partition} {depth : Nat} {scope : Scope} {assign : String → String}

namespace Enumerates

/-- Some entry allows an instance of the query exactly when the instance holds. -/
theorem exists_within_iff (valid : Enumerates database low high ⟨[⟨query, scope⟩], Partition.empty, depth⟩ entries)
    (ground : ∀ fact ∈ database.facts, fact.isGround = true)
    (below : ScopesBelow low [⟨query, scope⟩] Partition.empty) :
    (∃ entry ∈ entries, ∃ valuation : Valuation, valuation.Respects entry.2 ∧ valuation.within scope = assign) ↔
      Holds database (instantiate assign query) := by
  constructor
  · intro found
    obtain ⟨entry, member, valuation, respects, same⟩ := found
    have holds := (valid.holds Built.nil member respects).1 _ (List.mem_singleton.mpr rfl)
    rwa [Valuation.ground_eq, same] at holds
  · intro holds
    obtain ⟨entry, member, extended, agree, last⟩ :=
      valid.exists_of_holds Built.nil ground below (Valuation.ofAssign scope assign).respects_empty (by
        intro goal member
        obtain rfl := List.mem_singleton.mp member
        rwa [Valuation.ground_ofAssign])
    have outside : scope ∉ Set.Ici low := Nat.not_le_of_lt (below.goals _ (List.mem_singleton.mpr rfl))
    refine ⟨entry, member, extended, last, ?_⟩
    rw [agree.within_eq outside, Valuation.ofAssign, Valuation.within_update]

/-- The variables of a goal have the same constants under all valuations that an entry allows. -/
theorem valueOf_eq {goals : List ScopedAtom}
    (valid : Enumerates database low high ⟨goals, Partition.empty, depth⟩ entries)
    (ground : ∀ fact ∈ database.facts, fact.isGround = true)
    (restricted : ∀ rule ∈ database.rules, RangeRestricted rule) (member : entry ∈ entries) {valuation : Valuation}
    (respects : valuation.Respects entry.2) {goal : ScopedAtom} (asked : goal ∈ goals) :
    ∀ term ∈ goal.atom.vars,
      entry.2.valueOf (Key.ofTerm goal.scope term) = some (valuation.within goal.scope term.text) := by
  intro term occurs
  obtain ⟨inside, free⟩ := mem_vars.mp occurs
  obtain ⟨needed, proves, finished⟩ := valid.sound [] Built.nil entry member
  have holds (other : Valuation) (allowed : other.Respects entry.2) : Holds database (other.ground goal) :=
    (valid.holds Built.nil member allowed).1 goal asked
  obtain ⟨name, bound⟩ := finished.exists_valueOf ground restricted holds _ (List.mem_map_of_mem inside)
  have value := finished.value_of_valueOf respects bound
  rw [value_ofTerm, if_pos free] at value
  rw [bound, value]

end Enumerates

theorem isEmpty_eq_false_of_valueOf {partition : Partition} {term : Term} {name : String} (free : term.isVariable = true)
    (bound : partition.valueOf (Key.ofTerm scope term) = some name) : partition.isEmpty = false := by
  rw [Key.ofTerm, if_pos free] at bound
  cases partition with
  | mk nodes =>
    by_contra none
    have missing : nodes = #[] := by simpa [Partition.isEmpty, Partition.size] using none
    simp [missing, Partition.valueOf, Partition.slot?, Key.constant?] at bound

namespace Enumerates

theorem ne_nil_iff (valid : Enumerates database low high ⟨[⟨query, scope⟩], Partition.empty, depth⟩ entries)
    (facts : ∀ fact ∈ database.facts, fact.isGround = true)
    (below : ScopesBelow low [⟨query, scope⟩] Partition.empty) (ground : query.isGround = true) :
    entries ≠ [] ↔ Holds database ⟨query.predicate, query.arguments.map Term.text⟩ := by
  constructor
  · intro found
    obtain ⟨entry, member⟩ := List.exists_mem_of_ne_nil entries found
    obtain ⟨valuation, respects⟩ := valid.exists_respects Built.nil member
    rw [← instantiate_of_isGround ground (valuation.within scope)]
    exact (valid.exists_within_iff facts below).mp ⟨entry, member, valuation, respects, rfl⟩
  · intro holds
    rw [← instantiate_of_isGround ground id, ← valid.exists_within_iff facts below] at holds
    obtain ⟨entry, member, _⟩ := holds
    exact List.ne_nil_of_mem member

/-- The entries that a query is shown with are those of its instances that hold. -/
theorem mem_entries_iff (valid : Enumerates database low high ⟨[⟨query, scope⟩], Partition.empty, depth⟩ entries)
    (facts : ∀ fact ∈ database.facts, fact.isGround = true)
    (restricted : ∀ rule ∈ database.rules, RangeRestricted rule)
    (below : ScopesBelow low [⟨query, scope⟩] Partition.empty) (bound : List (String × String)) :
    (∃ entry ∈ entries, (Bindings.ofQuery ⟨query, scope⟩ entry.2).entries = bound) ↔
      ∃ assign, assignedEntries assign query = bound ∧ Holds database (instantiate assign query) := by
  constructor
  · intro found
    obtain ⟨entry, member, rfl⟩ := found
    obtain ⟨valuation, respects⟩ := valid.exists_respects Built.nil member
    have bound := valid.valueOf_eq facts restricted member respects (List.mem_singleton.mpr rfl)
    refine ⟨valuation.within scope, (entries_ofQuery bound).symm, ?_⟩
    exact (valid.exists_within_iff facts below).mp ⟨entry, member, valuation, respects, rfl⟩
  · intro found
    obtain ⟨assign, rfl, holds⟩ := found
    obtain ⟨entry, member, valuation, respects, rfl⟩ := (valid.exists_within_iff facts below).mpr holds
    have bound := valid.valueOf_eq facts restricted member respects (List.mem_singleton.mpr rfl)
    exact ⟨entry, member, entries_ofQuery bound⟩

theorem isEmpty_eq_false (valid : Enumerates database low high ⟨[⟨query, scope⟩], Partition.empty, depth⟩ entries)
    (facts : ∀ fact ∈ database.facts, fact.isGround = true)
    (restricted : ∀ rule ∈ database.rules, RangeRestricted rule) (member : entry ∈ entries)
    (free : query.isGround = false) : entry.2.isEmpty = false := by
  obtain ⟨term, occurs⟩ := isGround_eq_false_iff.mp free
  obtain ⟨valuation, respects⟩ := valid.exists_respects Built.nil member
  have bound := valid.valueOf_eq facts restricted member respects (List.mem_singleton.mpr rfl) term occurs
  exact isEmpty_eq_false_of_valueOf (mem_vars.mp occurs).2 bound

end Enumerates

/-! ### What partitions say about queries -/

theorem map_atom_goals (queries : List Atom) : (Engine.goals queries).map ScopedAtom.atom = queries := by
  rw [Engine.goals, List.map_map]
  exact List.zipIdx_map_fst 0 queries

theorem all_isGround_goals (queries : List Atom) :
    (Engine.goals queries).all (·.atom.isGround) = queries.all Atom.isGround := by
  conv_rhs => rw [← map_atom_goals queries, List.all_map]
  rfl

theorem ofPartitions_of_all_isGround {queries : List Atom} (ground : queries.all Atom.isGround = true)
    (found : List Partition) : Answer.ofPartitions (Engine.goals queries) found = .truth !found.isEmpty := by
  rw [Answer.ofPartitions, all_isGround_goals, if_pos ground]

theorem ofPartitions_of_free {queries : List Atom} (free : queries.all Atom.isGround = false) (found : List Partition) :
    Answer.ofPartitions (Engine.goals queries) found =
      .solutions ((found.filter (!·.isEmpty)).map (Bindings.ofQueries (Engine.goals queries))) := by
  rw [Answer.ofPartitions, all_isGround_goals, free]
  rfl

theorem ofPartitions_of_not_all_isGround {queries : List Atom} {found : List Partition}
    (free : queries.all Atom.isGround = false) (entered : ∀ solution ∈ found, solution.isEmpty = false) :
    Answer.ofPartitions (Engine.goals queries) found =
      .solutions (found.map (Bindings.ofQueries (Engine.goals queries))) := by
  have all : found.filter (!·.isEmpty) = found := by
    apply List.filter_eq_self.mpr
    intro solution member
    rw [entered solution member, Bool.not_false]
  rw [ofPartitions_of_free free, all]

theorem isEmpty_eq_false_of_contains {partition : Partition} {key : Key} (inside : partition.contains key = true) :
    partition.isEmpty = false := by
  obtain ⟨node, member, _⟩ := List.mem_map.mp (contains_iff.mp inside)
  simpa [Partition.isEmpty, Partition.size] using Array.ne_empty_of_mem (Array.mem_toList_iff.mp member)

/-- The arguments of a goal are in the partition of each of its proofs, as is every key that was there before. -/
theorem Enumerates.contains {goals : List ScopedAtom} {start : Partition} {history : List (Key × Key)} {key : Key}
    (valid : Enumerates database low high ⟨goals, start, depth⟩ entries) (built : Built history start)
    (member : entry ∈ entries) (present : start.contains key = true ∨ ∃ goal ∈ goals, key ∈ goal.keys) :
    entry.2.contains key = true := by
  obtain ⟨needed, proves, finished⟩ := valid.sound history built entry member
  rw [finished.represents.contains_iff, mentioned_append]
  rcases present with before | ⟨goal, asked, argument⟩
  · exact Or.inl ((built.represents.contains_iff key).mp before)
  · exact Or.inr (proves.mentioned asked argument)

/-- Whatever the facts and rules are, a proof of queries with a variable enters it. -/
theorem Enumerates.isEmpty_eq_false_of_free {queries : List Atom}
    (valid : Enumerates database low high ⟨Engine.goals queries, Partition.empty, depth⟩ entries)
    (free : queries.all Atom.isGround = false) : ∀ solution ∈ entries.map Prod.snd, solution.isEmpty = false := by
  obtain ⟨goal, asked, unbound⟩ : ∃ goal ∈ Engine.goals queries, goal.atom.isGround = false := by
    simpa using (all_isGround_goals queries).trans free
  obtain ⟨term, occurs⟩ := isGround_eq_false_iff.mp unbound
  have argument : Key.ofTerm goal.scope term ∈ goal.keys := List.mem_map_of_mem (mem_vars.mp occurs).1
  refine List.forall_mem_map.mpr fun entry member => ?_
  exact isEmpty_eq_false_of_contains (valid.contains Built.nil member (Or.inr ⟨goal, asked, argument⟩))

theorem Enumerates.ofPartitions_eq_solutions {queries : List Atom}
    (valid : Enumerates database low high ⟨Engine.goals queries, Partition.empty, depth⟩ entries)
    (free : queries.all Atom.isGround = false) : Answer.ofPartitions (Engine.goals queries) (entries.map Prod.snd) =
      .solutions ((entries.map Prod.snd).map (Bindings.ofQueries (Engine.goals queries))) :=
  ofPartitions_of_not_all_isGround free (valid.isEmpty_eq_false_of_free free)

theorem ofPartitions_of_isGround (ground : query.isGround = true) (found : List Partition) :
    Answer.ofPartitions (Engine.goals [query]) found = .truth !found.isEmpty :=
  ofPartitions_of_all_isGround (by simpa using ground) found

theorem ofPartitions_of_not_isGround {found : List Partition} (free : query.isGround = false)
    (entered : ∀ solution ∈ found, solution.isEmpty = false) :
    Answer.ofPartitions (Engine.goals [query]) found = .solutions (found.map (Bindings.ofQuery ⟨query, 0⟩)) :=
  ofPartitions_of_not_all_isGround (by simpa using free) entered

/-- Partitions that are related one by one answer with the same truth, or with related solutions. -/
theorem ofPartitions_rel {query other : Atom} {related : Partition → Partition → Prop} {found copies : List Partition}
    (ground : other.isGround = query.isGround) (entered : ∀ a b, related a b → b.isEmpty = a.isEmpty)
    (each : List.Forall₂ related found copies) :
    (∃ holds, Answer.ofPartitions (Engine.goals [query]) found = .truth holds ∧
      Answer.ofPartitions (Engine.goals [other]) copies = .truth holds) ∨
    ∃ first second, List.Forall₂ related first second ∧
      Answer.ofPartitions (Engine.goals [query]) found =
        .solutions (first.map (Bindings.ofQueries (Engine.goals [query]))) ∧
      Answer.ofPartitions (Engine.goals [other]) copies =
        .solutions (second.map (Bindings.ofQueries (Engine.goals [other]))) := by
  cases free : query.isGround with
  | true =>
    have empty : copies.isEmpty = found.isEmpty := by
      cases each <;> rfl
    rw [free] at ground
    exact Or.inl ⟨_, ofPartitions_of_isGround free found, empty ▸ ofPartitions_of_isGround ground copies⟩
  | false =>
    rw [free] at ground
    refine Or.inr ⟨_, _, ?_, ofPartitions_of_free (by simpa using free) found,
      ofPartitions_of_free (by simpa using ground) copies⟩
    apply List.rel_filter _ each
    intro solution copy same
    simp only [entered solution copy same]

/-- Every answer to a query is the least model's. A query without variables is true exactly if it is in the model.
The solutions of one with variables bind all of them, and as a set they are the instances in the model. -/
theorem query_correct {engine : Engine} {fuel : Nat} {answer : Answer}
    (facts : ∀ fact ∈ engine.database.facts, fact.isGround = true)
    (restricted : ∀ rule ∈ engine.database.rules, RangeRestricted rule)
    (answered : engine.query fuel query = some (.ok answer)) :
    (query.isGround = true → ∃ holds, answer = .truth holds ∧
      (holds = true ↔ Holds engine.database ⟨query.predicate, query.arguments.map Term.text⟩)) ∧
    (query.isGround = false → ∃ all, answer = .solutions all ∧
      ∀ bound, (∃ bindings ∈ all, bindings.entries = bound) ↔
        ∃ assign, assignedEntries assign query = bound ∧ Holds engine.database (instantiate assign query)) := by
  obtain ⟨found, after, ran, rfl⟩ := exists_run_of_conjunction answered
  obtain ⟨entries, rfl, valid⟩ := exists_enumerates_of_run ran
  have below := scopesBelow_scopeAbove (Engine.goals [query])
  change Enumerates engine.database (Engine.scopeAbove (Engine.goals [query])) _ ⟨[⟨query, 0⟩], _, 0⟩ entries at valid
  change ScopesBelow _ [⟨query, 0⟩] _ at below
  constructor
  · intro ground
    refine ⟨_, ofPartitions_of_isGround ground _, ?_⟩
    rw [← valid.ne_nil_iff facts below ground]
    simp
  · intro free
    have entered : ∀ solution ∈ entries.map Prod.snd, solution.isEmpty = false :=
      List.forall_mem_map.mpr fun entry member => valid.isEmpty_eq_false facts restricted member free
    refine ⟨_, ofPartitions_of_not_isGround free entered, fun bound => ?_⟩
    rw [← valid.mem_entries_iff facts restricted below]
    simp

/-- Ancestors are parents and the parents of ancestors. -/
def kinship : Database where
  facts := [⟨"parent", [⟨"ann"⟩, ⟨"bob"⟩]⟩, ⟨"parent", [⟨"bob"⟩, ⟨"cal"⟩]⟩]
  rules := [⟨⟨"ancestor", [⟨"X"⟩, ⟨"Y"⟩]⟩, [⟨"parent", [⟨"X"⟩, ⟨"Y"⟩]⟩]⟩,
    ⟨⟨"ancestor", [⟨"X"⟩, ⟨"Z"⟩]⟩, [⟨"parent", [⟨"X"⟩, ⟨"Y"⟩]⟩, ⟨"ancestor", [⟨"Y"⟩, ⟨"Z"⟩]⟩]⟩]

theorem query_correct_kinship :
    (∀ fact ∈ kinship.facts, fact.isGround = true) ∧ (∀ rule ∈ kinship.rules, RangeRestricted rule) ∧
      Engine.query 30 { database := kinship } ⟨"ancestor", [⟨"ann"⟩, ⟨"W"⟩]⟩ =
        some (.ok (.solutions [⟨[("W", "bob")], by simp⟩, ⟨[("W", "cal")], by simp⟩])) ∧
      Holds kinship ⟨"ancestor", ["ann", "cal"]⟩ ∧ ¬ Holds kinship ⟨"ancestor", ["ann", "ann"]⟩ := by
  have facts : ∀ fact ∈ kinship.facts, fact.isGround = true := by decide
  have restricted : ∀ rule ∈ kinship.rules, RangeRestricted rule := by decide
  have answered : Engine.query 30 { database := kinship } ⟨"ancestor", [⟨"ann"⟩, ⟨"W"⟩]⟩ =
      some (.ok (.solutions [⟨[("W", "bob")], by simp⟩, ⟨[("W", "cal")], by simp⟩])) := by cbv
  obtain ⟨all, same, correct⟩ := (query_correct facts restricted answered).2 (by decide)
  cases same
  have entries (assign : String → String) :
      assignedEntries assign ⟨"ancestor", [⟨"ann"⟩, ⟨"W"⟩]⟩ = [("W", assign "W")] := rfl
  have atom (assign : String → String) :
      instantiate assign ⟨"ancestor", [⟨"ann"⟩, ⟨"W"⟩]⟩ = ⟨"ancestor", ["ann", assign "W"]⟩ := rfl
  simp only [entries, atom] at correct
  refine ⟨facts, restricted, answered, ?_, fun holds => ?_⟩
  · obtain ⟨assign, bound, holds⟩ := (correct [("W", "cal")]).mp (by simp)
    simp only [List.cons.injEq, Prod.mk.injEq, and_true, true_and] at bound
    rwa [bound] at holds
  · obtain ⟨bindings, member, bound⟩ := (correct [("W", "ann")]).mpr ⟨fun _ => "ann", rfl, holds⟩
    simp only [List.mem_cons, List.not_mem_nil, or_false] at member
    rcases member with rfl | rfl <;> simp at bound

end Backchain.Proofs
