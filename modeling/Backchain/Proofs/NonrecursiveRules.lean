import Backchain.Proofs.RelevantClauses
import Backchain.Proofs.RunTermination
import Mathlib.Order.WellFoundedSet

/-! Rules that do not call themselves, not even through others, need no limits. The goals of a branch go down as a multiset
of predicates, since a rule puts predicates that it calls in the place of its own, and the branches of a run in turn as
a multiset of those. -/

namespace Backchain.Proofs
open Relation

variable {database : Database}

/-- Some rule for the first predicate has a premise with the second. -/
def Calls (database : Database) (caller callee : String × Nat) : Prop :=
  ∃ rule ∈ database.rules, rule.head.signature = caller ∧ ∃ premise ∈ rule.body, premise.signature = callee

/-- No predicate calls itself, whether at once or through others. -/
def Nonrecursive (database : Database) : Prop :=
  ∀ signature, ¬ TransGen (Calls database) signature signature

/-- There are only finitely many predicates to be called, so that without a cycle all calls end. -/
theorem Nonrecursive.wellFounded (nonrecursive : Nonrecursive database) :
    WellFounded fun callee caller => Calls database caller callee := by
  let premises := database.rules.flatMap fun rule => rule.body.map Atom.signature
  have called {caller callee : String × Nat} (calls : Calls database caller callee) : callee ∈ premises := by
    obtain ⟨rule, stored, _, premise, member, rfl⟩ := calls
    exact List.mem_flatMap.mpr ⟨rule, stored, List.mem_map_of_mem member⟩
  have order : IsStrictOrder (String × Nat) fun lower upper => TransGen (Calls database) upper lower :=
    { irrefl := nonrecursive, trans := fun _ _ _ first second => second.trans first }
  have descends := (List.finite_toSet premises).wellFoundedOn
    (r := fun lower upper => TransGen (Calls database) upper lower)
  have ends : ∀ signature ∈ premises, Acc (fun callee caller => Calls database caller callee) signature := by
    intro signature member
    refine descends.induction member fun caller _ ih => ⟨_, fun callee calls => ?_⟩
    exact ih callee (called calls) (.single calls)
  exact ⟨fun signature => ⟨_, fun callee calls => ends callee (called calls)⟩⟩

/-- Numbers that go down with every call leave no room for a cycle. -/
theorem nonrecursive_of_rank (rank : String × Nat → Nat)
    (lower : ∀ rule ∈ database.rules, ∀ premise ∈ rule.body, rank premise.signature < rank rule.head.signature) :
    Nonrecursive database := by
  have descends {caller callee : String × Nat} (called : TransGen (Calls database) caller callee) :
      rank callee < rank caller := by
    induction called with
    | single calls =>
      obtain ⟨rule, stored, rfl, premise, member, rfl⟩ := calls
      exact lower rule stored premise member
    | tail _ calls ih =>
      obtain ⟨rule, stored, rfl, premise, member, rfl⟩ := calls
      exact (lower rule stored premise member).trans ih
  exact fun signature called => Nat.lt_irrefl _ (descends called)

/-- The goals that take the place of the first goal are called by it. -/
theorem Child.goals_lower {child branch : Branch} (isChild : Child database child branch) :
    CutExpand (fun callee caller => Calls database caller callee)
      (child.goals.map (·.atom.signature) : List _) (branch.goals.map (·.atom.signature) : List _) := by
  cases isChild with
  | @fact fact goal => exact cutExpand_replace goal (List.forall_mem_nil _) _
  | @rule rule scope goal rest partition extended depth stored unified =>
    have same : rule.head.signature = goal.atom.signature := by
      by_contra different
      rw [unify_of_signature_ne different] at unified
      cases unified
    refine cutExpand_replace goal (fun premise member => ?_) rest
    obtain ⟨body, inside, rfl⟩ := List.mem_map.mp member
    exact ⟨rule, stored, same, body, inside, rfl⟩

theorem Nonrecursive.exists_run (nonrecursive : Nonrecursive database) (supply : ScopeSupply) (stats : Stats)
    (goals : List ScopedAtom) (start : Partition) :
    ∃ fuel found after, Search.run fuel ⟨database, .unbounded, supply, stats⟩ goals start = some ⟨.ok found, after⟩ := by
  obtain ⟨fuel, outcome, ended⟩ : ∃ fuel outcome,
      (Search.start ⟨database, .unbounded, supply, stats⟩ goals start).finish fuel = some outcome :=
    exists_finish_of_child nonrecursive.wellFounded.cutExpand (fun branch => (branch.goals.map (·.atom.signature) : List _))
      (fun _ _ isChild _ => isChild.goals_lower) rfl rfl
  obtain ⟨found, after, rfl⟩ := exists_found_of_unbounded rfl ended
  exact ⟨fuel, found, after, ended⟩

theorem Nonrecursive.exists_conjunction (nonrecursive : Nonrecursive database) (queries : List Atom) :
    ∃ enough answer, ∀ fuel, enough ≤ fuel → Engine.conjunction fuel { database } queries = some (.ok answer) := by
  let asked := Engine.goals queries
  obtain ⟨enough, found, after, ran⟩ := nonrecursive.exists_run ⟨Engine.scopeAbove asked⟩ {} asked Partition.empty
  refine ⟨enough, Answer.ofPartitions asked found, fun fuel longer => ?_⟩
  have again : (Engine.search { database } asked).run fuel asked Partition.empty = some ⟨.ok found, after⟩ :=
    Run.finish_of_le ran longer
  rw [Engine.conjunction, Engine.partitions, again]
  rfl

theorem Nonrecursive.exists_answerEach (nonrecursive : Nonrecursive database) (queries : List Atom) :
    ∃ enough answers, ∀ fuel, enough ≤ fuel → Engine.answerEach fuel { database } queries = some (.ok answers) := by
  induction queries with
  | nil => exact ⟨0, [], fun _ _ => rfl⟩
  | cons query queries ih =>
    obtain ⟨first, answer, answered⟩ := nonrecursive.exists_conjunction [query]
    obtain ⟨later, answers, others⟩ := ih
    refine ⟨max first later, answer :: answers, fun fuel enough => ?_⟩
    obtain ⟨here, there⟩ := Nat.max_le.mp enough
    rw [Engine.answerEach, Engine.query, answered fuel here, others fuel there]
    rfl

/-- Without recursion and without limits every run ends well: for any goals, partition and scopes to begin with. So do all
queries, whether they are answered one by one or together. -/
theorem run_returns_of_nonrecursive (nonrecursive : Nonrecursive database) :
    (∀ (supply : ScopeSupply) stats goals start, ∃ enough found after, ∀ fuel, enough ≤ fuel →
      Search.run fuel ⟨database, .unbounded, supply, stats⟩ goals start = some ⟨.ok found, after⟩) ∧
    ∀ queries, ∃ enough answers, ∀ fuel, enough ≤ fuel →
      Engine.solve fuel { database } queries = some (.ok answers) := by
  constructor
  · intro supply stats goals start
    obtain ⟨enough, found, after, ran⟩ := nonrecursive.exists_run supply stats goals start
    exact ⟨enough, found, after, fun fuel longer => Run.finish_of_le ran longer⟩
  · intro queries
    cases directive : database.hasAllDirective with
    | true =>
      obtain ⟨enough, answer, answered⟩ := nonrecursive.exists_conjunction queries
      refine ⟨enough, [answer], fun fuel longer => ?_⟩
      rw [Engine.solve, if_pos directive, answered fuel longer]
      rfl
    | false =>
      obtain ⟨enough, answers, answered⟩ := nonrecursive.exists_answerEach queries
      refine ⟨enough, answers, fun fuel longer => ?_⟩
      rw [Engine.solve, directive]
      exact answered fuel longer

/-- A parent is who is the parent of somebody. The two predicates share a name, and differ in their arity. -/
def household : Database where
  facts := [⟨"parent", [⟨"ann"⟩, ⟨"bob"⟩]⟩, ⟨"parent", [⟨"bob"⟩, ⟨"cal"⟩]⟩]
  rules := [⟨⟨"grandparent", [⟨"X"⟩]⟩, [⟨"parent", [⟨"X"⟩, ⟨"Y"⟩]⟩, ⟨"parent", [⟨"Y"⟩]⟩]⟩,
    ⟨⟨"parent", [⟨"X"⟩]⟩, [⟨"parent", [⟨"X"⟩, ⟨"Y"⟩]⟩]⟩]

theorem run_returns_of_nonrecursive_household : Nonrecursive household ∧
    (∃ enough found after, ∀ fuel, enough ≤ fuel → Search.run fuel (⟨household, .unbounded, ⟨0⟩, {}⟩ : Search)
      [⟨⟨"grandparent", [⟨"W"⟩]⟩, 0⟩] Partition.empty = some ⟨.ok found, after⟩) ∧
    ∃ enough answers, ∀ fuel, enough ≤ fuel →
      Engine.solve fuel { database := household } [⟨"grandparent", [⟨"W"⟩]⟩, ⟨"parent", [⟨"cal"⟩]⟩] = some (.ok answers) := by
  have nonrecursive : Nonrecursive household :=
    nonrecursive_of_rank (fun signature => if signature.1 = "grandparent" then 2 else 2 - signature.2) (by decide)
  obtain ⟨runs, answers⟩ := run_returns_of_nonrecursive nonrecursive
  exact ⟨nonrecursive, runs ⟨0⟩ {} _ _, answers _⟩

end Backchain.Proofs
