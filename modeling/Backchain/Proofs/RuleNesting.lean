import Backchain.Proofs.SearchCounters
import Mathlib.Logic.Relation

/-! How deep rules are nested on the branches of a run. The depth is looked at when a goal is expanded, so that all
branches with goals left keep to the limit. A rule without premises that proves the last goal of a branch is not
looked at any more: it may be one more than the limit allows, and than is counted. -/

namespace Backchain.Proofs
open Relation

/-- A branch that a run comes to, with the rules that have been applied on the way to it. -/
inductive LeadsTo (begun : Run) : List Rule → Branch → Prop where
  | start {branch : Branch} (first : branch ∈ begun.pending) : LeadsTo begun [] branch
  | fact {rules : List Rule} {search counted : Search} {goal : ScopedAtom} {rest : List ScopedAtom}
      {partition extended : Partition} {depth : Nat} {pending : List Branch} {found : List Partition} {fact : Atom}
      (earlier : LeadsTo begun rules ⟨goal :: rest, partition, depth⟩)
      (moment : ReflTransGen Steps begun ⟨search, ⟨goal :: rest, partition, depth⟩ :: pending, found⟩)
      (allowed : search.enter depth = (none, counted)) (stored : fact ∈ counted.database.facts)
      (unified : unify ⟨fact, goal.scope⟩ goal partition = some extended) :
      LeadsTo begun rules ⟨rest, extended, depth⟩
  | rule {rules : List Rule} {search counted : Search} {goal : ScopedAtom} {rest premises : List ScopedAtom}
      {partition extended : Partition} {depth : Nat} {pending : List Branch} {found : List Partition} {rule : Rule}
      {scope : Scope} (earlier : LeadsTo begun rules ⟨goal :: rest, partition, depth⟩)
      (moment : ReflTransGen Steps begun ⟨search, ⟨goal :: rest, partition, depth⟩ :: pending, found⟩)
      (allowed : search.enter depth = (none, counted)) (given : (rule, scope) ∈ instances counted)
      (applied : rule.apply scope goal partition = some (premises, extended)) :
      LeadsTo begun (rules ++ [rule]) ⟨premises ++ rest, extended, depth + 1⟩

variable {begun run next : Run} {outcome : Outcome} {search counted : Search} {rules : List Rule} {branch : Branch}
  {goal : ScopedAtom} {rest : List ScopedAtom} {partition : Partition} {depth fuel : Nat} {pending : List Branch}
  {found : List Partition}

/-! ### Moments of a run -/

theorem Steps.of_enter (entered : search.enter depth = (none, counted)) :
    counted = countStep search depth ∧
      Steps ⟨search, ⟨goal :: rest, partition, depth⟩ :: pending, found⟩
        ⟨(counted.expand goal rest partition depth).2, (counted.expand goal rest partition depth).1 ++ pending, found⟩ := by
  rcases enter_cases search depth with ⟨allowed, same⟩ | ⟨error, _, same⟩
  · obtain rfl := (Prod.mk.inj (same.symm.trans entered)).2
    exact ⟨rfl, .expansion allowed⟩
  · cases same.symm.trans entered

theorem Steps.step_eq (steps : Steps run next) : run.step = .running next := by
  cases steps with
  | solution => rfl
  | @expansion search goal rest partition depth pending found allowed =>
    rcases enter_cases search depth with ⟨_, entered⟩ | ⟨error, breaks, _⟩
    · simp only [Run.step, entered]
    · exact absurd breaks (allowed error)

theorem exists_finish_of_moment (moment : ReflTransGen Steps begun run) (ended : begun.finish fuel = some outcome) :
    ∃ less, run.finish less = some outcome := by
  induction moment with
  | refl => exact ⟨fuel, ended⟩
  | tail _ steps ih =>
    obtain ⟨less, ended⟩ := ih
    cases less with
    | zero => cases ended
    | succ less =>
      rw [Run.finish, steps.step_eq] at ended
      exact ⟨less, ended⟩

theorem database_of_moment (moment : ReflTransGen Steps begun run) : run.search.database = begun.search.database := by
  induction moment with
  | refl => rfl
  | tail _ steps ih => exact steps.keeps.1.trans ih

theorem exists_last_moment (ended : run.finish fuel = some outcome) :
    ∃ last, ReflTransGen Steps run last ∧ Stops last outcome := by
  refine finish_induction (motive := fun _ run outcome => ∃ last, ReflTransGen Steps run last ∧ Stops last outcome)
    ?_ ?_ ended
  · exact fun _ run _ _ stops => ⟨run, .refl, stops⟩
  · intro _ run next outcome _ steps later
    obtain ⟨last, moment, stops⟩ := later
    exact ⟨last, .head steps moment, stops⟩

theorem LeadsTo.exists_moment (leads : LeadsTo begun rules branch) :
    ∃ run, ReflTransGen Steps begun run ∧ branch ∈ run.pending := by
  cases leads with
  | start first => exact ⟨begun, .refl, first⟩
  | fact earlier moment allowed stored unified =>
    refine ⟨_, moment.tail (Steps.of_enter allowed).2, List.mem_append_left _ (List.mem_append_left _ ?_)⟩
    exact List.mem_filterMap.mpr ⟨_, stored, Option.map_eq_some_iff.mpr ⟨_, unified, rfl⟩⟩
  | rule earlier moment allowed given applied =>
    refine ⟨_, moment.tail (Steps.of_enter allowed).2, List.mem_append_left _ (List.mem_append_right _ ?_)⟩
    exact List.mem_filterMap.mpr ⟨_, given, Option.map_eq_some_iff.mpr ⟨_, applied, rfl⟩⟩

/-! ### The deepest goal -/

theorem maxDepth_le_of_finish (ended : run.finish fuel = some outcome) :
    run.search.stats.maxDepth ≤ outcome.search.stats.maxDepth := by
  refine finish_induction (motive := fun _ run outcome =>
    run.search.stats.maxDepth ≤ outcome.search.stats.maxDepth) ?_ ?_ ended
  · intro _ run outcome _ stops
    cases stops with
    | explored => exact Nat.le_refl _
    | stopped breaks => cases breaks <;> exact Nat.le_refl _
  · intro _ run next outcome _ steps later
    cases steps with
    | solution => exact later
    | expansion => exact (Nat.le_max_left ..).trans later

/-- A run that ends well has come to all goals that were pending. -/
theorem depth_le_of_finish {after : Search} (ended : run.finish fuel = some ⟨.ok found, after⟩) :
    ∀ branch ∈ run.pending, branch.goals ≠ [] → branch.depth ≤ after.stats.maxDepth := by
  refine finish_induction (motive := fun fuel run outcome => (∃ found, outcome.result = .ok found) →
    run.finish fuel = some outcome →
      ∀ branch ∈ run.pending, branch.goals ≠ [] → branch.depth ≤ outcome.search.stats.maxDepth)
    ?_ ?_ ended ⟨found, rfl⟩ ended
  · intro _ run outcome _ stops well _
    cases stops with
    | explored => exact List.forall_mem_nil _
    | stopped =>
      obtain ⟨_, same⟩ := well
      cases same
  · intro _ run next outcome stepped steps later well ended
    rw [Run.finish, stepped] at ended
    have others := later well ended
    cases steps with
    | solution => exact List.forall_mem_cons.mpr ⟨fun unsolved => absurd rfl unsolved, others⟩
    | expansion =>
      refine List.forall_mem_cons.mpr ⟨fun _ => ?_, (List.forall_mem_append.mp others).2⟩
      exact (Nat.le_max_right ..).trans (maxDepth_le_of_finish ended)

theorem LeadsTo.depth_eq (leads : LeadsTo begun rules branch) (shallow : ∀ branch ∈ begun.pending, branch.depth = 0) :
    branch.depth = rules.length := by
  induction leads with
  | start first => exact shallow _ first
  | fact _ _ _ _ _ ih => exact ih
  | rule _ _ _ _ _ ih => rw [List.length_append, List.length_singleton, ← ih]

/-- The branches of a moment are those that the run leads to, and the depth that is kept is that of one of them. -/
structure Accounted (begun run : Run) : Prop where
  pending : ∀ branch ∈ run.pending, ∃ rules, LeadsTo begun rules branch
  found : ∀ solution ∈ run.found, ∃ rules depth, LeadsTo begun rules ⟨[], solution, depth⟩
  deepest : ∃ rules branch, LeadsTo begun rules branch ∧ branch.depth = run.search.stats.maxDepth

theorem Accounted.step (moment : ReflTransGen Steps begun run) (accounted : Accounted begun run)
    (steps : Steps run next) : Accounted begun next := by
  obtain ⟨known, solved, deepest⟩ := accounted
  cases steps with
  | @solution search partition depth pending found =>
    obtain ⟨⟨rules, here⟩, later⟩ := List.forall_mem_cons.mp known
    exact ⟨later, List.forall_mem_cons.mpr ⟨⟨rules, depth, here⟩, solved⟩, deepest⟩
  | @expansion search goal rest partition depth pending found allowed =>
    obtain ⟨⟨rules, here⟩, later⟩ := List.forall_mem_cons.mp known
    have entered : search.enter depth = (none, countStep search depth) := enter_allowed allowed
    refine ⟨List.forall_mem_append.mpr ⟨?_, later⟩, solved, ?_⟩
    · intro child member
      obtain fromFact | fromRule := List.mem_append.mp member
      · obtain ⟨fact, stored, begun⟩ := List.mem_filterMap.mp fromFact
        obtain ⟨extended, unified, rfl⟩ := Option.map_eq_some_iff.mp begun
        exact ⟨rules, .fact here moment entered stored unified⟩
      · obtain ⟨⟨rule, scope⟩, given, begun⟩ := List.mem_filterMap.mp fromRule
        obtain ⟨⟨premises, extended⟩, applied, rfl⟩ := Option.map_eq_some_iff.mp begun
        exact ⟨rules ++ [rule], .rule here moment entered given applied⟩
    · rcases Nat.le_total search.stats.maxDepth depth with deeper | before
      · exact ⟨rules, _, here, (Nat.max_eq_right deeper).symm⟩
      · obtain ⟨others, branch, leads, same⟩ := deepest
        exact ⟨others, branch, leads, same.trans (Nat.max_eq_left before).symm⟩

theorem accounted_of_moment (start : Accounted begun begun) (moment : ReflTransGen Steps begun run) :
    Accounted begun run := by
  induction moment with
  | refl => exact start
  | tail moment steps ih => exact ih.step moment steps

/-- The branches of a run with goals left keep to the depth that is counted. What is left over is a rule without
premises that proves the last goal. -/
theorem LeadsTo.length_le {after : Search} (leads : LeadsTo begun rules branch)
    (shallow : ∀ branch ∈ begun.pending, branch.depth = 0) (ended : begun.finish fuel = some ⟨.ok found, after⟩) :
    rules.length ≤ after.stats.maxDepth ∨
      rules.length = after.stats.maxDepth + 1 ∧ branch.goals = [] ∧
        ∃ last ∈ begun.search.database.rules, rules.getLast? = some last ∧ last.body = [] := by
  have unsolved {rules : List Rule} {branch : Branch} (leads : LeadsTo begun rules branch) (goals : branch.goals ≠ []) :
      rules.length ≤ after.stats.maxDepth := by
    obtain ⟨run, moment, pending⟩ := leads.exists_moment
    obtain ⟨less, ended⟩ := exists_finish_of_moment moment ended
    rw [← leads.depth_eq shallow]
    exact depth_le_of_finish ended branch pending goals
  by_cases goals : branch.goals = []
  · cases leads with
    | start => exact Or.inl (Nat.zero_le _)
    | fact earlier => exact Or.inl (unsolved earlier (List.cons_ne_nil _ _))
    | @rule rules search counted goal rest premises partition extended depth pending found rule scope earlier moment
        allowed given applied =>
      -- The rule took its goal from a branch that still had one, so no rule but this last one goes beyond.
      have before := unsolved earlier (List.cons_ne_nil _ _)
      have size : (rules ++ [rule]).length = rules.length + 1 := List.length_append
      rcases Nat.lt_or_eq_of_le before with less | same
      · exact Or.inl (by omega)
      · have database : counted.database = begun.search.database :=
          (enter_keeps allowed).1.trans (database_of_moment moment)
        obtain ⟨_, _, parts⟩ := Option.map_eq_some_iff.mp applied
        obtain ⟨rfl, _⟩ := Prod.mk.inj parts
        have empty : rule.body = [] := List.map_eq_nil_iff.mp (List.append_eq_nil_iff.mp goals).1
        refine Or.inr ⟨by omega, goals, rule, ?_, by simp, empty⟩
        rw [← database]
        exact (List.of_mem_zip given).1
  · exact Or.inl (unsolved leads goals)

/-- A run that ends well under a depth limit has counted no more than the limit, and has come to a branch with as many
rules as it has counted. No branch has more but those that a rule without premises completes: they may have one more.
So where all rules have premises, what is counted is the largest number of rules on any branch. -/
theorem nesting_of_run {goals : List ScopedAtom} {start : Partition} {limit : Nat} {after : Search}
    (fresh : search.stats = {}) (set : search.limits.maxDepth = some limit)
    (ran : search.run fuel goals start = some ⟨.ok found, after⟩) :
    after.stats.maxDepth ≤ limit ∧
      (∀ solution ∈ found, ∃ rules depth, LeadsTo (search.start goals start) rules ⟨[], solution, depth⟩) ∧
      (∀ rules branch, LeadsTo (search.start goals start) rules branch →
        rules.length ≤ after.stats.maxDepth ∨
          rules.length = after.stats.maxDepth + 1 ∧ branch.goals = [] ∧
            ∃ last ∈ search.database.rules, rules.getLast? = some last ∧ last.body = []) ∧
      (∃ rules branch, LeadsTo (search.start goals start) rules branch ∧ rules.length = after.stats.maxDepth) ∧
      ((∀ rule ∈ search.database.rules, rule.body ≠ []) →
        IsGreatest { count | ∃ rules branch, LeadsTo (search.start goals start) rules branch ∧ rules.length = count }
          after.stats.maxDepth) := by
  have zero : search.stats.maxDepth = 0 := by rw [fresh]
  have shallow : ∀ branch ∈ (search.start goals start).pending, branch.depth = 0 := List.forall_mem_singleton.mpr rfl
  have begun : Accounted (search.start goals start) (search.start goals start) :=
    ⟨fun branch first => ⟨[], .start first⟩, List.forall_mem_nil _, [], ⟨goals, start, 0⟩,
      .start (List.mem_singleton.mpr rfl), zero.symm⟩
  have within : Shallow search := ⟨zero.trans_le (Nat.zero_le _), fun limit _ => zero.trans_le (Nat.zero_le limit)⟩
  have shallowRun : ShallowRun (search.start goals start) :=
    ⟨within, fun branch first => (shallow branch first).trans_le (Nat.zero_le _)⟩
  have bounded (rules : List Rule) (branch : Branch) (leads : LeadsTo (search.start goals start) rules branch) :=
    leads.length_le shallow ran
  obtain ⟨last, moment, stops⟩ := exists_last_moment ran
  obtain ⟨_, solved, rules, branch, leads, deepest⟩ := accounted_of_moment begun moment
  cases stops
  have attained : rules.length = after.stats.maxDepth := (leads.depth_eq shallow).symm.trans deepest
  refine ⟨(shallowRun.of_finish ran).allowed limit ?_, ?_, bounded, ⟨rules, branch, leads, attained⟩, fun premises => ?_⟩
  · exact (congrArg Limits.maxDepth (finish_keeps ran).2).trans set
  · exact fun solution member => solved solution (List.mem_reverse.mp member)
  · refine ⟨⟨rules, branch, leads, attained⟩, ?_⟩
    rintro count ⟨others, other, path, rfl⟩
    rcases bounded others other path with most | ⟨_, _, last, stored, _, empty⟩
    · exact most
    · exact absurd empty (premises last stored)

/-- Shops are closed on days of rest, and Sunday is one for no reason. -/
def restDays (limit : Nat) : Search where
  database := {
    rules := [⟨⟨"closed", [⟨"Day"⟩]⟩, [⟨"rest", [⟨"Day"⟩]⟩]⟩, ⟨⟨"rest", [⟨"sun"⟩]⟩, []⟩] }
  limits := { maxDepth := some limit }
  supply := ⟨1⟩

/-- Shops are closed on Sunday by two rules, where one is allowed and counted. -/
theorem nesting_of_run_restDays :
    (restDays 1).stats = {} ∧ (restDays 1).limits.maxDepth = some 1 ∧
      ∃ solution after, (restDays 1).run 4 [⟨⟨"closed", [⟨"sun"⟩]⟩, 0⟩] Partition.empty =
          some ⟨.ok [solution], after⟩ ∧ after.stats.maxDepth = 1 ∧ after.stats.ruleApplications = 2 ∧
        (∃ rules depth, LeadsTo ((restDays 1).start [⟨⟨"closed", [⟨"sun"⟩]⟩, 0⟩] Partition.empty) rules
          ⟨[], solution, depth⟩) ∧
        ∀ rules branch, LeadsTo ((restDays 1).start [⟨⟨"closed", [⟨"sun"⟩]⟩, 0⟩] Partition.empty) rules branch →
          rules.length ≤ 2 := by
  have evaluated : ((restDays 1).run 4 [⟨⟨"closed", [⟨"sun"⟩]⟩, 0⟩] Partition.empty).map
      (fun outcome => (outcome.result.map List.length, outcome.search.stats)) = some (.ok 1, ⟨2, 0, 2, 1, 1⟩) := by cbv
  obtain ⟨⟨result, after⟩, ran, read⟩ := Option.map_eq_some_iff.mp evaluated
  obtain ⟨same, stats⟩ := Prod.mk.inj read
  cases result with
  | error error => cases same
  | ok found =>
    obtain ⟨solution, rfl⟩ := List.length_eq_one_iff.mp (Except.ok.inj same)
    obtain ⟨_, solved, bounded, _⟩ := nesting_of_run rfl rfl ran
    have deepest : after.stats.maxDepth = 1 := congrArg Stats.maxDepth stats
    refine ⟨rfl, rfl, solution, after, ran, deepest, congrArg Stats.ruleApplications stats,
      solved solution (List.mem_singleton.mpr rfl), fun rules branch leads => ?_⟩
    rcases bounded rules branch leads with most | ⟨more, _⟩ <;> omega

/-- No rule is allowed, and still Sunday is a day of rest by one. It is not counted either. -/
theorem unlimited_last_rule :
    (restDays 0).stats = {} ∧ (restDays 0).limits.maxDepth = some 0 ∧
      ∃ solution after rule, (restDays 0).run 3 [⟨⟨"rest", [⟨"sun"⟩]⟩, 0⟩] Partition.empty =
          some ⟨.ok [solution], after⟩ ∧ after.stats.maxDepth = 0 ∧
        LeadsTo ((restDays 0).start [⟨⟨"rest", [⟨"sun"⟩]⟩, 0⟩] Partition.empty) [rule] ⟨[], solution, 1⟩ := by
  have given : (⟨⟨"rest", [⟨"sun"⟩]⟩, []⟩, 2) ∈ instances (countStep (restDays 0) 0) :=
    List.mem_of_getElem? (getElem?_instances.mpr ⟨rfl, rfl⟩ : (instances (countStep (restDays 0) 0))[1]? = _)
  refine ⟨rfl, rfl, ⟨#[⟨.const "sun", 0, 0, some "sun"⟩]⟩,
    { restDays 0 with supply := ⟨3⟩, stats := ⟨1, 0, 1, 1, 0⟩ }, ⟨⟨"rest", [⟨"sun"⟩]⟩, []⟩, by cbv, rfl, ?_⟩
  change LeadsTo _ ([] ++ [_]) ⟨[] ++ [], _, 0 + 1⟩
  exact .rule (.start (List.mem_singleton.mpr rfl)) .refl rfl given (by cbv)

end Backchain.Proofs
