import Backchain.Proofs.RunTermination

/-! What a search counts, through any number of runs. Facts tried and scopes drawn tell how many goals have been expanded,
and so do the steps, but for those that were one too many. A run that ends well has taken every branch away that it has
put there: its first one, and one for each clause that was used. -/

namespace Backchain.Proofs

/-! ### Expansions -/

/-- A goal that is expanded, and the equalities in force there. -/
structure Expanded where
  goal : ScopedAtom
  partition : Partition

/-- How many of the facts unify with the goal. -/
def Expanded.matching (facts : List Atom) (expanded : Expanded) : Nat :=
  facts.countP fun fact => (unify ⟨fact, expanded.goal.scope⟩ expanded.goal expanded.partition).isSome

/-- The goal that the next step is about, if it is about one. -/
def nextGoal (run : Run) : List Expanded :=
  match run.pending with
  | ⟨goal :: _, partition, _⟩ :: _ => [⟨goal, partition⟩]
  | _ => []

/-- The goals that the run expands within so many steps. A goal that breaks a limit is not expanded. -/
def expansions : (fuel : Nat) → Run → List Expanded
  | 0, _ => []
  | fuel + 1, run =>
    match run.step with
    | .ended _ => []
    | .running next => nextGoal run ++ expansions fuel next

variable {run next : Run} {outcome : Outcome} {fuel : Nat} {search : Search}

theorem expansions_of_ended (ended : run.step = .ended outcome) : expansions (fuel + 1) run = [] := by
  rw [expansions, ended]

theorem expansions_of_running (stepped : run.step = .running next) :
    expansions (fuel + 1) run = nextGoal run ++ expansions fuel next := by
  rw [expansions, stepped]

/-! ### One run -/

def exceedsSteps (outcome : Outcome) : Bool :=
  match outcome.result with
  | .error (.stepsExceeded _) => true
  | _ => false

/-- What the search has counted for the goals that it has expanded. -/
structure Counted (before : Search) (expanded : List Expanded) (outcome : Outcome) : Prop where
  unifications : outcome.search.stats.unifications =
    before.stats.unifications + before.database.facts.length * expanded.length
  scopes : outcome.search.supply.next = before.supply.next + before.database.rules.length * expanded.length
  steps : outcome.search.stats.steps = before.stats.steps + expanded.length + (exceedsSteps outcome).toNat

theorem counted_of_stops (stops : Stops run outcome) : Counted run.search [] outcome := by
  cases stops with
  | explored => exact ⟨rfl, rfl, rfl⟩
  | stopped breaks =>
    cases breaks with
    | depth => exact ⟨rfl, rfl, rfl⟩
    | steps => exact ⟨rfl, rfl, rfl⟩

theorem Steps.counts (steps : Steps run next) :
    next.search.stats.unifications =
        run.search.stats.unifications + run.search.database.facts.length * (nextGoal run).length ∧
      next.search.supply.next = run.search.supply.next + run.search.database.rules.length * (nextGoal run).length ∧
      next.search.stats.steps = run.search.stats.steps + (nextGoal run).length := by
  cases steps with
  | solution => exact ⟨rfl, rfl, rfl⟩
  | expansion =>
    simp only [nextGoal, List.length_singleton, Nat.mul_one]
    exact ⟨rfl, expand_next .., rfl⟩

theorem Counted.before_step {expanded : List Expanded} (steps : Steps run next)
    (counted : Counted next.search expanded outcome) : Counted run.search (nextGoal run ++ expanded) outcome := by
  have database := steps.keeps.1
  obtain ⟨unifications, scopes, total⟩ := steps.counts
  constructor
  · rw [counted.unifications, database, unifications, List.length_append, Nat.mul_add, Nat.add_assoc]
  · rw [counted.scopes, database, scopes, List.length_append, Nat.mul_add, Nat.add_assoc]
  · rw [counted.steps, total, List.length_append, Nat.add_assoc run.search.stats.steps]

theorem counted_of_finish (ended : run.finish fuel = some outcome) :
    Counted run.search (expansions fuel run) outcome := by
  refine finish_induction (motive := fun fuel run outcome => Counted run.search (expansions fuel run) outcome) ?_ ?_ ended
  · intro fuel run outcome ended stops
    rw [expansions_of_ended ended]
    exact counted_of_stops stops
  · intro fuel run next outcome stepped steps counted
    rw [expansions_of_running stepped]
    exact counted.before_step steps

/-! ### Depth -/

section
variable {goal : ScopedAtom} {rest : List ScopedAtom} {partition : Partition} {depth : Nat}

theorem length_factBranches (facts : List Atom) (goal : ScopedAtom) (rest : List ScopedAtom) (partition : Partition)
    (depth : Nat) : (Search.factBranches facts goal rest partition depth).length =
      Expanded.matching facts ⟨goal, partition⟩ := by
  simp [Search.factBranches, Expanded.matching, List.length_filterMap_eq_countP]

/-- A branch is no deeper than there are rules that have been applied. -/
theorem depth_le_of_mem_expand (below : depth ≤ search.stats.ruleApplications) {child : Branch}
    (member : child ∈ (search.expand goal rest partition depth).1) :
    child.depth ≤ (search.expand goal rest partition depth).2.stats.ruleApplications := by
  obtain fromFact | fromRule := List.mem_append.mp member
  · obtain ⟨fact, _, begun⟩ := List.mem_filterMap.mp fromFact
    obtain ⟨extended, _, rfl⟩ := Option.map_eq_some_iff.mp begun
    exact Nat.le_add_right_of_le below
  · have applied := List.length_pos_of_mem fromRule
    obtain ⟨⟨rule, scope⟩, _, begun⟩ := List.mem_filterMap.mp fromRule
    obtain ⟨⟨premises, extended⟩, _, rfl⟩ := Option.map_eq_some_iff.mp begun
    exact Nat.add_le_add below applied

end

/-- The depth that is kept is that of rules which have been applied, and of a goal that was allowed. -/
structure Shallow (search : Search) : Prop where
  applied : search.stats.maxDepth ≤ search.stats.ruleApplications
  allowed : ∀ limit, search.limits.maxDepth = some limit → search.stats.maxDepth ≤ limit

structure ShallowRun (run : Run) : Prop where
  search : Shallow run.search
  pending : ∀ branch ∈ run.pending, branch.depth ≤ run.search.stats.ruleApplications

theorem ShallowRun.step (shallow : ShallowRun run) (steps : Steps run next) : ShallowRun next := by
  obtain ⟨⟨applied, within⟩, pending⟩ := shallow
  cases steps with
  | solution => exact ⟨⟨applied, within⟩, (List.forall_mem_cons.mp pending).2⟩
  | @expansion search goal rest partition depth others found allowed =>
    obtain ⟨here, later⟩ := List.forall_mem_cons.mp pending
    refine ⟨⟨?_, ?_⟩, List.forall_mem_append.mpr ⟨?_, ?_⟩⟩
    · exact Nat.le_add_right_of_le (Nat.max_le.mpr ⟨applied, here⟩)
    · intro limit set
      exact Nat.max_le.mpr ⟨within limit set, (not_breaks_iff.mp allowed).1 limit set⟩
    · have kept : depth ≤ (countStep search depth).stats.ruleApplications := here
      exact fun child member => depth_le_of_mem_expand kept member
    · exact fun branch member => Nat.le_add_right_of_le (later branch member)

theorem Shallow.of_stops (shallow : Shallow run.search) (stops : Stops run outcome) : Shallow outcome.search := by
  obtain ⟨applied, within⟩ := shallow
  cases stops with
  | explored => exact ⟨applied, within⟩
  | stopped breaks => cases breaks <;> exact ⟨applied, within⟩

theorem ShallowRun.of_finish (shallow : ShallowRun run) (ended : run.finish fuel = some outcome) :
    Shallow outcome.search := by
  refine finish_induction (motive := fun _ run outcome => ShallowRun run → Shallow outcome.search) ?_ ?_ ended shallow
  · exact fun _ _ _ _ stops shallow => shallow.search.of_stops stops
  · exact fun _ _ _ _ _ steps later shallow => later (shallow.step steps)

/-! ### Branches put and taken away -/

def matchingSum (facts : List Atom) (expanded : List Expanded) : Nat := (expanded.map (Expanded.matching facts)).sum

/-- Every branch that was pending or was put there has been taken away, by an expansion or as a solution. -/
structure Balanced (run : Run) (expanded : List Expanded) (found : List Partition) (after : Search) : Prop where
  solutions : after.stats.solutions + run.found.length = run.search.stats.solutions + found.length
  branches : after.stats.steps + after.stats.solutions + run.search.stats.ruleApplications =
    run.search.stats.steps + run.search.stats.solutions + run.pending.length +
      matchingSum run.search.database.facts expanded + after.stats.ruleApplications

theorem Steps.balance (steps : Steps run next) :
    next.search.stats.solutions + run.found.length = run.search.stats.solutions + next.found.length ∧
      next.search.stats.steps + next.search.stats.solutions + next.pending.length +
          run.search.stats.ruleApplications =
        run.search.stats.steps + run.search.stats.solutions + run.pending.length +
          matchingSum run.search.database.facts (nextGoal run) + next.search.stats.ruleApplications := by
  cases steps with
  | @solution search partition depth pending found =>
    simp only [Search.countSolution, nextGoal, matchingSum, List.length_cons, List.map_nil, List.sum_nil]
    omega
  | @expansion search goal rest partition depth pending found allowed =>
    refine ⟨rfl, ?_⟩
    simp only [Search.expand, countStep, nextGoal, matchingSum, List.length_append, List.length_cons,
      length_factBranches, List.map_singleton, List.sum_singleton]
    omega

theorem Balanced.before_step {expanded : List Expanded} {found : List Partition} {after : Search}
    (steps : Steps run next) (balanced : Balanced next expanded found after) :
    Balanced run (nextGoal run ++ expanded) found after := by
  have database := steps.keeps.1
  obtain ⟨solved, counted⟩ := steps.balance
  obtain ⟨solutions, branches⟩ := balanced
  rw [database] at branches
  constructor
  · omega
  · rw [matchingSum, List.map_append, List.sum_append, ← matchingSum, ← matchingSum]
    omega

theorem balanced_of_finish {found : List Partition} {after : Search}
    (ended : run.finish fuel = some ⟨.ok found, after⟩) : Balanced run (expansions fuel run) found after := by
  refine finish_induction (motive := fun fuel run outcome => ∀ found, outcome.result = .ok found →
    Balanced run (expansions fuel run) found outcome.search) ?_ ?_ ended found rfl
  · intro fuel run outcome ended stops found well
    rw [expansions_of_ended ended]
    cases stops with
    | explored =>
      cases well
      exact ⟨by simp, rfl⟩
    | stopped => cases well
  · intro fuel run next outcome stepped steps later found well
    rw [expansions_of_running stepped]
    exact (later found well).before_step steps

/-! ### Runs in a row -/

/-- A run that has ended, with its own search as it was before. -/
structure Finished where
  before : Search
  goals : List ScopedAtom
  start : Partition
  fuel : Nat
  outcome : Outcome
  ended : before.run fuel goals start = some outcome

def Finished.expanded (run : Finished) : List Expanded := expansions run.fuel (run.before.start run.goals run.start)

/-- Runs on one search, each beginning as the one before has left it. -/
inductive InARow (first : Search) : List Finished → Search → Prop where
  | begun : InARow first [] first
  | ran {runs : List Finished} {search : Search} (earlier : InARow first runs search) (run : Finished)
      (continues : run.before = search) : InARow first (runs ++ [run]) run.outcome.search

variable {first last : Search} {runs : List Finished}

theorem InARow.keeps (row : InARow first runs last) :
    (last.database = first.database ∧ last.limits = first.limits) ∧
      ∀ run ∈ runs, run.before.database = first.database := by
  induction row with
  | begun => exact ⟨⟨rfl, rfl⟩, List.forall_mem_nil _⟩
  | ran _ run continues ih =>
    obtain ⟨⟨database, limits⟩, each⟩ := ih
    obtain ⟨sameDatabase, sameLimits⟩ := finish_keeps run.ended
    subst continues
    exact ⟨⟨sameDatabase.trans database, sameLimits.trans limits⟩,
      List.forall_mem_append.mpr ⟨each, List.forall_mem_singleton.mpr database⟩⟩

theorem InARow.shallow (row : InARow first runs last) (shallow : Shallow first) : Shallow last := by
  induction row with
  | begun => exact shallow
  | ran _ run continues ih =>
    subst continues
    have begun : ShallowRun (run.before.start run.goals run.start) :=
      ⟨ih, List.forall_mem_singleton.mpr (Nat.zero_le _)⟩
    exact begun.of_finish run.ended

/-- What all runs together have counted for the goals that they have expanded. -/
structure CountedAll (first : Search) (runs : List Finished) (last : Search) : Prop where
  unifications : last.stats.unifications =
    first.stats.unifications + first.database.facts.length * (runs.flatMap Finished.expanded).length
  scopes : last.supply.next =
    first.supply.next + first.database.rules.length * (runs.flatMap Finished.expanded).length
  steps : last.stats.steps = first.stats.steps + (runs.flatMap Finished.expanded).length +
    runs.countP (exceedsSteps ·.outcome)

theorem InARow.counted (row : InARow first runs last) : CountedAll first runs last := by
  induction row with
  | begun => exact ⟨rfl, rfl, rfl⟩
  | ran earlier run continues ih =>
    subst continues
    obtain ⟨unifications, scopes, steps⟩ := counted_of_finish run.ended
    have database := earlier.keeps.1.1
    constructor
    · rw [unifications]
      change run.before.stats.unifications + run.before.database.facts.length * run.expanded.length = _
      rw [ih.unifications, database]
      simp [Nat.mul_add, Nat.add_assoc]
    · rw [scopes]
      change run.before.supply.next + run.before.database.rules.length * run.expanded.length = _
      rw [ih.scopes, database]
      simp [Nat.mul_add, Nat.add_assoc]
    · rw [steps]
      change run.before.stats.steps + run.expanded.length + _ = _
      rw [ih.steps]
      cases exceeds : exceedsSteps run.outcome <;> simp [exceeds] <;> omega

/-- The counters of a search balance after any number of runs, however each of them has ended. All facts are tried and
a scope is drawn for every rule at each expansion; the steps are the expansions and those that were one too many; and
no rules are nested deeper than have been applied and are allowed. A run that ends well counts as many solutions as it
returns, and as many expansions and solutions as it has had branches: one to begin with, and one for every fact that
unified with a goal and every rule that was applied. -/
theorem counters_balance {database : Database} {limits : Limits} {supply : ScopeSupply}
    (row : InARow { database, limits, supply } runs last) :
    last.stats.unifications = database.facts.length * (runs.flatMap Finished.expanded).length ∧
      last.supply.next = supply.next + database.rules.length * (runs.flatMap Finished.expanded).length ∧
      last.stats.steps = (runs.flatMap Finished.expanded).length + runs.countP (exceedsSteps ·.outcome) ∧
      last.stats.maxDepth ≤ last.stats.ruleApplications ∧
      (∀ limit, limits.maxDepth = some limit → last.stats.maxDepth ≤ limit) ∧
      ∀ run ∈ runs, ∀ found, run.outcome.result = .ok found →
        run.outcome.search.stats.solutions = run.before.stats.solutions + found.length ∧
          ((run.outcome.search.stats.steps : Int) - run.before.stats.steps) +
              (run.outcome.search.stats.solutions - run.before.stats.solutions) =
            1 + matchingSum database.facts run.expanded +
              (run.outcome.search.stats.ruleApplications - run.before.stats.ruleApplications) := by
  obtain ⟨unifications, scopes, steps⟩ := row.counted
  obtain ⟨⟨_, sameLimits⟩, databases⟩ := row.keeps
  obtain ⟨applied, allowed⟩ := row.shallow ⟨Nat.le_refl _, fun limit _ => Nat.zero_le limit⟩
  rw [sameLimits] at allowed
  refine ⟨by simpa using unifications, scopes, by simpa using steps, applied, allowed, ?_⟩
  intro run member found well
  have ended : (run.before.start run.goals run.start).finish run.fuel = some ⟨.ok found, run.outcome.search⟩ := by
    rw [← well]
    exact run.ended
  obtain ⟨solutions, branches⟩ := balanced_of_finish ended
  have one : (run.before.start run.goals run.start).pending.length = 1 := rfl
  have none : (run.before.start run.goals run.start).found.length = 0 := rfl
  have sameSearch : (run.before.start run.goals run.start).search = run.before := rfl
  rw [sameSearch, databases run member, one] at branches
  rw [sameSearch, none] at solutions
  change _ = _ + matchingSum database.facts run.expanded + _ at branches
  omega

/-- Who owns something lends it. -/
def lending : Database where
  facts := [⟨"owns", [⟨"ann"⟩, ⟨"cart"⟩]⟩, ⟨"owns", [⟨"bob"⟩, ⟨"bike"⟩]⟩]
  rules := [⟨⟨"lends", [⟨"X"⟩, ⟨"Y"⟩]⟩, [⟨"owns", [⟨"X"⟩, ⟨"Y"⟩]⟩]⟩]

/-- Asks what ann lends. -/
def lendingRun (before : Search)
    (returns : (before.run 8 [⟨⟨"lends", [⟨"ann"⟩, ⟨"W"⟩]⟩, 0⟩] Partition.empty).isSome = true) : Finished :=
  ⟨before, _, _, 8, _, (Option.some_get returns).symm⟩

def firstLending : Finished := lendingRun ⟨lending, ⟨some 2, some 3⟩, ⟨1⟩, {}⟩ (by cbv)

def secondLending : Finished := lendingRun firstLending.outcome.search (by cbv)

/-- The first run finds the cart in two expansions, for a fact and a rule that fitted. The second run has only one
expansion left, and counts the next as a step all the same. -/
theorem counters_balance_lending :
    InARow { database := lending, limits := ⟨some 2, some 3⟩, supply := ⟨1⟩ } [firstLending, secondLending]
        secondLending.outcome.search ∧
      (∃ solution, firstLending.outcome.result = .ok [solution]) ∧
      exceedsSteps secondLending.outcome = true ∧
      secondLending.outcome.search.stats.unifications = 6 ∧ secondLending.outcome.search.supply.next = 4 ∧
      secondLending.outcome.search.stats.steps = 4 ∧ secondLending.outcome.search.stats.maxDepth ≤ 2 ∧
      (firstLending.outcome.search.stats.steps : Int) + firstLending.outcome.search.stats.solutions =
        2 + firstLending.outcome.search.stats.ruleApplications := by
  have row : InARow { database := lending, limits := ⟨some 2, some 3⟩, supply := ⟨1⟩ } [firstLending, secondLending]
      secondLending.outcome.search := .ran (.ran .begun firstLending rfl) secondLending rfl
  have evaluated : (([firstLending, secondLending].flatMap Finished.expanded).length,
      [firstLending, secondLending].countP (exceedsSteps ·.outcome), exceedsSteps secondLending.outcome,
      matchingSum lending.facts firstLending.expanded, firstLending.outcome.result.toOption.map List.length) =
        (3, 1, true, 1, some 1) := by cbv
  obtain ⟨expanded, one, exceeded, matched, well⟩ := by simpa only [Prod.mk.injEq] using evaluated
  obtain ⟨solution, found⟩ : ∃ solution, firstLending.outcome.result = .ok [solution] := by
    cases result : firstLending.outcome.result with
    | error error =>
      rw [result] at well
      cases well
    | ok found =>
      rw [result] at well
      obtain ⟨solution, rfl⟩ := List.length_eq_one_iff.mp (Option.some.inj well)
      exact ⟨solution, rfl⟩
  obtain ⟨unifications, scopes, steps, _, allowed, balanced⟩ := counters_balance row
  obtain ⟨_, branches⟩ := balanced firstLending (List.mem_cons_self ..) _ found
  have begun : firstLending.before.stats = {} := rfl
  rw [expanded] at unifications scopes steps
  rw [one] at steps
  rw [matched, begun] at branches
  exact ⟨row, ⟨solution, found⟩, exceeded, unifications, scopes, steps, allowed 2 rfl, by simpa using branches⟩

end Backchain.Proofs
