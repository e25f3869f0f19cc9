import Backchain.Proofs.Expansion
import Backchain.Proofs.SearchLimits
import Mathlib.Logic.Hydra

/-! Why runs end. A run ends if its steps go down in a well-founded order, and for that it is enough that branches do: a
step takes one branch away and puts finitely many lower ones in its place. Under a limit there always is such an order,
be the rules as recursive as they like. -/

namespace Backchain.Proofs
open Relation

variable {search : Search} {run next : Run} {outcome : Outcome} {depth fuel : Nat}

/-! ### One step -/

/-- The errors that say that a limit is exceeded which has been set. -/
inductive OfLimits (limits : Limits) : LimitError → Prop where
  | depth {limit : Nat} (set : limits.maxDepth = some limit) : OfLimits limits (.depthExceeded limit)
  | steps {limit : Nat} (set : limits.maxSteps = some limit) : OfLimits limits (.stepsExceeded limit)

theorem Breaks.ofLimits {limits : Limits} {step : Nat} {error : LimitError} (breaks : Breaks limits depth step error) :
    OfLimits limits error := by
  cases breaks with
  | depth set => exact .depth set
  | steps _ set => exact .steps set

theorem not_breaks_iff {limits : Limits} {step : Nat} : (∀ error, ¬ Breaks limits depth step error) ↔
    (∀ limit, limits.maxDepth = some limit → depth ≤ limit) ∧ ∀ limit, limits.maxSteps = some limit → step ≤ limit := by
  constructor
  · intro allowed
    have shallow : ∀ limit, limits.maxDepth = some limit → depth ≤ limit :=
      fun limit set => Nat.le_of_not_lt fun deeper => allowed _ (.depth set deeper)
    exact ⟨shallow, fun limit set => Nat.le_of_not_lt fun more => allowed _ (.steps shallow set more)⟩
  · rintro ⟨shallow, few⟩ error breaks
    cases breaks with
    | depth set deeper => exact Nat.not_lt_of_le (shallow _ set) deeper
    | steps _ set more => exact Nat.not_lt_of_le (few _ set) more

theorem enter_cases (search : Search) (depth : Nat) :
    ((∀ error, ¬ Breaks search.limits depth (search.stats.steps + 1) error) ∧
        search.enter depth = (none, countStep search depth)) ∨
      ∃ error, Breaks search.limits depth (search.stats.steps + 1) error ∧
        search.enter depth = (some error, stoppedAt search error) := by
  by_cases breaks : ∃ error, Breaks search.limits depth (search.stats.steps + 1) error
  · obtain ⟨error, breaks⟩ := breaks
    refine Or.inr ⟨error, breaks, (enter_breaks breaks).trans ?_⟩
    cases error <;> rfl
  · have allowed := not_exists.mp breaks
    exact Or.inl ⟨allowed, enter_allowed allowed⟩

/-- What a step makes of a run that goes on. -/
inductive Steps : Run → Run → Prop where
  | solution {search : Search} {partition : Partition} {depth : Nat} {pending : List Branch} {found : List Partition} :
      Steps ⟨search, ⟨[], partition, depth⟩ :: pending, found⟩ ⟨search.countSolution, pending, partition :: found⟩
  | expansion {search : Search} {goal : ScopedAtom} {rest : List ScopedAtom} {partition : Partition} {depth : Nat}
      {pending : List Branch} {found : List Partition}
      (allowed : ∀ error, ¬ Breaks search.limits depth (search.stats.steps + 1) error) :
      Steps ⟨search, ⟨goal :: rest, partition, depth⟩ :: pending, found⟩
        ⟨((countStep search depth).expand goal rest partition depth).2,
          ((countStep search depth).expand goal rest partition depth).1 ++ pending, found⟩

/-- How a run ends: when no branch is left, or at a goal that breaks a limit. -/
inductive Stops : Run → Outcome → Prop where
  | explored {search : Search} {found : List Partition} : Stops ⟨search, [], found⟩ ⟨.ok found.reverse, search⟩
  | stopped {search : Search} {goal : ScopedAtom} {rest : List ScopedAtom} {partition : Partition} {depth : Nat}
      {pending : List Branch} {found : List Partition} {error : LimitError}
      (breaks : Breaks search.limits depth (search.stats.steps + 1) error) :
      Stops ⟨search, ⟨goal :: rest, partition, depth⟩ :: pending, found⟩ ⟨.error error, stoppedAt search error⟩

theorem step_spec (run : Run) :
    match run.step with
    | .running next => Steps run next
    | .ended outcome => Stops run outcome := by
  obtain ⟨search, pending, found⟩ := run
  cases pending with
  | nil => exact .explored
  | cons branch pending =>
    obtain ⟨goals, partition, depth⟩ := branch
    cases goals with
    | nil => exact .solution
    | cons goal rest =>
      rcases enter_cases search depth with ⟨allowed, entered⟩ | ⟨error, breaks, entered⟩
      · simp only [Run.step, entered]
        exact .expansion allowed
      · simp only [Run.step, entered]
        exact .stopped breaks

theorem Steps.keeps (steps : Steps run next) :
    next.search.database = run.search.database ∧ next.search.limits = run.search.limits := by
  cases steps <;> exact ⟨rfl, rfl⟩

/-- What holds of the end of a run, and at every step if it holds after the step, holds of the whole run. -/
theorem finish_induction {motive : Nat → Run → Outcome → Prop}
    (stops : ∀ fuel run outcome, run.step = .ended outcome → Stops run outcome → motive (fuel + 1) run outcome)
    (steps : ∀ fuel run next outcome, run.step = .running next → Steps run next → motive fuel next outcome →
      motive (fuel + 1) run outcome)
    (ended : run.finish fuel = some outcome) : motive fuel run outcome := by
  induction fuel generalizing run with
  | zero => cases ended
  | succ fuel ih =>
    have spec := step_spec run
    rw [Run.finish] at ended
    cases stepped : run.step with
    | ended final =>
      rw [stepped] at spec ended
      obtain rfl := Option.some.inj ended
      exact stops fuel run final stepped spec
    | running next =>
      rw [stepped] at spec ended
      exact steps fuel run next outcome stepped spec (ih ended)

theorem Stops.keeps (stops : Stops run outcome) :
    outcome.search.database = run.search.database ∧ outcome.search.limits = run.search.limits := by
  cases stops with
  | explored => exact ⟨rfl, rfl⟩
  | stopped breaks => cases breaks <;> exact ⟨rfl, rfl⟩

theorem finish_keeps (ended : run.finish fuel = some outcome) :
    outcome.search.database = run.search.database ∧ outcome.search.limits = run.search.limits := by
  refine finish_induction (motive := fun _ run outcome => outcome.search.database = run.search.database ∧
    outcome.search.limits = run.search.limits) ?_ ?_ ended
  · exact fun _ _ _ _ stops => stops.keeps
  · intro _ run next outcome _ steps keeps
    rwa [steps.keeps.1, steps.keeps.2] at keeps

/-- A run ends well, or with an error of its limits. -/
def EndsWithin (limits : Limits) (outcome : Outcome) : Prop :=
  (∃ found, outcome.result = .ok found) ∨ ∃ error, outcome.result = .error error ∧ OfLimits limits error

theorem Stops.within (stops : Stops run outcome) : EndsWithin run.search.limits outcome := by
  cases stops with
  | explored => exact Or.inl ⟨_, rfl⟩
  | stopped breaks => exact Or.inr ⟨_, rfl, breaks.ofLimits⟩

theorem endsWithin_of_finish (ended : run.finish fuel = some outcome) : EndsWithin run.search.limits outcome := by
  refine finish_induction (motive := fun _ run outcome => EndsWithin run.search.limits outcome) ?_ ?_ ended
  · exact fun _ _ _ _ stops => stops.within
  · intro _ run next outcome _ steps within
    rwa [steps.keeps.2] at within

/-! ### Runs that go down -/

/-- A run ends if each of its steps goes down in a well-founded order. -/
theorem exists_finish_of_wellFounded {α : Type} {below : α → α → Prop} (wellFounded : WellFounded below)
    (rank : Run → α) (kept : Run → Prop)
    (down : ∀ run next, kept run → Steps run next → kept next ∧ below (rank next) (rank run)) (holds : kept run) :
    ∃ fuel outcome, run.finish fuel = some outcome := by
  induction reached : rank run using wellFounded.induction generalizing run with
  | _ height ih =>
    have spec := step_spec run
    cases stepped : run.step with
    | ended outcome => exact ⟨1, outcome, by rw [Run.finish, stepped]⟩
    | running next =>
      rw [stepped] at spec
      obtain ⟨keeps, lower⟩ := down run next holds spec
      obtain ⟨fuel, outcome, ended⟩ := ih (rank next) (reached ▸ lower) keeps rfl
      exact ⟨fuel + 1, outcome, by rw [Run.finish, stepped]; exact ended⟩

/-- Replacing the first item by lower ones takes a list down as a multiset of ranks. -/
theorem cutExpand_replace {α β : Type} {below : β → β → Prop} {rank : α → β} (item : α) {items : List α}
    (lower : ∀ other ∈ items, below (rank other) (rank item)) (rest : List α) :
    CutExpand below ((items ++ rest).map rank : List β) ((item :: rest).map rank : List β) := by
  rw [List.map_append, List.map_cons, ← Multiset.coe_add, ← Multiset.cons_coe, ← Multiset.singleton_add,
    cutExpand_add_right]
  apply cutExpand_singleton
  simpa using lower

/-- A run ends if the children of its branches are lower than their parents, as far as the depth limit lets them be
expanded: the pending branches then go down as a multiset. -/
theorem exists_finish_of_child {α : Type} {below : α → α → Prop} (wellFounded : WellFounded below) (rank : Branch → α)
    {database : Database} {limits : Limits}
    (lower : ∀ child branch, Child database child branch →
      (∀ limit, limits.maxDepth = some limit → branch.depth ≤ limit) → below (rank child) (rank branch))
    (sameDatabase : run.search.database = database) (sameLimits : run.search.limits = limits) :
    ∃ fuel outcome, run.finish fuel = some outcome := by
  refine exists_finish_of_wellFounded wellFounded.cutExpand (fun run => (run.pending.map rank : List α))
    (fun run => run.search.database = database ∧ run.search.limits = limits) ?_ ⟨sameDatabase, sameLimits⟩
  rintro run next ⟨sameDatabase, sameLimits⟩ steps
  have keeps := steps.keeps
  refine ⟨⟨keeps.1.trans sameDatabase, keeps.2.trans sameLimits⟩, ?_⟩
  cases steps with
  | @solution search partition depth pending found =>
    exact cutExpand_replace ⟨[], partition, depth⟩ (List.forall_mem_nil _) pending
  | @expansion search goal rest partition depth pending found allowed =>
    refine cutExpand_replace _ (fun child member => lower child _ ?_ fun limit set => ?_) pending
    · rw [← sameDatabase]
      exact child_of_mem_expand member
    · rw [← sameLimits] at set
      exact (not_breaks_iff.mp allowed).1 limit set

/-! ### Limits -/

/-- Rules take a branch deeper, and facts leave it with fewer goals at the same depth. -/
theorem exists_finish_of_maxDepth {limit : Nat} (set : run.search.limits.maxDepth = some limit) :
    ∃ fuel outcome, run.finish fuel = some outcome := by
  refine exists_finish_of_child (Nat.lt_wfRel.wf.prod_lex Nat.lt_wfRel.wf)
    (fun branch => (limit + 1 - branch.depth, branch.goals.length)) ?_ rfl rfl
  intro child branch isChild shallow
  have inside := shallow limit set
  cases isChild with
  | fact => exact .right _ (Nat.lt_succ_self _)
  | @rule _ _ _ _ _ _ depth =>
    refine .left _ _ ?_
    change depth ≤ limit at inside
    change limit + 1 - (depth + 1) < limit + 1 - depth
    omega

/-- Expansions use up steps, and solutions take a branch away without one. -/
theorem exists_finish_of_maxSteps {limit : Nat} (set : run.search.limits.maxSteps = some limit) :
    ∃ fuel outcome, run.finish fuel = some outcome := by
  refine exists_finish_of_wellFounded (Nat.lt_wfRel.wf.prod_lex Nat.lt_wfRel.wf)
    (fun run => (limit - run.search.stats.steps, run.pending.length))
    (fun run => run.search.limits.maxSteps = some limit) ?_ set
  intro run next set steps
  refine ⟨by rw [steps.keeps.2, set], ?_⟩
  cases steps with
  | solution => exact .right _ (Nat.lt_succ_self _)
  | @expansion search goal rest partition depth pending found allowed =>
    refine .left _ _ ?_
    have few : search.stats.steps + 1 ≤ limit := (not_breaks_iff.mp allowed).2 limit set
    change limit - (search.stats.steps + 1) < limit - search.stats.steps
    omega

/-- Under a limit of either kind every run ends, well or with the error of a limit that is set: for any database, goals and
partition, and wherever the search stands. -/
theorem run_returns_of_limited (search : Search)
    (limited : (∃ limit, search.limits.maxDepth = some limit) ∨ ∃ limit, search.limits.maxSteps = some limit)
    (goals : List ScopedAtom) (start : Partition) :
    ∃ enough outcome, (∀ fuel, enough ≤ fuel → search.run fuel goals start = some outcome) ∧
      ((∃ found, outcome.result = .ok found) ∨
        (∃ limit, search.limits.maxDepth = some limit ∧ outcome.result = .error (.depthExceeded limit)) ∨
        ∃ limit, search.limits.maxSteps = some limit ∧ outcome.result = .error (.stepsExceeded limit)) := by
  have ends : ∃ fuel outcome, (search.start goals start).finish fuel = some outcome := by
    rcases limited with ⟨limit, set⟩ | ⟨limit, set⟩
    · exact exists_finish_of_maxDepth set
    · exact exists_finish_of_maxSteps set
  obtain ⟨fuel, outcome, ended⟩ := ends
  refine ⟨fuel, outcome, fun more enough => Run.finish_of_le ended enough, ?_⟩
  rcases endsWithin_of_finish ended with found | ⟨error, failed, set⟩
  · exact Or.inl found
  · cases set with
    | depth set => exact Or.inr (Or.inl ⟨_, set, failed⟩)
    | steps set => exact Or.inr (Or.inr ⟨_, set, failed⟩)

/-- Everyone knows whom those know whom they know, and ann knows anyone. The rule calls itself twice, and first of all. -/
def acquaintances (limits : Limits) : Search where
  database := {
    facts := [⟨"knows", [⟨"ann"⟩, ⟨"Anyone"⟩]⟩]
    rules := [⟨⟨"knows", [⟨"X"⟩, ⟨"Z"⟩]⟩, [⟨"knows", [⟨"X"⟩, ⟨"Y"⟩]⟩, ⟨"knows", [⟨"Y"⟩, ⟨"Z"⟩]⟩]⟩] }
  limits := limits
  supply := ⟨1⟩

def knownToAnn : List ScopedAtom := [⟨⟨"knows", [⟨"ann"⟩, ⟨"W"⟩]⟩, 0⟩]

theorem run_returns_of_limited_acquaintances :
    (∃ limit, (acquaintances ⟨some 1, none⟩).limits.maxDepth = some limit) ∧
      (∃ enough after, ∀ fuel, enough ≤ fuel → (acquaintances ⟨some 1, none⟩).run fuel knownToAnn Partition.empty =
        some ⟨.error (.depthExceeded 1), after⟩) ∧
      (∃ limit, (acquaintances ⟨none, some 3⟩).limits.maxSteps = some limit) ∧
      ∃ enough after, ∀ fuel, enough ≤ fuel → (acquaintances ⟨none, some 3⟩).run fuel knownToAnn Partition.empty =
        some ⟨.error (.stepsExceeded 3), after⟩ := by
  have known {limits : Limits} {error : LimitError} {enough : Nat} {outcome : Outcome}
      (returns : ∀ fuel, enough ≤ fuel → (acquaintances limits).run fuel knownToAnn Partition.empty = some outcome)
      (evaluated : ((acquaintances limits).run 9 knownToAnn Partition.empty).map
        (fun outcome => outcome.result.map List.length) = some (.error error)) :
      outcome = ⟨.error error, outcome.search⟩ := by
    obtain ⟨ended, same, failed⟩ := Option.map_eq_some_iff.mp evaluated
    obtain rfl : ended = outcome := finish_unique (returns enough (Nat.le_refl _)) same
    obtain ⟨result, after⟩ := ended
    cases result <;> cases failed
    rfl
  obtain ⟨enough, outcome, returns, _⟩ := run_returns_of_limited (acquaintances ⟨some 1, none⟩)
    (Or.inl ⟨1, rfl⟩) knownToAnn Partition.empty
  obtain ⟨later, other, ends, _⟩ := run_returns_of_limited (acquaintances ⟨none, some 3⟩)
    (Or.inr ⟨3, rfl⟩) knownToAnn Partition.empty
  rw [known returns (by cbv)] at returns
  rw [known ends (by cbv)] at ends
  exact ⟨⟨1, rfl⟩, ⟨enough, _, returns⟩, ⟨3, rfl⟩, later, _, ends⟩

end Backchain.Proofs
