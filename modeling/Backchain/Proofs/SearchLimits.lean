import Backchain.Search.Run

/-! A run under limits against the same run without any. The two go the same way, step by step, up to the first goal
that lies too deep or is one too many. If there is one, the limited run ends there with an error, and otherwise the
limits leave no trace. -/

namespace Backchain.Proofs

variable {σ : Type}

/-- The depth of the goal that the next step expands, if it expands one. -/
def goalDepth? (run : Run σ) : Option Nat :=
  match run.pending with
  | ⟨_ :: _, _, depth⟩ :: _ => some depth
  | _ => none

/-- The run comes to a goal of this depth after so many expansions, and the search stands as given just before it. -/
inductive Expands [ScopeSource σ] : Run σ → Nat → Nat → Search σ → Prop where
  | now {run : Run σ} {depth : Nat} (goal : goalDepth? run = some depth) : Expands run 0 depth run.search
  | afterExpansion {run next : Run σ} {first index depth : Nat} {before : Search σ} (goal : goalDepth? run = some first)
      (stepped : run.step = .running next) (later : Expands next index depth before) :
      Expands run (index + 1) depth before
  | afterSolution {run next : Run σ} {index depth : Nat} {before : Search σ} (goal : goalDepth? run = none)
      (stepped : run.step = .running next) (later : Expands next index depth before) :
      Expands run index depth before

/-- The error of a goal at this depth that is to be expanded by this step. A goal that is too deep is not a step. -/
inductive Breaks (limits : Limits) (depth step : Nat) : LimitError → Prop where
  | depth {limit : Nat} (set : limits.maxDepth = some limit) (deeper : limit < depth) :
      Breaks limits depth step (.depthExceeded limit)
  | steps {limit : Nat} (shallow : ∀ limit, limits.maxDepth = some limit → depth ≤ limit)
      (set : limits.maxSteps = some limit) (more : limit < step) : Breaks limits depth step (.stepsExceeded limit)

/-- What the search has counted when it stops. The step that is one too many is counted all the same. -/
def stoppedAt (before : Search σ) : LimitError → Search σ
  | .depthExceeded _ => before
  | .stepsExceeded _ => { before with stats.steps := before.stats.steps + 1 }

/-! ### The same search under other limits -/

def limitSearch (limits : Limits) (search : Search σ) : Search σ := { search with limits }

def limitRun (limits : Limits) (run : Run σ) : Run σ := { run with search := limitSearch limits run.search }

def limitOutcome (limits : Limits) (outcome : Outcome σ) : Outcome σ :=
  { outcome with search := limitSearch limits outcome.search }

def countStep (search : Search σ) (depth : Nat) : Search σ :=
  { search with stats := { search.stats with
    steps := search.stats.steps + 1
    maxDepth := max search.stats.maxDepth depth } }

variable {limits : Limits} {search before : Search σ} {run next : Run σ} {outcome : Outcome σ}
  {depth index fuel : Nat} {error : LimitError}

theorem not_breaks_unbounded {step : Nat} : ¬ Breaks .unbounded depth step error := by
  intro breaks
  cases breaks with
  | depth set => cases set
  | steps _ set => cases set

theorem depthExceeded?_eq_none (shallow : ∀ limit, limits.maxDepth = some limit → depth ≤ limit) :
    Search.depthExceeded? limits depth = none := by
  rw [Search.depthExceeded?]
  cases set : limits.maxDepth with
  | none => rfl
  | some limit => exact if_neg (Nat.not_lt_of_le (shallow limit set))

theorem stepsExceeded?_eq_none {steps : Nat} (few : ∀ limit, limits.maxSteps = some limit → steps ≤ limit) :
    Search.stepsExceeded? limits steps = none := by
  rw [Search.stepsExceeded?]
  cases set : limits.maxSteps with
  | none => rfl
  | some limit => exact if_neg (Nat.not_lt_of_le (few limit set))

theorem enter_allowed (allowed : ∀ error, ¬ Breaks limits depth (search.stats.steps + 1) error) :
    (limitSearch limits search).enter depth = (none, limitSearch limits (countStep search depth)) := by
  have shallow : ∀ limit, limits.maxDepth = some limit → depth ≤ limit :=
    fun limit set => Nat.le_of_not_lt fun deeper => allowed _ (.depth set deeper)
  have few : ∀ limit, limits.maxSteps = some limit → search.stats.steps + 1 ≤ limit :=
    fun limit set => Nat.le_of_not_lt fun more => allowed _ (.steps shallow set more)
  simp only [Search.enter, limitSearch, countStep, depthExceeded?_eq_none shallow, stepsExceeded?_eq_none few]

theorem enter_breaks (breaks : Breaks limits depth (search.stats.steps + 1) error) :
    (limitSearch limits search).enter depth = (some error, limitSearch limits (stoppedAt search error)) := by
  cases breaks with
  | depth set deeper => simp only [Search.enter, Search.depthExceeded?, limitSearch, stoppedAt, set, if_pos deeper]
  | @steps limit shallow set more =>
    have exceeded : Search.stepsExceeded? limits (search.stats.steps + 1) = some (.stepsExceeded limit) := by
      simp only [Search.stepsExceeded?, set, if_pos more]
    simp only [Search.enter, limitSearch, stoppedAt, depthExceeded?_eq_none shallow, exceeded]

/-! ### One step -/

/-- The limits let the run expand its next goal, if there is one. -/
def Allows (limits : Limits) (run : Run σ) : Prop :=
  ∀ depth, goalDepth? run = some depth → ∀ error, ¬ Breaks limits depth (run.search.stats.steps + 1) error

theorem allows_of_goalDepth?_eq_none (solved : goalDepth? run = none) : Allows limits run := by
  intro depth goal
  rw [solved] at goal
  cases goal

theorem allows_unbounded (run : Run σ) : Allows .unbounded run := fun _ _ _ => not_breaks_unbounded

variable [ScopeSource σ]

/-- All limits that allow the next step agree on it. -/
theorem step_allowed (run : Run σ) :
    (∃ found, ∀ limits, (limitRun limits run).step = .ended ⟨.ok found, limitSearch limits run.search⟩) ∨
      ∃ next, next.search.stats.steps = run.search.stats.steps + (goalDepth? run).toList.length ∧
        ∀ limits, Allows limits run → (limitRun limits run).step = .running (limitRun limits next) := by
  obtain ⟨search, pending, found⟩ := run
  cases pending with
  | nil => exact Or.inl ⟨found.reverse, fun _ => rfl⟩
  | cons branch pending =>
    obtain ⟨goals, partition, depth⟩ := branch
    cases goals with
    | nil => exact Or.inr ⟨⟨search.countSolution, pending, partition :: found⟩, rfl, fun _ _ => rfl⟩
    | cons goal rest =>
      refine Or.inr ⟨⟨((countStep search depth).expand goal rest partition depth).2,
        ((countStep search depth).expand goal rest partition depth).1 ++ pending, found⟩, rfl, fun limits allowed => ?_⟩
      have entered := enter_allowed (allowed depth rfl)
      simp only [Run.step, limitRun, entered]
      rfl

theorem step_breaks (goal : goalDepth? run = some depth) (breaks : Breaks limits depth (run.search.stats.steps + 1) error) :
    (limitRun limits run).step = .ended ⟨.error error, limitSearch limits (stoppedAt run.search error)⟩ := by
  obtain ⟨search, pending, found⟩ := run
  match pending, goal with
  | ⟨goal :: rest, partition, depth⟩ :: pending, rfl =>
    have entered := enter_breaks breaks
    simp only [Run.step, limitRun, entered]

/-! ### Whole runs -/

theorem Expands.of_step (stepped : run.step = .running next) (expands : Expands next index depth before) :
    Expands run (index + (goalDepth? run).toList.length) depth before := by
  cases goal : goalDepth? run with
  | none => exact .afterSolution goal stepped expands
  | some first => exact .afterExpansion goal stepped expands

/-- The limits forbid none of the first expansions of the unlimited run. -/
def AllowsFirst (limits : Limits) (run : Run σ) (count : Nat) : Prop :=
  ∀ index < count, ∀ depth before, Expands (limitRun .unbounded run) index depth before →
    ∀ error, ¬ Breaks limits depth (run.search.stats.steps + index + 1) error

namespace AllowsFirst
variable {count : Nat}

theorem allows (allowed : AllowsFirst limits run count) (positive : 0 < count) : Allows limits run :=
  fun depth goal => allowed 0 positive depth _ (.now goal)

theorem after_step (allowed : AllowsFirst limits run (count + (goalDepth? run).toList.length))
    (steps : next.search.stats.steps = run.search.stats.steps + (goalDepth? run).toList.length)
    (stepped : (limitRun .unbounded run).step = .running (limitRun .unbounded next)) : AllowsFirst limits next count := by
  intro index inside depth before expands error breaks
  refine allowed _ (Nat.add_lt_add_right inside _) depth before (expands.of_step stepped) error ?_
  rwa [steps, Nat.add_assoc run.search.stats.steps, Nat.add_comm _ index] at breaks

end AllowsFirst

theorem finish_of_allowsFirst (allowed : ∀ count, AllowsFirst limits run count) (fuel : Nat) :
    (limitRun limits run).finish fuel = ((limitRun .unbounded run).finish fuel).map (limitOutcome limits) := by
  induction fuel generalizing run with
  | zero => rfl
  | succ fuel ih =>
    rw [Run.finish, Run.finish]
    rcases step_allowed run with ⟨found, ended⟩ | ⟨next, steps, stepped⟩
    · rw [ended, ended]
      rfl
    · have unlimited := stepped .unbounded (allows_unbounded run)
      rw [stepped limits ((allowed 1).allows Nat.one_pos), unlimited]
      exact ih fun count => (allowed _).after_step steps unlimited

theorem finish_ok_of_unbounded (finished : (limitRun .unbounded run).finish fuel = some outcome) :
    ∃ found, outcome.result = .ok found := by
  induction fuel generalizing run with
  | zero => cases finished
  | succ fuel ih =>
    rw [Run.finish] at finished
    rcases step_allowed run with ⟨found, ended⟩ | ⟨next, _, stepped⟩
    · rw [ended] at finished
      cases finished
      exact ⟨found, rfl⟩
    · rw [stepped .unbounded (allows_unbounded run)] at finished
      exact ih finished

theorem exists_found_of_unbounded {search : Search σ} {goals : List ScopedAtom} {start : Partition}
    (free : search.limits = .unbounded) (ran : search.run fuel goals start = some outcome) :
    ∃ found after, outcome = ⟨.ok found, after⟩ := by
  have same : limitRun .unbounded (search.start goals start) = search.start goals start := by
    rw [limitRun, limitSearch, ← free]
    rfl
  rw [Search.run, ← same] at ran
  obtain ⟨result, after⟩ := outcome
  obtain ⟨found, rfl⟩ := finish_ok_of_unbounded ran
  exact ⟨found, after, rfl⟩

/-- The limited run takes every step of the unlimited one that it is allowed. -/
theorem exists_next {free : Run σ} (allowed : Allows limits run) (stepped : (limitRun .unbounded run).step = .running free) :
    ∃ next, limitRun .unbounded next = free ∧ (limitRun limits run).step = .running (limitRun limits next) ∧
      next.search.stats.steps = run.search.stats.steps + (goalDepth? run).toList.length := by
  obtain ⟨found, ended⟩ | ⟨next, steps, running⟩ := step_allowed run
  · rw [ended] at stepped
    cases stepped
  · rw [running .unbounded (allows_unbounded run)] at stepped
    exact ⟨next, Progress.running.inj stepped, running limits allowed, steps⟩

/-- The first expansion that breaks a limit is the last that the limited run comes to. -/
theorem exists_finish_of_breaks (expands : Expands (limitRun .unbounded run) index depth before)
    (allowed : AllowsFirst limits run index) (breaks : Breaks limits depth (run.search.stats.steps + index + 1) error) :
    ∃ fuel, (limitRun limits run).finish fuel = some ⟨.error error, limitSearch limits (stoppedAt before error)⟩ := by
  generalize same : limitRun .unbounded run = free at expands
  induction expands generalizing run with
  | now goal =>
    subst same
    have ended : (limitRun limits run).step = _ := step_breaks goal breaks
    refine ⟨1, ?_⟩
    rw [Run.finish, ended]
    cases error <;> rfl
  | @afterExpansion _ _ first index _ _ goal stepped later ih =>
    subst same
    obtain ⟨next, rfl, running, steps⟩ := exists_next (allowed.allows (Nat.succ_pos index)) stepped
    change goalDepth? run = some first at goal
    have kept : AllowsFirst limits next index := by
      refine AllowsFirst.after_step ?_ steps stepped
      rwa [goal]
    rw [goal, Option.toList_some, List.length_singleton] at steps
    obtain ⟨fuel, finished⟩ := ih kept (by rwa [steps, Nat.add_assoc _ 1, Nat.add_comm 1]) rfl
    exact ⟨fuel + 1, by rw [Run.finish, running]; exact finished⟩
  | @afterSolution _ _ index _ _ goal stepped later ih =>
    subst same
    change goalDepth? run = none at goal
    obtain ⟨next, rfl, running, steps⟩ := exists_next (allows_of_goalDepth?_eq_none goal) stepped
    have kept : AllowsFirst limits next index := by
      refine AllowsFirst.after_step ?_ steps stepped
      rwa [goal]
    rw [goal] at steps
    obtain ⟨fuel, finished⟩ := ih kept (by rwa [steps]) rfl
    exact ⟨fuel + 1, by rw [Run.finish, running]; exact finished⟩

theorem finish_unique {more : Nat} {other : Outcome σ} (ended : run.finish fuel = some outcome)
    (again : run.finish more = some other) : other = outcome := by
  have first := Run.finish_of_le ended (Nat.le_max_left fuel more)
  have second := Run.finish_of_le again (Nat.le_max_right fuel more)
  exact Option.some.inj (second.symm.trans first)

/-- Limits never prune. If they allow all expansions of the unlimited run, then the limited run returns when the other
does, with the same solutions, counters and scopes. Otherwise it returns the error of the first expansion that
breaks one, and has counted what the unlimited run had before that expansion. -/
theorem run_limits_exact (search : Search σ) (goals : List ScopedAtom) (start : Partition) :
    ((∀ index depth before, Expands ((limitSearch .unbounded search).start goals start) index depth before →
        ∀ error, ¬ Breaks search.limits depth (search.stats.steps + index + 1) error) →
      ∀ fuel, search.run fuel goals start =
          ((limitSearch .unbounded search).run fuel goals start).map (limitOutcome search.limits) ∧
        ∀ outcome, (limitSearch .unbounded search).run fuel goals start = some outcome →
          ∃ found, outcome.result = .ok found) ∧
    ∀ index depth before error, Expands ((limitSearch .unbounded search).start goals start) index depth before →
      (∀ earlier < index, ∀ depth before,
        Expands ((limitSearch .unbounded search).start goals start) earlier depth before →
          ∀ error, ¬ Breaks search.limits depth (search.stats.steps + earlier + 1) error) →
      Breaks search.limits depth (search.stats.steps + index + 1) error →
      (∃ fuel, search.run fuel goals start =
        some ⟨.error error, limitSearch search.limits (stoppedAt before error)⟩) ∧
      ∀ fuel outcome, search.run fuel goals start = some outcome →
        outcome = ⟨.error error, limitSearch search.limits (stoppedAt before error)⟩ := by
  constructor
  · intro allowed fuel
    have first (count : Nat) : AllowsFirst search.limits (search.start goals start) count :=
      fun index _ => allowed index
    refine ⟨finish_of_allowsFirst first fuel, fun outcome returned => ?_⟩
    change (limitRun .unbounded (search.start goals start)).finish fuel = some outcome at returned
    exact finish_ok_of_unbounded returned
  · intro index depth before error expands allowed breaks
    change Expands (limitRun .unbounded (search.start goals start)) index depth before at expands
    obtain ⟨fuel, ended⟩ := exists_finish_of_breaks expands allowed breaks
    exact ⟨⟨fuel, ended⟩, fun more outcome again => finish_unique ended again⟩

/-- Who follows someone can reach them, and all whom those can reach. -/
def following : Database where
  facts := [⟨"follows", [⟨"ann"⟩, ⟨"bob"⟩]⟩]
  rules := [⟨⟨"reaches", [⟨"X"⟩, ⟨"Y"⟩]⟩, [⟨"reaches", [⟨"X"⟩, ⟨"Y"⟩]⟩]⟩]

/-- A search that has one scope left before its counter starts over. -/
def followers (limits : Limits) : Search ScopeCounter := { database := following, limits, supply := ⟨-1⟩ }

/-- One expansion is allowed, and no rule below it. That is enough for a fact, and not for a rule that calls itself:
its second goal would break either limit. -/
theorem run_limits_exact_following :
    ((followers ⟨some 0, some 1⟩).run 3 [⟨⟨"follows", [⟨"ann"⟩, ⟨"W"⟩]⟩, 0⟩] Partition.empty).map
        (fun outcome => (outcome.result.map List.length, outcome.search.stats, outcome.search.supply)) =
        some (.ok 1, ⟨1, 1, 0, 1, 0⟩, ⟨0⟩) ∧
      ∃ fuel after, (followers ⟨some 0, some 1⟩).run fuel [⟨⟨"reaches", [⟨"ann"⟩, ⟨"W"⟩]⟩, 0⟩]
        Partition.empty = some ⟨.error (.depthExceeded 0), after⟩ ∧ after.stats = ⟨1, 1, 1, 0, 0⟩ := by
  have allowed : ∀ error, ¬ Breaks ⟨some 0, some 1⟩ 0 1 error := by
    intro error breaks
    cases breaks with
    | depth set deeper => cases set; cases deeper
    | steps _ set more => cases set; exact Nat.lt_irrefl _ more
  constructor
  · obtain ⟨solution, first, solved, last, second, empty, outcome, ended⟩ : ∃ solution, ((followers .unbounded).start
        [⟨⟨"follows", [⟨"ann"⟩, ⟨"W"⟩]⟩, 0⟩] Partition.empty).step = .running solution ∧
        goalDepth? solution = none ∧ ∃ last, solution.step = .running last ∧ goalDepth? last = none ∧
        ∃ outcome, last.step = .ended outcome := ⟨_, by cbv, by cbv, _, by cbv, by cbv, _, by cbv⟩
    obtain ⟨same, _⟩ := (run_limits_exact (followers ⟨some 0, some 1⟩)
      [⟨⟨"follows", [⟨"ann"⟩, ⟨"W"⟩]⟩, 0⟩] Partition.empty).1 (by
        intro index depth before expands
        cases expands with
        | now goal => cases goal; exact allowed
        | afterExpansion _ stepped later =>
          obtain rfl := Progress.running.inj (first.symm.trans stepped)
          cases later with
          | now goal => cases solved.symm.trans goal
          | afterExpansion goal => cases solved.symm.trans goal
          | afterSolution _ stepped later =>
            obtain rfl := Progress.running.inj (second.symm.trans stepped)
            cases later with
            | now goal => cases empty.symm.trans goal
            | afterExpansion goal => cases empty.symm.trans goal
            | afterSolution _ stepped => cases ended.symm.trans stepped
        | afterSolution goal => cases goal) 3
    rw [same]
    cbv
  · obtain ⟨next, stepped, goal, stats⟩ : ∃ next, ((followers .unbounded).start
        [⟨⟨"reaches", [⟨"ann"⟩, ⟨"W"⟩]⟩, 0⟩] Partition.empty).step = .running next ∧ goalDepth? next = some 1 ∧
        next.search.stats = ⟨1, 1, 1, 0, 0⟩ := ⟨_, by cbv, by cbv, by cbv⟩
    obtain ⟨⟨fuel, ended⟩, _⟩ := (run_limits_exact (followers ⟨some 0, some 1⟩)
      [⟨⟨"reaches", [⟨"ann"⟩, ⟨"W"⟩]⟩, 0⟩] Partition.empty).2 1 1 _ _ (.afterExpansion rfl stepped (.now goal)) (by
        intro earlier inside depth before expands
        cases expands with
        | now goal => cases goal; exact allowed
        | afterExpansion => omega
        | afterSolution goal => cases goal) (.depth rfl Nat.one_pos)
    exact ⟨fuel, _, ended, stats⟩

end Backchain.Proofs
