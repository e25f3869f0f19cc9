import Backchain.Search.Run

/-! The search as a recursion without a stack. A branch is explored with all that comes of it before the next one is
begun, and an error ends everything. A run computes this recursion: it ends exactly if the recursion does, in the same
way, and has then counted the same and drawn the same scopes. -/

namespace Backchain

variable {σ : Type}

/-- These partitions come before those of the outcome. -/
def Outcome.after (found : List Partition) (outcome : Outcome σ) : Outcome σ :=
  { outcome with result := outcome.result.map (found ++ ·) }

namespace Search

/-- Tries one clause after the other. Each of them begins a branch or none. -/
def tryEach {clause : Type} (attempt : clause → Search σ → Option Branch × Search σ) :
    List clause → Search σ → List Branch × Search σ
  | [], search => ([], search)
  | first :: others, search =>
    let (child, search) := attempt first search
    let (children, search) := tryEach attempt others search
    (child.toList ++ children, search)

def tryFact (goal : ScopedAtom) (rest : List ScopedAtom) (partition : Partition) (depth : Nat) (fact : Atom)
    (search : Search σ) : Option Branch × Search σ :=
  ((unify ⟨fact, goal.scope⟩ goal partition).map (⟨rest, ·, depth⟩),
    { search with stats := { search.stats with unifications := search.stats.unifications + 1 } })

/-- The rule takes a fresh scope first. -/
def tryRule [ScopeSource σ] (goal : ScopedAtom) (rest : List ScopedAtom) (partition : Partition) (depth : Nat)
    (rule : Rule) (search : Search σ) : Option Branch × Search σ :=
  let (scope, supply) := ScopeSource.fresh search.supply
  match rule.apply scope goal partition with
  | some (premises, extended) => (some ⟨premises ++ rest, extended, depth + 1⟩,
      { search with supply, stats := { search.stats with ruleApplications := search.stats.ruleApplications + 1 } })
  | none => (none, { search with supply })

/-- Goes on with the search that an outcome hands back, unless it is an error. -/
def goOn (next : Search σ → Option (Outcome σ)) (outcome : Outcome σ) : Option (Outcome σ) :=
  match outcome.result with
  | .error _ => some outcome
  | .ok found => (next outcome.search).map (Outcome.after found)

/-- Explores the branches in their order, up to the first error. -/
def exploreEach (explore : Search σ → Branch → Option (Outcome σ)) : List Branch → Search σ → Option (Outcome σ)
  | [], search => some ⟨.ok [], search⟩
  | branch :: branches, search => (explore search branch).bind (goOn (exploreEach explore branches))

/-- Explores a branch and all that comes of it, nested no deeper than the given height. If that does not suffice, there
is no outcome. -/
def descend [ScopeSource σ] : (height : Nat) → Search σ → Branch → Option (Outcome σ)
  | 0, _, _ => none
  | height + 1, search, branch =>
    match branch with
    | ⟨[], partition, _⟩ => some ⟨.ok [partition], search.countSolution⟩
    | ⟨goal :: rest, partition, depth⟩ =>
      match search.enter depth with
      | (some error, search) => some ⟨.error error, search⟩
      | (none, search) =>
        let (byFacts, search) := tryEach (tryFact goal rest partition depth) search.database.facts search
        let (byRules, search) := tryEach (tryRule goal rest partition depth) search.database.rules search
        exploreEach (descend height) (byFacts ++ byRules) search

end Search

namespace Proofs
open Search

variable {search : Search σ} {goal : ScopedAtom} {rest : List ScopedAtom} {partition : Partition}
  {depth fuel : Nat} {outcome : Outcome σ}

/-! ### The clauses one by one -/

theorem tryEach_tryFact (facts : List Atom) (search : Search σ) :
    tryEach (tryFact goal rest partition depth) facts search =
      (factBranches facts goal rest partition depth,
        { search with stats := { search.stats with unifications := search.stats.unifications + facts.length } }) := by
  induction facts generalizing search with
  | nil => rfl
  | cons fact facts ih =>
    simp only [tryEach, tryFact, ih]
    cases unified : unify ⟨fact, goal.scope⟩ goal partition <;>
      simp [factBranches, unified, Nat.add_assoc, Nat.add_comm 1]

/-- Drawing the scopes on the way comes to the same as drawing them all before. -/
theorem tryEach_tryRule [ScopeSource σ] (rules : List Rule) (search : Search σ) :
    tryEach (tryRule goal rest partition depth) rules search =
      let (scopes, supply) := ScopeSource.draw rules.length search.supply
      let byRules := ruleBranches (rules.zip scopes) goal rest partition depth
      (byRules, { search with
        supply
        stats := { search.stats with ruleApplications := search.stats.ruleApplications + byRules.length } }) := by
  induction rules generalizing search with
  | nil => rfl
  | cons rule rules ih =>
    simp only [tryEach, tryRule]
    cases applied : rule.apply (ScopeSource.fresh search.supply).1 goal partition with
    | none => simp [ih, ScopeSource.draw, ruleBranches, applied]
    | some started => simp [ih, ScopeSource.draw, ruleBranches, applied, Nat.add_assoc, Nat.add_comm 1]

/-! ### The branches one by one -/

theorem after_nil : Outcome.after [] = (id : Outcome σ → Outcome σ) := by
  funext outcome
  obtain ⟨result, search⟩ := outcome
  cases result <;> rfl

theorem after_comp_after (first second : List Partition) :
    Outcome.after first ∘ Outcome.after second = (Outcome.after (first ++ second) : Outcome σ → Outcome σ) := by
  funext outcome
  obtain ⟨result, search⟩ := outcome
  cases result with
  | error error => rfl
  | ok found => simp [Outcome.after, Except.map]

theorem goOn_after (next : Search σ → Option (Outcome σ)) (found : List Partition) (outcome : Outcome σ) :
    goOn next (outcome.after found) = (goOn next outcome).map (Outcome.after found) := by
  obtain ⟨result, search⟩ := outcome
  cases result with
  | error error => rfl
  | ok others =>
    simp only [goOn, Option.map_map, after_comp_after]
    rfl

theorem goOn_bind (next last : Search σ → Option (Outcome σ)) (outcome : Outcome σ) :
    (goOn next outcome).bind (goOn last) = goOn (fun search => (next search).bind (goOn last)) outcome := by
  obtain ⟨result, search⟩ := outcome
  cases result with
  | error error => rfl
  | ok found =>
    simp only [goOn]
    cases next search with
    | none => rfl
    | some inner => exact goOn_after last found inner

theorem exploreEach_singleton (explore : Search σ → Branch → Option (Outcome σ)) (branch : Branch) (search : Search σ) :
    exploreEach explore [branch] search = explore search branch := by
  have last : goOn (exploreEach explore []) = some := by
    funext ⟨result, middle⟩
    cases result with
    | error error => rfl
    | ok found => simp [goOn, exploreEach, Outcome.after, Except.map]
  rw [exploreEach, last, Option.bind_fun_some]

theorem exploreEach_append (explore : Search σ → Branch → Option (Outcome σ)) (first second : List Branch)
    (search : Search σ) : exploreEach explore (first ++ second) search =
      (exploreEach explore first search).bind (goOn (exploreEach explore second)) := by
  induction first generalizing search with
  | nil =>
    rw [exploreEach, List.nil_append, Option.bind_some]
    simp only [goOn, after_nil, Option.map_id, id]
  | cons branch first ih => simp only [List.cons_append, exploreEach, Option.bind_assoc, goOn_bind, funext ih]

/-! ### Greater heights -/

theorem goOn_of_some {next further : Search σ → Option (Outcome σ)}
    (kept : ∀ search outcome, next search = some outcome → further search = some outcome) (first : Outcome σ)
    (went : goOn next first = some outcome) : goOn further first = some outcome := by
  obtain ⟨result, search⟩ := first
  cases result with
  | error error => exact went
  | ok found =>
    obtain ⟨later, explored, same⟩ := Option.map_eq_some_iff.mp went
    exact Option.map_eq_some_iff.mpr ⟨later, kept search later explored, same⟩

theorem exploreEach_of_some {explore further : Search σ → Branch → Option (Outcome σ)}
    (kept : ∀ search branch outcome, explore search branch = some outcome → further search branch = some outcome)
    (branches : List Branch) (search : Search σ) (outcome : Outcome σ)
    (explored : exploreEach explore branches search = some outcome) :
    exploreEach further branches search = some outcome := by
  induction branches generalizing search outcome with
  | nil => exact explored
  | cons branch branches ih =>
    obtain ⟨first, here, later⟩ := Option.bind_eq_some_iff.mp explored
    exact Option.bind_eq_some_iff.mpr ⟨first, kept search branch first here, goOn_of_some ih first later⟩

variable [ScopeSource σ]

theorem descend_goal (height : Nat) (search : Search σ) (goal : ScopedAtom) (rest : List ScopedAtom)
    (partition : Partition) (depth : Nat) : descend (height + 1) search ⟨goal :: rest, partition, depth⟩ =
      match search.enter depth with
      | (some error, stopped) => some ⟨.error error, stopped⟩
      | (none, counted) => exploreEach (descend height) (counted.expand goal rest partition depth).1
          (counted.expand goal rest partition depth).2 := by
  simp only [descend, tryEach_tryFact, tryEach_tryRule]
  rfl

theorem descend_succ_of_some (height : Nat) (search : Search σ) (branch : Branch) (outcome : Outcome σ)
    (explored : descend height search branch = some outcome) : descend (height + 1) search branch = some outcome := by
  induction height generalizing search branch outcome with
  | zero => cases explored
  | succ height ih =>
    obtain ⟨goals, partition, depth⟩ := branch
    cases goals with
    | nil => exact explored
    | cons goal rest =>
      rw [descend_goal] at explored ⊢
      cases entered : search.enter depth with
      | mk error counted =>
        rw [entered] at explored
        cases error with
        | some error => exact explored
        | none => exact exploreEach_of_some ih _ _ _ explored

/-! ### From a stack to the recursion -/

/-- What a goal leads to takes its place among the branches. -/
theorem exploreEach_of_expansion {counted : Search σ} {pending : List Branch}
    (entered : search.enter depth = (none, counted))
    (explored : exploreEach (descend fuel) ((counted.expand goal rest partition depth).1 ++ pending)
      (counted.expand goal rest partition depth).2 = some outcome) :
    exploreEach (descend (fuel + 1)) (⟨goal :: rest, partition, depth⟩ :: pending) search = some outcome := by
  rw [exploreEach_append] at explored
  obtain ⟨children, here, later⟩ := Option.bind_eq_some_iff.mp explored
  refine Option.bind_eq_some_iff.mpr ⟨children, ?_, ?_⟩
  · rw [descend_goal, entered]
    exact here
  · exact goOn_of_some (exploreEach_of_some (descend_succ_of_some fuel) pending) children later

theorem exploreEach_of_finish {run : Run σ} (ended : run.finish fuel = some outcome) :
    ∃ explored, exploreEach (descend fuel) run.pending run.search = some explored ∧
      explored.after run.found.reverse = outcome := by
  induction fuel generalizing run with
  | zero => cases ended
  | succ fuel ih =>
    obtain ⟨search, pending, found⟩ := run
    rw [Run.finish] at ended
    cases pending with
    | nil =>
      cases ended
      exact ⟨_, rfl, by simp [Outcome.after, Except.map]⟩
    | cons branch pending =>
      obtain ⟨goals, partition, depth⟩ := branch
      cases goals with
      | nil =>
        obtain ⟨others, explored, same⟩ := ih ended
        -- All pending branches are explored to one height, which the later ones need not come to.
        have kept := exploreEach_of_some (descend_succ_of_some fuel) pending _ _ explored
        refine ⟨others.after [partition], Option.map_eq_some_iff.mpr ⟨others, kept, rfl⟩, ?_⟩
        rw [← same, List.reverse_cons, ← after_comp_after]
        rfl
      | cons goal rest =>
        cases entered : search.enter depth with
        | mk error counted =>
          simp only [Run.step, entered] at ended
          cases error with
          | some error =>
            cases ended
            refine ⟨⟨.error error, counted⟩, ?_, rfl⟩
            rw [exploreEach, descend_goal, entered]
            rfl
          | none =>
            obtain ⟨explored, each, same⟩ := ih ended
            exact ⟨explored, exploreEach_of_expansion entered each, same⟩

/-! ### From the recursion to a stack -/

/-- A run that comes back from the outcome to what was pending besides. -/
def resume (outcome : Outcome σ) (fuel : Nat) (pending : List Branch) (earlier : List Partition) :
    Option (Outcome σ) :=
  match outcome.result with
  | .error _ => some outcome
  | .ok found => Run.finish fuel ⟨outcome.search, pending, found.reverse ++ earlier⟩

/-- The branches take so many steps of a run, whatever is pending besides. -/
def TakesSteps (search : Search σ) (branches : List Branch) (outcome : Outcome σ) : Prop :=
  ∃ cost, ∀ fuel pending earlier,
    Run.finish (fuel + cost) ⟨search, branches ++ pending, earlier⟩ = resume outcome fuel pending earlier

theorem TakesSteps.solution (search : Search σ) (partition : Partition) (depth : Nat) :
    TakesSteps search [⟨[], partition, depth⟩] ⟨.ok [partition], search.countSolution⟩ :=
  ⟨1, fun _ _ _ => rfl⟩

theorem TakesSteps.error {error : LimitError} {stopped : Search σ} (entered : search.enter depth = (some error, stopped)) :
    TakesSteps search [⟨goal :: rest, partition, depth⟩] ⟨.error error, stopped⟩ := by
  refine ⟨1, fun fuel pending earlier => ?_⟩
  rw [Run.finish]
  simp only [Run.step, List.singleton_append, entered]
  rfl

theorem TakesSteps.expansion {counted : Search σ} (entered : search.enter depth = (none, counted))
    (children : TakesSteps (counted.expand goal rest partition depth).2
      (counted.expand goal rest partition depth).1 outcome) :
    TakesSteps search [⟨goal :: rest, partition, depth⟩] outcome := by
  obtain ⟨cost, finished⟩ := children
  refine ⟨cost + 1, fun fuel pending earlier => ?_⟩
  rw [← Nat.add_assoc, Run.finish]
  simp only [Run.step, List.singleton_append, entered]
  exact finished fuel pending earlier

theorem TakesSteps.nil (search : Search σ) : TakesSteps search [] ⟨.ok [], search⟩ :=
  ⟨0, fun _ _ _ => rfl⟩

theorem TakesSteps.stop {branch : Branch} {branches : List Branch} {error : LimitError} {stopped : Search σ}
    (first : TakesSteps search [branch] ⟨.error error, stopped⟩) :
    TakesSteps search (branch :: branches) ⟨.error error, stopped⟩ := by
  obtain ⟨cost, finished⟩ := first
  exact ⟨cost, fun fuel pending earlier => finished fuel (branches ++ pending) earlier⟩

theorem TakesSteps.cons {branch : Branch} {branches : List Branch} {found : List Partition} {middle : Search σ}
    (first : TakesSteps search [branch] ⟨.ok found, middle⟩) (others : TakesSteps middle branches outcome) :
    TakesSteps search (branch :: branches) (outcome.after found) := by
  obtain ⟨inside, here⟩ := first
  obtain ⟨outside, later⟩ := others
  refine ⟨outside + inside, fun fuel pending earlier => ?_⟩
  rw [← Nat.add_assoc]
  refine (here _ (branches ++ pending) earlier).trans ((later fuel pending _).trans ?_)
  obtain ⟨result, after⟩ := outcome
  cases result with
  | error error => rfl
  | ok more => simp [resume, Outcome.after, Except.map]

theorem takesSteps_of_exploreEach {explore : Search σ → Branch → Option (Outcome σ)} {branches : List Branch}
    (one : ∀ search branch outcome, explore search branch = some outcome → TakesSteps search [branch] outcome)
    (explored : exploreEach explore branches search = some outcome) : TakesSteps search branches outcome := by
  induction branches generalizing search outcome with
  | nil =>
    cases explored
    exact .nil search
  | cons branch branches ih =>
    obtain ⟨⟨result, middle⟩, first, explored⟩ := Option.bind_eq_some_iff.mp explored
    cases result with
    | error error =>
      cases explored
      exact (one _ _ _ first).stop
    | ok found =>
      obtain ⟨others, later, same⟩ := Option.map_eq_some_iff.mp explored
      cases same
      exact (one _ _ _ first).cons (ih later)

theorem takesSteps_of_descend (height : Nat) (search : Search σ) (branch : Branch) (outcome : Outcome σ)
    (explored : descend height search branch = some outcome) : TakesSteps search [branch] outcome := by
  induction height generalizing search branch outcome with
  | zero => cases explored
  | succ height ih =>
    obtain ⟨goals, partition, depth⟩ := branch
    cases goals with
    | nil =>
      cases explored
      exact .solution search partition depth
    | cons goal rest =>
      rw [descend_goal] at explored
      cases entered : search.enter depth with
      | mk error counted =>
        rw [entered] at explored
        cases error with
        | some error =>
          cases explored
          exact .error entered
        | none => exact .expansion entered (takesSteps_of_exploreEach ih explored)

/-- A run ends exactly if the recursion does, and with the same outcome: the same solutions in the same order and with
the same scopes, or the same error, and in either case the same counters and the same scope to be drawn next. -/
theorem run_eq_descend (search : Search σ) (goals : List ScopedAtom) (start : Partition) (outcome : Outcome σ) :
    (∃ fuel, search.run fuel goals start = some outcome) ↔
      ∃ height, descend height search ⟨goals, start, 0⟩ = some outcome := by
  constructor
  · rintro ⟨fuel, ended⟩
    obtain ⟨explored, each, same⟩ := exploreEach_of_finish ended
    change exploreEach (descend fuel) [⟨goals, start, 0⟩] search = some explored at each
    change explored.after [] = outcome at same
    rw [after_nil, id] at same
    rw [exploreEach_singleton, same] at each
    exact ⟨fuel, each⟩
  · rintro ⟨height, explored⟩
    obtain ⟨cost, finished⟩ := takesSteps_of_descend height search _ outcome explored
    refine ⟨1 + cost, (finished 1 [] []).trans ?_⟩
    obtain ⟨result, after⟩ := outcome
    cases result with
    | error error => rfl
    | ok found => simp [resume, Run.finish, Run.step]

end Proofs
end Backchain
