import Backchain.Proofs.ConstrainedSearch
import Backchain.Proofs.SearchMirroring

/-! Scopes of rule instances. Whatever runs a search has made, and whatever of their solutions it was started from again,
the scope that a rule is given is new to everything that is pending or found, and no scope is given twice. -/

namespace Backchain.Proofs

/-! ### Runs and what they have drawn -/

/-- The scopes drawn so far in their order, and for each pending branch and each solution the scopes of the rule
instances that have led to it. -/
structure Trail where
  drawn : List Scope := []
  pending : List (List Scope)
  found : List (List Scope) := []

def Candidate.scopes : Candidate → List Scope
  | .fact _ _ => []
  | .rule _ _ scope => [scope]

/-- The moments of a run that begins with the instances of the path behind it. -/
inductive Reaches (begun : Run) (path : List Scope) : Run → Trail → Prop where
  | start : Reaches begun path begun { pending := [path] }
  | solution {search : Search} {partition : Partition} {depth : Nat} {pending : List Branch} {found : List Partition}
      {drawn own : List Scope} {others solved : List (List Scope)}
      (reached : Reaches begun path ⟨search, ⟨[], partition, depth⟩ :: pending, found⟩ ⟨drawn, own :: others, solved⟩) :
      Reaches begun path ⟨search.countSolution, pending, partition :: found⟩ ⟨drawn, others, own :: solved⟩
  | expansion {search counted : Search} {goal : ScopedAtom} {rest : List ScopedAtom} {partition : Partition}
      {depth : Nat} {pending : List Branch} {found : List Partition} {drawn own : List Scope}
      {others solved : List (List Scope)}
      (reached : Reaches begun path ⟨search, ⟨goal :: rest, partition, depth⟩ :: pending, found⟩
        ⟨drawn, own :: others, solved⟩)
      (allowed : search.enter depth = (none, counted)) :
      Reaches begun path
        ⟨(counted.expand goal rest partition depth).2, (counted.expand goal rest partition depth).1 ++ pending, found⟩
        ⟨drawn ++ (ScopeSource.draw counted.database.rules.length counted.supply).1,
          (candidates counted.database counted.supply.next).filterMap (fun candidate =>
            (candidate.branch goal rest partition depth).map fun _ => own ++ candidate.scopes) ++ others, solved⟩

/-- A run may start from the empty partition or from an earlier solution. Equations may be added to it, but nothing that
it is asked knows a scope that is still to be drawn. -/
structure Admissible (search : Search) (solutions : List (Partition × List Scope)) (goals : List ScopedAtom)
    (start : Partition) (path : List Scope) : Prop where
  origin : ∃ earlier equations, (earlier, path) ∈ (Partition.empty, []) :: solutions ∧
    constrain equations earlier = some start ∧ ∀ key, Mentioned equations key → BelowScope search.supply.next key
  goals : ∀ goal ∈ goals, goal.scope < search.supply.next

/-- Runs one after the other. The solutions of those that end well are kept, and the scopes that any of them draw. -/
inductive Session (first : Search) : Search → List (Partition × List Scope) → List Scope → Prop where
  | begun : Session first first [] []
  | answered {search after : Search} {solutions : List (Partition × List Scope)} {drawn path : List Scope}
      {goals : List ScopedAtom} {start : Partition} {last : Run} {trail : Trail} {found : List Partition}
      (session : Session first search solutions drawn) (admissible : Admissible search solutions goals start path)
      (reached : Reaches (search.start goals start) path last trail) (ended : last.step = .ended ⟨.ok found, after⟩) :
      Session first after (solutions ++ found.zip trail.found.reverse) (drawn ++ trail.drawn)
  | failed {search after : Search} {solutions : List (Partition × List Scope)} {drawn path : List Scope}
      {goals : List ScopedAtom} {start : Partition} {last : Run} {trail : Trail} {error : LimitError}
      (session : Session first search solutions drawn) (admissible : Admissible search solutions goals start path)
      (reached : Reaches (search.start goals start) path last trail)
      (ended : last.step = .ended ⟨.error error, after⟩) :
      Session first after solutions (drawn ++ trail.drawn)

/-! ### What a run keeps -/

/-- No scope to come occurs in the branch, and the rule instances behind it have scopes of their own. -/
structure Traced (low : Scope) (drawn : List Scope) (branch : Branch) (path : List Scope) : Prop where
  fresh : Fresh low branch
  once : path.Nodup
  drawn : path ⊆ drawn

/-- A solution is a branch with no goals left. -/
def TracedSolution (low : Scope) (drawn : List Scope) (solution : Partition) (path : List Scope) : Prop :=
  Traced low drawn ⟨[], solution, 0⟩ path

structure Tracked (drawn : List Scope) (run : Run) (trail : Trail) : Prop where
  once : (drawn ++ trail.drawn).Nodup
  below : ∀ scope ∈ drawn ++ trail.drawn, scope < run.search.supply.next
  pending : List.Forall₂ (Traced run.search.supply.next (drawn ++ trail.drawn)) run.pending trail.pending
  found : List.Forall₂ (TracedSolution run.search.supply.next (drawn ++ trail.drawn)) run.found trail.found

section
variable {low high : Nat} {drawn path : List Scope} {branch : Branch}

theorem Traced.mono (traced : Traced low drawn branch path) (bound : low ≤ high) (more : List Scope) :
    Traced high (drawn ++ more) branch path :=
  ⟨traced.fresh.mono bound, traced.once, List.subset_append_of_subset_left more traced.drawn⟩

theorem nodup_append_drawn (once : drawn.Nodup) (below : ∀ scope ∈ drawn, scope < low) (count : Nat) :
    (drawn ++ List.range' low count).Nodup := by
  apply List.nodup_append.mpr
  refine ⟨once, List.nodup_range', ?_⟩
  intro scope old other new same
  subst same
  exact Nat.not_le_of_lt (below scope old) (List.left_le_of_mem_range' new)

theorem append_drawn_below (below : ∀ scope ∈ drawn, scope < low) (count : Nat) :
    ∀ scope ∈ drawn ++ List.range' low count, scope < low + count := by
  intro scope member
  obtain old | new := List.mem_append.mp member
  · exact Nat.lt_add_right count (below scope old)
  · exact (List.mem_range'_1.mp new).2

/-- The rule that starts a child has drawn a scope that the branch did not know. -/
theorem Traced.children {goal : ScopedAtom} {rest : List ScopedAtom} {partition : Partition} {depth : Nat}
    (traced : Traced low drawn ⟨goal :: rest, partition, depth⟩ path) (database : Database)
    (below : ∀ scope ∈ drawn, scope < low) :
    List.Forall₂ (Traced (low + database.rules.length) (drawn ++ List.range' low database.rules.length))
      ((candidates database low).filterMap (Candidate.branch goal rest partition depth))
      ((candidates database low).filterMap fun candidate =>
        (candidate.branch goal rest partition depth).map fun _ => path ++ candidate.scopes) := by
  have same : List.Forall₂ (fun candidate other => candidate ∈ candidates database low ∧ candidate = other)
      (candidates database low) (candidates database low) :=
    List.forall₂_same.mpr fun candidate member => ⟨member, rfl⟩
  apply List.rel_filterMap _ same
  intro candidate other possible
  obtain ⟨possible, rfl⟩ := possible
  dsimp only
  cases begun : candidate.branch goal rest partition depth with
  | none => exact .none
  | some child =>
    apply Option.Rel.some
    have fresh := traced.fresh.children child (List.mem_filterMap.mpr ⟨candidate, possible, begun⟩)
    cases candidate with
    | fact index fact =>
      rw [Candidate.scopes, List.append_nil]
      exact ⟨fresh, traced.once, List.subset_append_of_subset_left _ traced.drawn⟩
    | rule index rule scope =>
      obtain ⟨stored, rfl⟩ := rule_mem_candidates.mp possible
      have inside : index < database.rules.length := (List.getElem?_eq_some_iff.mp stored).1
      have taken : low + index ∈ List.range' low database.rules.length := List.mem_range'_1.mpr (by omega)
      refine ⟨fresh, ?_, List.append_subset.mpr ⟨?_, ?_⟩⟩
      · apply List.Nodup.append traced.once (List.nodup_singleton _)
        apply List.disjoint_singleton.mpr
        intro member
        exact Nat.not_lt_of_le (Nat.le_add_right low index) (below _ (traced.drawn member))
      · exact List.subset_append_of_subset_left _ traced.drawn
      · exact List.cons_subset.mpr ⟨List.mem_append_right _ taken, List.nil_subset _⟩

end

section
variable {first search : Search} {drawn path : List Scope} {solutions : List (Partition × List Scope)}
  {goals : List ScopedAtom} {start : Partition} {begun run : Run} {trail : Trail}

theorem Reaches.tracked (reached : Reaches begun path run trail) (tracked : Tracked drawn begun { pending := [path] }) :
    Tracked drawn run trail := by
  induction reached with
  | start => exact tracked
  | solution _ ih =>
    cases ih.pending with
    | cons solved others =>
      exact ⟨ih.once, ih.below, others, .cons ⟨⟨solved.fresh.built, solved.fresh.below⟩, solved.once, solved.drawn⟩ ih.found⟩
  | @expansion search counted goal rest partition depth pending found earlier own others solved _ allowed ih =>
    obtain ⟨same, supply⟩ := enter_keeps allowed
    cases ih.pending with
    | cons here others =>
      have next : (counted.expand goal rest partition depth).2.supply.next =
          search.supply.next + counted.database.rules.length := by rw [expand_next, supply]
      have taken : drawn ++ (earlier ++ (ScopeSource.draw counted.database.rules.length counted.supply).1) =
          (drawn ++ earlier) ++ List.range' search.supply.next counted.database.rules.length := by
        rw [List.append_assoc, ScopeSupply.draw_eq, supply]
      have later : search.supply.next ≤ search.supply.next + counted.database.rules.length := Nat.le_add_right _ _
      have children := here.children counted.database ih.below
      constructor
      · rw [taken]
        exact nodup_append_drawn ih.once ih.below _
      · rw [taken, next]
        exact append_drawn_below ih.below _
      · rw [taken, next, expand_eq_candidates, supply]
        exact List.rel_append children (others.imp fun _ _ traced => traced.mono later _)
      · rw [taken, next]
        exact ih.found.imp fun _ _ traced => traced.mono later _

/-- What the runs so far have left behind. -/
structure Settled (search : Search) (solutions : List (Partition × List Scope)) (drawn : List Scope) : Prop where
  once : drawn.Nodup
  below : ∀ scope ∈ drawn, scope < search.supply.next
  solutions : ∀ solution ∈ solutions, TracedSolution search.supply.next drawn solution.1 solution.2

theorem Admissible.tracked (admissible : Admissible search solutions goals start path)
    (settled : Settled search solutions drawn) : Tracked drawn (search.start goals start) { pending := [path] } := by
  obtain ⟨earlier, equations, known, added, old⟩ := admissible.origin
  have traced : TracedSolution search.supply.next drawn earlier path := by
    obtain same | member := List.mem_cons.mp known
    · obtain ⟨rfl, rfl⟩ := Prod.mk.inj same
      exact ⟨⟨⟨[], Built.nil⟩, .of_goals (List.forall_mem_nil _)⟩, List.nodup_nil, List.nil_subset _⟩
    · exact settled.solutions _ member
  obtain ⟨history, built⟩ := traced.fresh.built
  have below : ScopesBelow search.supply.next goals earlier := ⟨admissible.goals, traced.fresh.below.partition⟩
  have fresh : Fresh search.supply.next ⟨goals, start, 0⟩ :=
    ⟨⟨_, built.constrain_eq_some_iff.mp added⟩, below.constrain built old added⟩
  constructor
  · rw [List.append_nil]
    exact settled.once
  · rw [List.append_nil]
    exact settled.below
  · rw [List.append_nil]
    exact .cons ⟨fresh, traced.once, traced.drawn⟩ .nil
  · exact .nil

theorem Reaches.next_le (reached : Reaches begun path run trail) : begun.search.supply.next ≤ run.search.supply.next := by
  induction reached with
  | start => exact Nat.le_refl _
  | solution _ ih => exact ih
  | expansion _ allowed ih =>
    rw [expand_next, (enter_keeps allowed).2]
    exact ih.trans (Nat.le_add_right _ _)

theorem ended_keeps {last : Run} {outcome : Outcome} (ended : last.step = .ended outcome) :
    outcome.search.supply = last.search.supply ∧ ∀ found, outcome.result = .ok found → found = last.found.reverse := by
  obtain ⟨search, pending, found⟩ := last
  cases pending with
  | nil =>
    cases ended
    exact ⟨rfl, fun _ same => (Except.ok.inj same).symm⟩
  | cons branch pending =>
    obtain ⟨goals, partition, depth⟩ := branch
    cases goals with
    | nil => cases ended
    | cons goal rest =>
      cases entered : search.enter depth with
      | mk error counted =>
        simp only [Run.step, entered] at ended
        cases error with
        | none => cases ended
        | some error =>
          cases ended
          refine ⟨(enter_keeps entered).2, fun found same => ?_⟩
          cases same

theorem Settled.after_run {last : Run} {outcome : Outcome} (settled : Settled search solutions drawn)
    (admissible : Admissible search solutions goals start path)
    (reached : Reaches (search.start goals start) path last trail) (ended : last.step = .ended outcome) :
    Settled outcome.search solutions (drawn ++ trail.drawn) := by
  have tracked := reached.tracked (admissible.tracked settled)
  have supply := (ended_keeps ended).1
  refine ⟨tracked.once, supply ▸ tracked.below, ?_⟩
  intro solution member
  rw [supply]
  exact (settled.solutions solution member).mono reached.next_le _

theorem Session.settled (session : Session first search solutions drawn) : Settled search solutions drawn := by
  induction session with
  | begun => exact ⟨List.nodup_nil, List.forall_mem_nil _, List.forall_mem_nil _⟩
  | failed _ admissible reached ended ih => exact ih.after_run admissible reached ended
  | answered _ admissible reached ended ih =>
    have settled := ih.after_run admissible reached ended
    have tracked := reached.tracked (admissible.tracked ih)
    obtain ⟨supply, result⟩ := ended_keeps ended
    refine ⟨settled.once, settled.below, List.forall_mem_append.mpr ⟨settled.solutions, ?_⟩⟩
    rw [result _ rfl, supply]
    intro solution member
    exact (List.forall₂_iff_zip.mp (List.rel_reverse tracked.found)).2 member

/-- A session comes to every moment of its runs. -/
theorem Reaches.exists_next {next : Run} (reached : Reaches begun path run trail) (tracked : Tracked drawn run trail)
    (stepped : run.step = .running next) : ∃ later, Reaches begun path next later := by
  obtain ⟨search, pending, found⟩ := run
  obtain ⟨earlier, paths, solved⟩ := trail
  cases tracked.pending with
  | nil => cases stepped
  | @cons branch own _ _ _ _ =>
    obtain ⟨goals, partition, depth⟩ := branch
    cases goals with
    | nil =>
      cases stepped
      exact ⟨_, .solution reached⟩
    | cons goal rest =>
      cases entered : search.enter depth with
      | mk error counted =>
        simp only [Run.step, entered] at stepped
        cases error with
        | none =>
          cases stepped
          exact ⟨_, .expansion reached entered⟩
        | some error => cases stepped

theorem Reaches.exists_last {fuel : Nat} {outcome : Outcome} (reached : Reaches begun path run trail)
    (tracked : Tracked drawn begun { pending := [path] }) (ended : run.finish fuel = some outcome) :
    ∃ last later, Reaches begun path last later ∧ last.step = .ended outcome := by
  induction fuel generalizing run trail with
  | zero => cases ended
  | succ fuel ih =>
    rw [Run.finish] at ended
    cases stepped : run.step with
    | ended final =>
      rw [stepped] at ended
      cases ended
      exact ⟨run, trail, reached, stepped⟩
    | running next =>
      rw [stepped] at ended
      obtain ⟨later, reached⟩ := reached.exists_next (reached.tracked tracked) stepped
      exact ih reached ended

/-! ### What a rule is given -/

/-- The scope occurs neither in the goals of the branch nor in its partition. -/
def Unused (scope : Scope) (branch : Branch) : Prop :=
  (∀ goal ∈ branch.goals, goal.scope ≠ scope) ∧ ∀ name, branch.partition.contains (.var name scope) = false

theorem Fresh.unused {low scope : Nat} {branch : Branch} (fresh : Fresh low branch) (above : low ≤ scope) :
    Unused scope branch := by
  constructor
  · intro goal member same
    exact Nat.not_lt_of_le above (same ▸ fresh.below.goals goal member)
  · intro name
    apply Bool.eq_false_of_not_eq_true
    intro entered
    exact Nat.not_lt_of_le above (fresh.below.partition name scope entered)

/-- What the facts and the first rules have started knows the scopes of those rules at most. -/
theorem Fresh.tried {goal : ScopedAtom} {rest : List ScopedAtom} {partition : Partition} {depth : Nat}
    (fresh : Fresh search.supply.next ⟨goal :: rest, partition, depth⟩) (count : Nat) :
    ∀ child ∈ Search.factBranches search.database.facts goal rest partition depth ++
      Search.ruleBranches ((instances search).take count) goal rest partition depth,
      Fresh (search.supply.next + count) child := by
  intro child member
  let first : Search := { search with database := { search.database with rules := search.database.rules.take count } }
  have same : (instances search).take count = instances first := by
    rw [instances_eq, instances_eq, ← List.map_take, take_zipIdx]
  have tried : child ∈ (first.expand goal rest partition depth).1 := by
    rw [same] at member
    exact member
  rw [expand_eq_candidates] at tried
  apply (fresh.children child tried).mono
  exact Nat.add_le_add_left (List.length_take_le ..) _

/-- Wherever a session has come to, the scope that a rule is given occurs in no goal or partition that is pending or has
been made by the facts and rules before it, and in no solution, and has not been given before. So the rule instances
that have led to a branch all have scopes of their own, and no variable of a rule's head faces itself. -/
theorem rule_scopes_fresh (session : Session first search solutions drawn)
    (admissible : Admissible search solutions goals start path)
    (reached : Reaches (search.start goals start) path run trail) :
    (drawn ++ trail.drawn).Nodup ∧ (∀ own ∈ trail.pending ++ trail.found, own.Nodup) ∧
      ∀ goal rest partition depth pending counted, run.pending = ⟨goal :: rest, partition, depth⟩ :: pending →
        run.search.enter depth = (none, counted) →
        ∀ index rule scope, (instances counted)[index]? = some (rule, scope) →
          (∀ branch ∈ run.pending, Unused scope branch) ∧
          (∀ branch ∈ Search.factBranches counted.database.facts goal rest partition depth ++
            Search.ruleBranches ((instances counted).take index) goal rest partition depth, Unused scope branch) ∧
          (∀ solution ∈ run.found ++ solutions.map Prod.fst, ∀ name, solution.contains (.var name scope) = false) ∧
          scope ∉ drawn ++ trail.drawn ++ ((instances counted).take index).map Prod.snd ∧
          ∀ pair ∈ equations ⟨rule.head, scope⟩ goal, pair.1.isVar = true → pair.1.compatible pair.2 = true := by
  have settled := session.settled
  have tracked := reached.tracked (admissible.tracked settled)
  refine ⟨tracked.once, ?_, ?_⟩
  · have pending := forall_mem_of_forall₂ tracked.pending.flip fun _ _ traced => traced.once
    have found := forall_mem_of_forall₂ tracked.found.flip fun _ _ traced => traced.once
    exact List.forall_mem_append.mpr ⟨pending, found⟩
  intro goal rest partition depth pending counted asked allowed index rule scope given
  obtain ⟨_, supply⟩ := enter_keeps allowed
  have fresh : ∀ branch ∈ run.pending, Fresh run.search.supply.next branch :=
    forall_mem_of_forall₂ tracked.pending fun _ _ traced => traced.fresh
  have here : Fresh run.search.supply.next ⟨goal :: rest, partition, depth⟩ := fresh _ (asked ▸ List.mem_cons_self ..)
  rw [← supply] at here
  have found : ∀ solution ∈ run.found ++ solutions.map Prod.fst, Fresh run.search.supply.next ⟨[], solution, 0⟩ := by
    intro solution member
    obtain member | member := List.mem_append.mp member
    · exact forall_mem_of_forall₂ tracked.found (fun _ _ traced => traced.fresh) solution member
    · obtain ⟨earlier, known, rfl⟩ := List.mem_map.mp member
      exact (settled.solutions earlier known).fresh.mono reached.next_le
  obtain ⟨_, rfl⟩ := getElem?_instances.mp given
  have above : run.search.supply.next ≤ counted.supply.next + index := supply ▸ Nat.le_add_right _ _
  refine ⟨?_, ?_, ?_, ?_, ?_⟩
  · exact fun branch member => (fresh branch member).unused above
  · exact fun branch member => (here.tried index branch member).unused (Nat.le_refl _)
  · exact fun solution member => ((found solution member).unused above).2
  · intro taken
    obtain taken | taken := List.mem_append.mp taken
    · exact Nat.not_lt_of_le above (tracked.below _ taken)
    · obtain ⟨entry, member, same⟩ := List.mem_map.mp taken
      obtain ⟨position, inside, present⟩ := List.mem_take_iff_getElem.mp member
      obtain ⟨_, drawn⟩ := getElem?_instances.mp (List.getElem?_eq_some_iff.mpr ⟨_, present⟩)
      have equal : position = index := Nat.add_left_cancel (drawn.symm.trans same)
      omega
  · intro pair member free
    have inside := here.below.goals goal (List.mem_cons_self ..)
    have different : counted.supply.next + index ≠ goal.scope := Nat.ne_of_gt (Nat.lt_add_right index inside)
    apply compatible_iff.mpr
    refine ⟨fun _ => apart_of_scope_ne different pair member free, ?_⟩
    intro name value constant
    rw [constant] at free
    cases free

end

/-- Whatever is passed on twice is relayed. -/
def relay : Search where
  database := {
    facts := [⟨"pass", [⟨"ann"⟩, ⟨"bob"⟩]⟩, ⟨"pass", [⟨"bob"⟩, ⟨"cal"⟩]⟩]
    rules := [⟨⟨"relay", [⟨"X"⟩, ⟨"Z"⟩]⟩, [⟨"pass", [⟨"X"⟩, ⟨"Y"⟩]⟩, ⟨"pass", [⟨"Y"⟩, ⟨"Z"⟩]⟩]⟩] }
  limits := {}
  supply := ⟨1⟩

/-- The search after a first run. -/
def relayed : Search := { relay with supply := ⟨5⟩, stats := ⟨4, 8, 1, 1, 1⟩ }

def onward : List ScopedAtom := [⟨⟨"relay", [⟨"T"⟩, ⟨"W"⟩]⟩, 0⟩]

/-- The second run goes on from the solution of the first one, which ends where the other begins. -/
theorem rule_scopes_fresh_relay :
    ∃ solution start solutions drawn path,
      relay.run 30 [⟨⟨"relay", [⟨"U"⟩, ⟨"V"⟩]⟩, 0⟩] Partition.empty = some ⟨.ok [solution], relayed⟩ ∧
      constrain [(.var "V" 0, .var "T" 0)] solution = some start ∧ Session relay relayed solutions drawn ∧
      (solution, path) ∈ solutions ∧ Admissible relayed solutions onward start path ∧
      Reaches (relayed.start onward start) path (relayed.start onward start) { pending := [path] } ∧
      drawn.Nodup ∧ path.Nodup ∧ 5 ∉ drawn ∧
      ∀ name, solution.contains (.var name 5) = false ∧ start.contains (.var name 5) = false := by
  have ran : (relay.run 30 [⟨⟨"relay", [⟨"U"⟩, ⟨"V"⟩]⟩, 0⟩] Partition.empty).map
      (fun outcome => (outcome.result.map (List.map (Option.isSome ∘ constrain [(.var "V" 0, .var "T" 0)])),
        outcome.search)) = some (.ok [true], relayed) := by cbv
  obtain ⟨outcome, ended, read⟩ := Option.map_eq_some_iff.mp ran
  obtain ⟨result, after⟩ := outcome
  obtain ⟨same, rfl⟩ := Prod.mk.inj read
  cases result with
  | error error => cases same
  | ok found =>
    obtain ⟨solution, rfl, added⟩ := List.map_eq_singleton_iff.mp (Except.ok.inj same)
    obtain ⟨start, added⟩ := Option.isSome_iff_exists.mp added
    have first : Admissible relay [] [⟨⟨"relay", [⟨"U"⟩, ⟨"V"⟩]⟩, 0⟩] Partition.empty [] :=
      ⟨⟨_, [], List.mem_cons_self .., rfl, by simp [Mentioned]⟩, by simp [relay]⟩
    have tracked := first.tracked (Session.settled .begun)
    obtain ⟨last, trail, reached, stopped⟩ := Reaches.exists_last .start tracked ended
    have session := Session.answered .begun first reached stopped
    have paired := List.rel_reverse (reached.tracked tracked).found
    rw [← (ended_keeps stopped).2 _ rfl] at paired
    obtain ⟨path, _, _, none, same⟩ := List.forall₂_cons_left_iff.mp paired
    rw [List.forall₂_nil_left_iff.mp none] at same
    rw [same] at session
    have next : Admissible relayed [(solution, path)] onward start path :=
      ⟨⟨solution, _, List.mem_cons_of_mem _ (List.mem_singleton.mpr rfl), added, by simp [Mentioned, BelowScope, relayed]⟩,
        by simp [relayed, onward]⟩
    obtain ⟨once, single, moment⟩ := rule_scopes_fresh session next .start
    obtain ⟨unused, _, unknown, new, _⟩ := moment _ [] start 0 [] _ rfl rfl 0 _ 5 rfl
    refine ⟨solution, start, _, _, path, ended, added, session, List.mem_singleton.mpr rfl, next, .start, ?_, ?_, ?_, ?_⟩
    · simpa using once
    · simpa using single
    · simpa using new
    · intro name
      exact ⟨unknown solution (by simp) name, (unused _ (List.mem_singleton.mpr rfl)).2 name⟩

end Backchain.Proofs
