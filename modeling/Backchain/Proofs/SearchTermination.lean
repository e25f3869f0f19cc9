import Backchain.Proofs.SearchEnumeration

/-! When a search ends. Whether goals can be expanded so many times in a row is a matter of the database and of constants
for their variables, not of scopes and partitions. A search without limits ends exactly if there is a bound on it, and
counts at least as many steps. -/

namespace Backchain.Proofs

/-- So many resolution steps are possible in a row, each on the first of the goals. -/
inductive Resolvable (database : Database) : Nat → List (Atom × (String → String)) → Prop where
  | stop {goals : List (Atom × (String → String))} : Resolvable database 0 goals
  | fact {count : Nat} {goal : Atom} {assign : String → String} {goals : List (Atom × (String → String))} {index : Nat}
      {fact : Atom} (stored : database.facts[index]? = some fact) (apart : Apart fact goal)
      (same : instantiate assign fact = instantiate assign goal) (others : Resolvable database count goals) :
      Resolvable database (count + 1) ((goal, assign) :: goals)
  | rule {count : Nat} {goal : Atom} {assign : String → String} {goals : List (Atom × (String → String))} {index : Nat}
      {rule : Rule} (stored : database.rules[index]? = some rule) (own : String → String)
      (same : instantiate own rule.head = instantiate assign goal)
      (others : Resolvable database count (rule.body.map (·, own) ++ goals)) :
      Resolvable database (count + 1) ((goal, assign) :: goals)

variable {database : Database} {count : Nat}

/-- The steps on two lists of goals are steps on the first, and then on the second. -/
theorem Resolvable.split {first second : List (Atom × (String → String))}
    (possible : Resolvable database count (first ++ second)) :
    ∃ i j, count = i + j ∧ Resolvable database i first ∧ Resolvable database j second := by
  induction count generalizing first with
  | zero => exact ⟨0, 0, rfl, .stop, .stop⟩
  | succ count ih =>
    cases first with
    | nil => exact ⟨0, count + 1, (Nat.zero_add _).symm, .stop, possible⟩
    | cons goal first =>
      cases possible with
      | fact stored apart same others =>
        obtain ⟨i, j, rfl, left, right⟩ := ih others
        exact ⟨i + 1, j, Nat.add_right_comm i j 1, .fact stored apart same left, right⟩
      | rule stored own same others =>
        change Resolvable database count (_ ++ (first ++ second)) at others
        rw [← List.append_assoc] at others
        obtain ⟨i, j, rfl, left, right⟩ := ih others
        exact ⟨i + 1, j, Nat.add_right_comm i j 1, .rule stored own same left, right⟩

theorem Resolvable.append {goals : List (Atom × (String → String))} (possible : Resolvable database count goals)
    (more : List (Atom × (String → String))) : Resolvable database count (goals ++ more) := by
  induction possible with
  | stop => exact .stop
  | fact stored apart same _ ih => exact .fact stored apart same ih
  | rule stored own same _ ih =>
    rw [List.append_assoc] at ih
    exact .rule stored own same ih

/-- Once the first goals are proved, the steps on the others follow. -/
theorem Solved.exists_resolvable {goals more : List (Atom × (String → String))} {shape : ProofForest Unit}
    (solved : Solved database goals shape) (possible : Resolvable database count more) :
    ∃ total, count ≤ total ∧ Resolvable database total (goals ++ more) := by
  induction solved generalizing more count with
  | done => exact ⟨count, Nat.le_refl count, possible⟩
  | fact stored apart same _ ih =>
    obtain ⟨total, enough, others⟩ := ih possible
    exact ⟨total + 1, Nat.le_succ_of_le enough, .fact stored apart same others⟩
  | rule stored own same _ _ bodyIh ih =>
    obtain ⟨middle, enough, others⟩ := ih possible
    obtain ⟨total, longer, body⟩ := bodyIh others
    exact ⟨total + 1, Nat.le_succ_of_le (enough.trans longer), .rule stored own same body⟩

/-! ### What a search that has ended has counted -/

theorem enter_steps {search counted : Search} {depth : Nat} (entered : search.enter depth = (none, counted)) :
    counted.stats.steps = search.stats.steps + 1 := by
  rw [Search.enter] at entered
  split at entered
  · cases entered
  · dsimp only at entered
    split at entered <;> cases entered
    rfl

theorem Explores.steps_le {search after : Search} {pending : List Branch} {found : List Partition}
    (explored : Explores search pending found after) : search.stats.steps ≤ after.stats.steps := by
  induction explored with
  | done search => exact Nat.le_refl _
  | solution others ih => exact ih
  | @expansion search counted middle after goal rest partition depth pending inner found allowed _ _ childrenIh ih =>
    have entered := enter_steps allowed
    change counted.stats.steps ≤ middle.stats.steps at childrenIh
    omega

/-- The steps that are possible under some constants for a branch are steps of the search. -/
theorem Explores.resolvable_le {search after : Search} {pending : List Branch} {found : List Partition}
    (explored : Explores search pending found after) {branch : Branch} (member : branch ∈ pending)
    {history : List (Key × Key)} (built : Built history branch.partition)
    (below : ScopesBelow search.supply.next branch.goals branch.partition) {valuation : Valuation}
    (respects : valuation.Respects branch.partition)
    (possible : Resolvable search.database count (valuation.assigned branch.goals)) :
    search.stats.steps + count ≤ after.stats.steps := by
  induction explored generalizing branch history valuation count with
  | done search => exact absurd member List.not_mem_nil
  | solution others ih =>
    rcases List.mem_cons.mp member with rfl | later
    · cases possible
      exact others.steps_le
    · exact ih later built below respects possible
  | @expansion search counted middle after goal rest partition depth pending inner found allowed children others
      childrenIh ih =>
    obtain ⟨database, supply⟩ := enter_keeps allowed
    have entered := enter_steps allowed
    obtain ⟨sameInner, boundInner, _⟩ := children.enumerates
    rw [expand_next, database, supply] at boundInner
    rw [expand_database, database] at sameInner
    have spent := others.steps_le
    have begun : counted.stats.steps ≤ middle.stats.steps := children.steps_le
    rcases List.mem_cons.mp member with rfl | later
    · rw [expand_eq_candidates, expand_database, expand_next, database, supply] at childrenIh
      -- A first step on the goal is a child of the branch, and what is possible afterwards is possible there.
      have descend {candidate : Candidate} {child : Branch} {moved : Valuation} {left : List (Atom × (String → String))}
          {remaining : Nat} (lifts : Lifts search.database search.supply.next goal rest partition depth valuation
            candidate child moved left) (others : Resolvable search.database remaining left) :
          counted.stats.steps + remaining ≤ middle.stats.steps := by
        obtain ⟨equation, extended, _⟩ := candidate.sound lifts.possible lifts.begun built
        refine childrenIh (List.mem_filterMap.mpr ⟨candidate, lifts.possible, lifts.begun⟩) extended lifts.below
          lifts.respects ?_
        rwa [lifts.assigned]
      cases possible with
      | stop => omega
      | fact stored apart same others =>
        obtain ⟨child, lifts⟩ := exists_lift_fact built below respects depth stored apart same
        have bound := descend lifts others
        omega
      | rule stored own same others =>
        obtain ⟨child, lifts⟩ := exists_lift_rule built below respects depth stored same
        have bound := descend lifts others
        omega
    · have bound := ih later built (below.mono ((Nat.le_add_right _ _).trans boundInner)) respects (by rwa [sameInner])
      omega

theorem resolvable_lt_of_run {search after : Search} {fuel : Nat} {goals : List ScopedAtom} {start : Partition}
    {found : List Partition} {history : List (Key × Key)} {valuation : Valuation}
    (ran : search.run fuel goals start = some ⟨.ok found, after⟩) (built : Built history start)
    (below : ScopesBelow search.supply.next goals start) (respects : valuation.Respects start)
    (possible : Resolvable search.database count (valuation.assigned goals)) : count < after.stats.steps + 1 := by
  have counted := (Explores.of_run ran).resolvable_le (List.mem_singleton.mpr rfl) built below respects possible
  omega

/-! ### Searches that end -/

theorem Explores.append {search middle after : Search} {first second : List Branch} {inner outer : List Partition}
    (left : Explores search first inner middle) (right : Explores middle second outer after) :
    Explores search (first ++ second) (inner ++ outer) after := by
  induction left with
  | done => exact right
  | solution _ ih => exact .solution (ih right)
  | expansion allowed children _ _ ih =>
    rw [List.append_assoc]
    exact .expansion allowed children (ih right)

/-- What has been explored has been found by so many steps of a run, whatever was pending besides. -/
theorem Explores.exists_finish {search after : Search} {first : List Branch} {found : List Partition}
    (explored : Explores search first found after) : ∃ cost, ∀ fuel pending earlier,
      Run.finish (fuel + cost) ⟨search, first ++ pending, earlier⟩ =
        Run.finish fuel ⟨after, pending, found.reverse ++ earlier⟩ := by
  induction explored with
  | done search => exact ⟨0, fun _ _ _ => rfl⟩
  | solution _ ih =>
    obtain ⟨cost, finished⟩ := ih
    refine ⟨cost + 1, fun fuel pending earlier => ?_⟩
    rw [List.reverse_cons, List.append_assoc]
    exact finished fuel pending _
  | @expansion search counted middle after goal rest partition depth later inner found allowed _ _ childrenIh ih =>
    obtain ⟨inside, children⟩ := childrenIh
    obtain ⟨outside, others⟩ := ih
    refine ⟨outside + inside + 1, fun fuel pending earlier => ?_⟩
    have stepped : Run.step ⟨search, ⟨goal :: rest, partition, depth⟩ :: later ++ pending, earlier⟩ =
        .running ⟨(counted.expand goal rest partition depth).2,
          (counted.expand goal rest partition depth).1 ++ (later ++ pending), earlier⟩ := by
      simp only [List.cons_append, Run.step, allowed]
    rw [← Nat.add_assoc, Run.finish, stepped]
    change Run.finish (fuel + (outside + inside)) _ = _
    rw [← Nat.add_assoc, children, others, List.reverse_append, List.append_assoc]

theorem Explores.exists_run {search after : Search} {goals : List ScopedAtom} {start : Partition}
    {found : List Partition} (explored : Explores search [⟨goals, start, 0⟩] found after) :
    ∃ fuel, search.run fuel goals start = some ⟨.ok found, after⟩ := by
  obtain ⟨cost, finished⟩ := explored.exists_finish
  refine ⟨1 + cost, ?_⟩
  have ended := finished 1 [] []
  rwa [List.append_nil, List.append_nil, Run.finish, Run.step, List.reverse_reverse] at ended

/-- From wherever a search without limits stands, it comes to the end of the branch. -/
def Ends (database : Database) (branch : Branch) : Prop :=
  ∀ search : Search, search.database = database → search.limits = .unbounded →
    ∃ found after, Explores search [branch] found after ∧ after.database = database ∧ after.limits = .unbounded

theorem exists_explores_of_ends {pending : List Branch} (ends : ∀ branch ∈ pending, Ends database branch)
    {search : Search} (same : search.database = database) (free : search.limits = .unbounded) :
    ∃ found after, Explores search pending found after ∧ after.database = database ∧ after.limits = .unbounded := by
  induction pending generalizing search with
  | nil => exact ⟨[], search, .done search, same, free⟩
  | cons branch pending ih =>
    obtain ⟨first, others⟩ := List.forall_mem_cons.mp ends
    obtain ⟨inner, middle, left, sameMiddle, freeMiddle⟩ := first search same free
    obtain ⟨outer, after, right, kept⟩ := ih others sameMiddle freeMiddle
    exact ⟨inner ++ outer, after, left.append right, kept⟩

theorem exists_enter_of_unbounded {search : Search} (free : search.limits = .unbounded) (depth : Nat) :
    ∃ counted, search.enter depth = (none, counted) ∧ counted.limits = .unbounded := by
  simp [Search.enter, Search.depthExceeded?, Search.stepsExceeded?, free, Limits.unbounded]

/-- Under constants that the child still allows, what is possible for the child is possible after a step. -/
theorem Candidate.resolvable_succ {low depth : Nat} {goal : ScopedAtom} {rest : List ScopedAtom} {partition : Partition}
    {history : List (Key × Key)} {candidate : Candidate} {child : Branch}
    (possible : candidate ∈ candidates database low) (begun : candidate.branch goal rest partition depth = some child)
    (built : Built history partition) :
    ∃ equation, Built (history ++ equation) child.partition ∧ ∀ valuation : Valuation, valuation.Satisfies equation →
      ∀ count, Resolvable database count (valuation.assigned child.goals) →
        Resolvable database (count + 1) (valuation.assigned (goal :: rest)) := by
  cases candidate with
  | fact index fact =>
    obtain ⟨extended, unified, rfl⟩ := Option.map_eq_some_iff.mp begun
    obtain ⟨fits, finished⟩ := built.of_unify unified
    refine ⟨_, finished, fun valuation satisfied count others => ?_⟩
    have same := fits.ground_eq satisfied
    rw [Valuation.ground_eq, Valuation.ground_eq] at same
    exact .fact (fact_mem_candidates.mp possible) (apart_iff.mp fits.apart) same others
  | rule index rule scope =>
    obtain ⟨extended, unified, rfl⟩ := Option.map_eq_some_iff.mp begun
    obtain ⟨fits, finished⟩ := built.of_unify unified
    refine ⟨_, finished, fun valuation satisfied count others => ?_⟩
    have same := fits.ground_eq satisfied
    rw [Valuation.ground_eq, Valuation.ground_eq] at same
    rw [Valuation.assigned, List.map_append, List.map_map] at others
    exact .rule (rule_mem_candidates.mp possible).1 (valuation.within scope) same others

/-- A branch ends if there is a bound on the steps that are possible under the constants that it allows. -/
theorem ends_of_resolvable_lt {bound : Nat} {branch : Branch} {history : List (Key × Key)}
    (built : Built history branch.partition)
    (bounded : ∀ valuation : Valuation, valuation.Respects branch.partition →
      ∀ count, Resolvable database count (valuation.assigned branch.goals) → count < bound) : Ends database branch := by
  induction bound generalizing branch history with
  | zero =>
    obtain ⟨valuation, satisfied⟩ := consistent_iff_satisfiable.mp built.represents.consistent
    exact absurd (bounded valuation (built.respects_iff.mpr satisfied) 0 .stop) (Nat.not_lt_zero 0)
  | succ bound ih =>
    obtain ⟨goals, partition, depth⟩ := branch
    intro search same free
    cases goals with
    | nil => exact ⟨[partition], search.countSolution, .solution (.done _), same, free⟩
    | cons goal rest =>
      obtain ⟨counted, entered, freeCounted⟩ := exists_enter_of_unbounded free depth
      have sameCounted : counted.database = database := (enter_keeps entered).1.trans same
      have ends : ∀ child ∈ (counted.expand goal rest partition depth).1, Ends database child := by
        intro child member
        rw [expand_eq_candidates, sameCounted] at member
        obtain ⟨candidate, possible, begun⟩ := List.mem_filterMap.mp member
        obtain ⟨equation, extended, step⟩ := candidate.resolvable_succ possible begun built
        refine ih extended fun valuation respects count others => ?_
        obtain ⟨old, new⟩ := Valuation.Satisfies.append_iff.mp (extended.respects_iff.mp respects)
        exact Nat.lt_of_succ_lt_succ (bounded valuation (built.respects_iff.mpr old) _ (step valuation new count others))
      have sameExpanded : (counted.expand goal rest partition depth).2.database = database := sameCounted
      obtain ⟨found, after, explored, kept⟩ := exists_explores_of_ends ends sameExpanded freeCounted
      exact ⟨found ++ [], after, .expansion entered explored (.done after), kept⟩

theorem exists_run_of_resolvable_lt {search : Search} (free : search.limits = .unbounded) {goals : List ScopedAtom}
    {history : List (Key × Key)} {start : Partition} (built : Built history start) {bound : Nat}
    (bounded : ∀ valuation : Valuation, valuation.Respects start →
      ∀ count, Resolvable search.database count (valuation.assigned goals) → count < bound) :
    ∃ fuel found after, search.run fuel goals start = some ⟨.ok found, after⟩ := by
  have ends : Ends search.database ⟨goals, start, 0⟩ := ends_of_resolvable_lt built bounded
  obtain ⟨found, after, explored, _⟩ := ends search rfl free
  obtain ⟨fuel, ran⟩ := explored.exists_run
  exact ⟨fuel, found, after, ran⟩

/-- A bound that does not depend on scopes is enough to start from nothing. -/
theorem exists_run_of_bound {search : Search} (free : search.limits = .unbounded) {goals : List ScopedAtom}
    {bound : Nat} (bounded : ∀ assigns count,
      Resolvable search.database count ((goals.map ScopedAtom.atom).zip assigns) → count ≤ bound) :
    ∃ fuel found after, search.run fuel goals Partition.empty = some ⟨.ok found, after⟩ := by
  have fewer (valuation : Valuation) (count : Nat)
      (possible : Resolvable search.database count (valuation.assigned goals)) : count < bound + 1 := by
    rw [Valuation.assigned_eq_zip] at possible
    exact Nat.lt_succ_of_le (bounded _ count possible)
  exact exists_run_of_resolvable_lt free Built.nil fun valuation _ => fewer valuation

end Backchain.Proofs
