import Backchain.Engine
import Backchain.Proofs.Expansion
import Backchain.Proofs.KeyRenaming
import Backchain.Proofs.Lists

/-! Two searches in step. When the rules and facts of one lead from every goal to the branches of the other under other
keys, whatever scopes the rules have come to, the runs of the two take the same steps: they end at the same time and in
the same way, and have then counted the same. -/

namespace Backchain

/-- What a search has counted since it was begun. -/
structure Tally where
  expansions : Nat := 0
  steps : Nat := 0
  ruleApplications : Nat := 0
  solutions : Nat := 0
  deepest : Nat := 0

namespace Search

/-- Every expansion tries all facts, and takes a scope for every rule. -/
def gain (search : Search) (tally : Tally) : Search :=
  { search with
    supply := ⟨search.supply.next + tally.expansions * search.database.rules.length⟩
    stats := {
      steps := search.stats.steps + tally.steps
      unifications := search.stats.unifications + tally.expansions * search.database.facts.length
      ruleApplications := search.stats.ruleApplications + tally.ruleApplications
      solutions := search.stats.solutions + tally.solutions
      maxDepth := max search.stats.maxDepth tally.deepest } }

/-- How many more goals may be expanded. None may where the limit is passed already. -/
def stepsLeft? (search : Search) : Option Nat := search.limits.maxSteps.map (· - search.stats.steps)

@[simp] theorem gain_zero (search : Search) : search.gain {} = search := by
  simp [gain]

@[simp] theorem gain_database (search : Search) (tally : Tally) : (search.gain tally).database = search.database :=
  rfl

@[simp] theorem gain_next (search : Search) (tally : Tally) : (search.gain tally).supply.next =
    search.supply.next + tally.expansions * search.database.rules.length :=
  rfl

theorem expand_gain (search : Search) (tally : Tally) (goal : ScopedAtom) (rest : List ScopedAtom)
    (partition : Partition) (depth : Nat) :
    (search.gain tally).expand goal rest partition depth =
      (factBranches search.database.facts goal rest partition depth ++
          ruleBranches (Proofs.instances (search.gain tally)) goal rest partition depth,
        search.gain { tally with
          expansions := tally.expansions + 1
          ruleApplications := tally.ruleApplications +
            (ruleBranches (Proofs.instances (search.gain tally)) goal rest partition depth).length }) := by
  simp only [expand, gain, Proofs.instances, ScopeSupply.draw_eq, Nat.succ_mul, Nat.add_assoc]

end Search

namespace Proofs

/-! ### What related runs end with -/

/-- The same kind of limit, each of the two as its own search has it. -/
inductive SameError (limits other : Limits) : LimitError → LimitError → Prop where
  | depth (limit : Nat) : SameError limits other (.depthExceeded limit) (.depthExceeded limit)
  | steps {limit limit' : Nat} (own : limits.maxSteps = some limit) (others : other.maxSteps = some limit') :
      SameError limits other (.stepsExceeded limit) (.stepsExceeded limit')

theorem SameError.eq {limits : Limits} {error other : LimitError} (same : SameError limits limits error other) :
    error = other := by
  cases same with
  | depth limit => rfl
  | steps own others => rw [Option.some.inj (own.symm.trans others)]

/-- Both have counted the same since they were begun. -/
def CountsAlike (search other later copied : Search) : Prop :=
  ∃ tally, later = search.gain tally ∧ copied = other.gain tally

/-- The solutions are related one by one, or the same limit is exceeded. -/
inductive SameResult (limits other : Limits) (alike : Partition → Partition → Prop) :
    Except LimitError (List Partition) → Except LimitError (List Partition) → Prop where
  | found {solutions copies : List Partition} (each : List.Forall₂ alike solutions copies) :
      SameResult limits other alike (.ok solutions) (.ok copies)
  | exceeded {error error' : LimitError} (same : SameError limits other error error') :
      SameResult limits other alike (.error error) (.error error')

/-- Both runs have ended in the same way, and have counted the same. -/
structure Agrees (alike : Partition → Partition → Prop) (search other : Search) (outcome copy : Outcome) : Prop where
  result : SameResult search.limits other.limits alike outcome.result copy.result
  counted : CountsAlike search other outcome.search copy.search

section
variable {alike alike' : Partition → Partition → Prop} {limits limits' : Limits}
  {result copy : Except LimitError (List Partition)}

theorem SameResult.mono (same : SameResult limits limits' alike result copy) (implies : ∀ a b, alike a b → alike' a b) :
    SameResult limits limits' alike' result copy := by
  cases same with
  | found each => exact .found (each.imp implies)
  | exceeded same => exact .exceeded same

theorem SameResult.symm (same : SameResult limits limits' alike result copy) :
    SameResult limits' limits (flip alike) copy result := by
  cases same with
  | found each => exact .found each.flip
  | exceeded same =>
    cases same with
    | depth limit => exact .exceeded (.depth limit)
    | steps own others => exact .exceeded (.steps others own)

end

/-- Under the same limits, what is read off related solutions alike is the same result. -/
theorem map_eq_of_rel {β : Type} {alike : Partition → Partition → Prop} {limits : Limits} {read : List Partition → β}
    {result copy : Option (Except LimitError (List Partition))}
    (rel : Option.Rel (SameResult limits limits alike) result copy)
    (same : ∀ solutions copies, List.Forall₂ alike solutions copies → read copies = read solutions) :
    copy.map (·.map read) = result.map (·.map read) := by
  cases rel with
  | none => rfl
  | some here =>
    cases here with
    | found each => exact congrArg (some ∘ Except.ok) (same _ _ each)
    | exceeded error => rw [error.eq]

theorem CountsAlike.symm {search other later copied : Search} (alike : CountsAlike search other later copied) :
    CountsAlike other search copied later := by
  obtain ⟨tally, counted, same⟩ := alike
  exact ⟨tally, same, counted⟩

/-! ### Related branches and searches -/

def RenamedKeys (naming : Renaming) (partition copy : Partition) : Prop := copy = partition.renameKeys naming

theorem RenamedKeys.isEmpty_eq {naming : Renaming} {partition copy : Partition}
    (same : RenamedKeys naming partition copy) : copy.isEmpty = partition.isEmpty := by
  rw [same, Partition.isEmpty_renameKeys]

/-- The same branch with its keys renamed, and its goals replaced by related ones. -/
structure Copies (naming : Renaming) (related : ScopedAtom → ScopedAtom → Prop) (branch copy : Branch) : Prop where
  goals : List.Forall₂ related branch.goals copy.goals
  partition : RenamedKeys naming branch.partition copy.partition
  depth : copy.depth = branch.depth

/-- Two searches with as much left of their limits. The clauses of the second one start the copies of what those of the
first one start, after every number of expansions. -/
structure Simulates (naming : Renaming) (related : ScopedAtom → ScopedAtom → Prop) (search other : Search) : Prop where
  maxDepth : other.limits.maxDepth = search.limits.maxDepth
  stepsLeft : other.stepsLeft? = search.stepsLeft?
  facts : ∀ goal copy rest rests partition depth, related goal copy → List.Forall₂ related rest rests →
    List.Forall₂ (Copies naming related) (Search.factBranches search.database.facts goal rest partition depth)
      (Search.factBranches other.database.facts copy rests (partition.renameKeys naming) depth)
  rules : ∀ tally goal copy rest rests partition depth, related goal copy → List.Forall₂ related rest rests →
    List.Forall₂ (Copies naming related)
      (Search.ruleBranches (instances (search.gain tally)) goal rest partition depth)
      (Search.ruleBranches (instances (other.gain tally)) copy rests (partition.renameKeys naming) depth)

structure Lockstep (naming : Renaming) (related : ScopedAtom → ScopedAtom → Prop) (search other : Search)
    (run copy : Run) : Prop where
  counted : CountsAlike search other run.search copy.search
  pending : List.Forall₂ (Copies naming related) run.pending copy.pending
  found : List.Forall₂ (RenamedKeys naming) run.found copy.found

inductive InStep (naming : Renaming) (related : ScopedAtom → ScopedAtom → Prop) (search other : Search) :
    Progress → Progress → Prop where
  | running {run copy : Run} (lockstep : Lockstep naming related search other run copy) :
      InStep naming related search other (.running run) (.running copy)
  | ended {outcome copy : Outcome} (agrees : Agrees (RenamedKeys naming) search other outcome copy) :
      InStep naming related search other (.ended outcome) (.ended copy)

variable {naming : Renaming} {related : ScopedAtom → ScopedAtom → Prop} {search other : Search}

/-! ### Limits -/

theorem Simulates.depthExceeded (simulates : Simulates naming related search other) (depth : Nat) :
    Option.Rel (SameError search.limits other.limits) (Search.depthExceeded? search.limits depth)
      (Search.depthExceeded? other.limits depth) := by
  rw [Search.depthExceeded?, Search.depthExceeded?, simulates.maxDepth]
  split
  · split
    · exact .some (.depth _)
    · exact .none
  · exact .none

theorem Simulates.stepsExceeded (simulates : Simulates naming related search other) (steps : Nat) :
    Option.Rel (SameError search.limits other.limits)
      (Search.stepsExceeded? search.limits (search.stats.steps + steps + 1))
      (Search.stepsExceeded? other.limits (other.stats.steps + steps + 1)) := by
  have left := simulates.stepsLeft
  rw [Search.stepsLeft?, Search.stepsLeft?] at left
  rw [Search.stepsExceeded?, Search.stepsExceeded?]
  cases own : search.limits.maxSteps with
  | none =>
    rw [own, Option.map_none, Option.map_eq_none_iff] at left
    rw [left]
    exact .none
  | some limit =>
    obtain ⟨limit', others, remaining⟩ : ∃ limit', other.limits.maxSteps = some limit' ∧
        limit' - other.stats.steps = limit - search.stats.steps := by
      simpa [own] using left
    have passed : limit' < other.stats.steps + steps + 1 ↔ limit < search.stats.steps + steps + 1 := by omega
    rw [others]
    simp only [passed]
    split
    · exact .some (.steps own others)
    · exact .none

/-- Both are let on to the next goal, or both are stopped. -/
theorem Simulates.enter (simulates : Simulates naming related search other) (tally : Tally) (depth : Nat) :
    ∃ error error' later, (search.gain tally).enter depth = (error, search.gain later) ∧
      (other.gain tally).enter depth = (error', other.gain later) ∧
      Option.Rel (SameError search.limits other.limits) error error' := by
  have deep := simulates.depthExceeded depth
  have late := simulates.stepsExceeded tally.steps
  have limits (begun : Search) : (begun.gain tally).limits = begun.limits := rfl
  have steps (begun : Search) : (begun.gain tally).stats.steps = begun.stats.steps + tally.steps := rfl
  simp only [Search.enter, limits, steps]
  generalize Search.depthExceeded? search.limits depth = error, Search.depthExceeded? other.limits depth = error' at deep
  cases deep with
  | some same => exact ⟨_, _, tally, rfl, rfl, .some same⟩
  | none =>
    generalize Search.stepsExceeded? search.limits _ = error, Search.stepsExceeded? other.limits _ = error' at late
    cases late with
    | some same => exact ⟨_, _, { tally with steps := tally.steps + 1 }, rfl, rfl, .some same⟩
    | none =>
      refine ⟨none, none, { tally with steps := tally.steps + 1, deepest := max tally.deepest depth }, ?_, ?_, .none⟩
      · simp [Search.gain, Nat.add_assoc, Nat.max_assoc]
      · simp [Search.gain, Nat.add_assoc, Nat.max_assoc]

/-! ### Runs -/

theorem Lockstep.step {run copy : Run} (simulates : Simulates naming related search other)
    (lockstep : Lockstep naming related search other run copy) :
    InStep naming related search other run.step copy.step := by
  obtain ⟨⟨tally, counted, copied⟩, pending, found⟩ := lockstep
  obtain ⟨current, branches, solutions⟩ := run
  obtain ⟨current', copies, solutions'⟩ := copy
  subst counted copied
  cases pending with
  | nil => exact .ended ⟨.found (List.rel_reverse found), tally, rfl, rfl⟩
  | @cons branch branch' branches copies first pending =>
    obtain ⟨goals, partition, depth⟩ := branch
    obtain ⟨goals', partition', depth'⟩ := branch'
    obtain ⟨asked, same, deep⟩ := first
    dsimp only at asked same deep
    subst same deep
    cases asked with
    | nil => exact .running ⟨⟨{ tally with solutions := tally.solutions + 1 }, rfl, rfl⟩, pending, .cons rfl found⟩
    | @cons goal goal' rest rest' here later =>
      obtain ⟨error, error', counted, entered, entered', same⟩ := simulates.enter tally depth'
      simp only [Run.step, entered, entered']
      cases same with
      | some same => exact .ended ⟨.exceeded same, counted, rfl, rfl⟩
      | none =>
        have facts := simulates.facts goal goal' rest rest' partition depth' here later
        have rules := simulates.rules counted goal goal' rest rest' partition depth' here later
        simp only [Search.expand_gain]
        refine .running ⟨⟨_, rfl, ?_⟩, List.rel_append (List.rel_append facts rules) pending, found⟩
        rw [rules.length_eq]

theorem Lockstep.finish {run copy : Run} (simulates : Simulates naming related search other)
    (lockstep : Lockstep naming related search other run copy) (fuel : Nat) :
    Option.Rel (Agrees (RenamedKeys naming) search other) (run.finish fuel) (copy.finish fuel) := by
  induction fuel generalizing run copy with
  | zero => exact .none
  | succ fuel ih =>
    rw [Run.finish, Run.finish]
    have stepped := lockstep.step simulates
    generalize run.step = progress, copy.step = progress' at stepped
    cases stepped with
    | running lockstep => exact ih lockstep
    | ended agrees => exact .some agrees

theorem Simulates.run {goals copies : List ScopedAtom} (simulates : Simulates naming related search other)
    (asked : List.Forall₂ related goals copies) (start : Partition) (fuel : Nat) :
    Option.Rel (Agrees (RenamedKeys naming) search other) (search.run fuel goals start)
      (other.run fuel copies (start.renameKeys naming)) := by
  apply Lockstep.finish simulates
  exact ⟨⟨{}, search.gain_zero.symm, other.gain_zero.symm⟩, .cons ⟨asked, rfl, rfl⟩ .nil, .nil⟩

/-- A question is asked of a search of its own, from the empty partition. -/
theorem Simulates.partitions {engine copied : Engine} {goals copies : List ScopedAtom}
    (simulates : Simulates naming related (engine.search goals) (copied.search copies))
    (asked : List.Forall₂ related goals copies) (fuel : Nat) :
    Option.Rel (SameResult engine.limits copied.limits (RenamedKeys naming)) (engine.partitions fuel goals)
      (copied.partitions fuel copies) := by
  have ran := simulates.run asked Partition.empty fuel
  rw [Partition.renameKeys_empty] at ran
  exact rel_map ran fun _ _ agrees => agrees.result

/-! ### Clauses -/

section
variable {goal copy : ScopedAtom} {rest rests : List ScopedAtom}

theorem Copies.of_fact {fact fact' : Atom} (goals : Renames naming goal copy) (later : List.Forall₂ related rest rests)
    (facts : Renames naming ⟨fact, goal.scope⟩ ⟨fact', copy.scope⟩) (partition : Partition) (depth : Nat) :
    Option.Rel (Copies naming related)
      ((unify ⟨fact, goal.scope⟩ goal partition).map (⟨rest, ·, depth⟩))
      ((unify ⟨fact', copy.scope⟩ copy (partition.renameKeys naming)).map (⟨rests, ·, depth⟩)) := by
  rw [unify_renameKeys facts goals]
  cases unify ⟨fact, goal.scope⟩ goal partition with
  | none => exact .none
  | some after => exact .some ⟨later, rfl, rfl⟩

/-- The premises only matter where the head has the goal's predicate. -/
theorem Copies.of_rule {rule rule' : Rule} {scope scope' : Scope} (goals : Renames naming goal copy)
    (later : List.Forall₂ related rest rests) (heads : Renames naming ⟨rule.head, scope⟩ ⟨rule'.head, scope'⟩)
    (bodies : rule.head.predicate = goal.atom.predicate ∧ rule.head.arity = goal.atom.arity →
      List.Forall₂ related (rule.body.map (⟨·, scope⟩)) (rule'.body.map (⟨·, scope'⟩)))
    (partition : Partition) (depth : Nat) :
    Option.Rel (Copies naming related)
      ((rule.apply scope goal partition).map fun (premises, extended) => ⟨premises ++ rest, extended, depth + 1⟩)
      ((rule'.apply scope' copy (partition.renameKeys naming)).map fun (premises, extended) =>
        ⟨premises ++ rests, extended, depth + 1⟩) := by
  rw [Rule.apply, Rule.apply, unify_renameKeys heads goals]
  by_cases same : rule.head.predicate = goal.atom.predicate ∧ rule.head.arity = goal.atom.arity
  · cases unify ⟨rule.head, scope⟩ goal partition with
    | none => exact .none
    | some after => exact .some ⟨List.rel_append (bodies same) later, rfl, rfl⟩
  · rw [unify, if_neg same]
    exact .none

/-! Where only the scopes are other ones, the clauses are the same. -/

variable {change : Scope → Scope} (injective : Function.Injective change) (goal : ScopedAtom)
  (later : List.Forall₂ related rest rests) (partition : Partition) (depth : Nat)
include later

theorem Copies.factBranches (facts : List Atom) :
    List.Forall₂ (Copies (.ofScopes change injective) related) (Search.factBranches facts goal rest partition depth)
      (Search.factBranches facts (goal.mapScope change) rests (partition.renameKeys (.ofScopes change injective)) depth) := by
  apply List.rel_filterMap _ (List.forall₂_same.mpr fun _ _ => rfl)
  intro fact fact' equal
  subst equal
  exact Copies.of_fact (renames_mapScope change injective goal) later
    (renames_mapScope change injective ⟨fact, goal.scope⟩) partition depth

theorem Copies.ruleBranches (entries : List (Rule × Scope))
    (bodies : ∀ entry ∈ entries,
      entry.1.head.predicate = goal.atom.predicate ∧ entry.1.head.arity = goal.atom.arity →
      ∀ premise ∈ entry.1.body, related ⟨premise, entry.2⟩ ⟨premise, change entry.2⟩) :
    List.Forall₂ (Copies (.ofScopes change injective) related) (Search.ruleBranches entries goal rest partition depth)
      (Search.ruleBranches (entries.map (Prod.map id change)) (goal.mapScope change) rests
        (partition.renameKeys (.ofScopes change injective)) depth) := by
  have moved : List.Forall₂ (fun entry moved => moved = Prod.map id change entry ∧ entry ∈ entries) entries
      (entries.map (Prod.map id change)) :=
    List.forall₂_map_right_iff.mpr (List.forall₂_same.mpr fun entry member => ⟨rfl, member⟩)
  apply List.rel_filterMap _ moved
  intro entry moved same
  obtain ⟨rfl, member⟩ := same
  apply Copies.of_rule (renames_mapScope change injective goal) later
    (renames_mapScope change injective ⟨entry.1.head, entry.2⟩)
  intro fits
  rw [List.forall₂_map_left_iff, List.forall₂_map_right_iff]
  exact List.forall₂_same.mpr (bodies entry member fits)

end

end Proofs
end Backchain
