import Backchain.Search.Limits
import Backchain.Unification

/-! Depth-first search. A branch is a list of goals still to prove, with the equalities found so far; its first
goal is expanded by every fact and then by every rule, each of them starting a branch of its own. The branches
that run out of goals are the solutions. -/

namespace Backchain

structure Branch where
  goals : List ScopedAtom
  partition : Partition
  depth : Nat

/-- What outlives a run: the next run draws further scopes, and counts on. -/
structure Search (σ : Type := ScopeSupply) where
  database : Database
  limits : Limits
  supply : σ
  stats : Stats := {}

namespace Search
variable {σ : Type}

/-- One branch for every fact that unifies. Facts have no scope of their own and are read in the goal's. -/
def factBranches (facts : List Atom) (goal : ScopedAtom) (rest : List ScopedAtom) (partition : Partition)
    (depth : Nat) : List Branch :=
  facts.filterMap fun fact =>
    (unify ⟨fact, goal.scope⟩ goal partition).map fun extended => ⟨rest, extended, depth⟩

def ruleBranches (rules : List (Rule × Scope)) (goal : ScopedAtom) (rest : List ScopedAtom)
    (partition : Partition) (depth : Nat) : List Branch :=
  rules.filterMap fun (rule, scope) =>
    (rule.apply scope goal partition).map fun (premises, extended) => ⟨premises ++ rest, extended, depth + 1⟩

/-- Replaces the first goal of a branch. Every rule takes a fresh scope, even if its head then fails to unify. -/
def expand [ScopeSource σ] (search : Search σ) (goal : ScopedAtom) (rest : List ScopedAtom) (partition : Partition)
    (depth : Nat) : List Branch × Search σ :=
  let (scopes, supply) := ScopeSource.draw search.database.rules.length search.supply
  let byFacts := factBranches search.database.facts goal rest partition depth
  let byRules := ruleBranches (search.database.rules.zip scopes) goal rest partition depth
  (byFacts ++ byRules,
    { search with
      supply
      stats := { search.stats with
        unifications := search.stats.unifications + search.database.facts.length
        ruleApplications := search.stats.ruleApplications + byRules.length } })

def depthExceeded? (limits : Limits) (depth : Nat) : Option LimitError :=
  match limits.maxDepth with
  | some limit => if limit < depth then some (.depthExceeded limit) else none
  | none => none

def stepsExceeded? (limits : Limits) (steps : Nat) : Option LimitError :=
  match limits.maxSteps with
  | some limit => if limit < steps then some (.stepsExceeded limit) else none
  | none => none

/-- Accounts for the expansion of one goal. The depth is checked first, and a step that is one too many is
counted all the same. -/
def enter (search : Search σ) (depth : Nat) : Option LimitError × Search σ :=
  match depthExceeded? search.limits depth with
  | some error => (some error, search)
  | none =>
    let counted := { search.stats with steps := search.stats.steps + 1 }
    match stepsExceeded? search.limits counted.steps with
    | some error => (some error, { search with stats := counted })
    | none => (none, { search with stats := { counted with maxDepth := max counted.maxDepth depth } })

def countSolution (search : Search σ) : Search σ :=
  { search with stats := { search.stats with solutions := search.stats.solutions + 1 } }

end Search
end Backchain
