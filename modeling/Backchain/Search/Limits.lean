/-! Limits of a search, the errors of exceeding them, and the counters that are kept on the way. -/

namespace Backchain

/-- No limit where there is no number. -/
structure Limits where
  /-- How many rule expansions may be nested on one branch. -/
  maxDepth : Option Nat := none
  /-- How many goals may be expanded over the whole search. -/
  maxSteps : Option Nat := none
deriving DecidableEq

namespace Limits

def unbounded : Limits := {}

def withMaxDepth (limits : Limits) (limit : Nat) : Limits := { limits with maxDepth := some limit }

def withMaxSteps (limits : Limits) (limit : Nat) : Limits := { limits with maxSteps := some limit }

end Limits

inductive LimitError where
  | depthExceeded (limit : Nat)
  | stepsExceeded (limit : Nat)
deriving DecidableEq

def LimitError.message : LimitError → String
  | .depthExceeded limit => "search depth limit of " ++ Nat.repr limit ++ " rule expansions exceeded"
  | .stepsExceeded limit => "search step limit of " ++ Nat.repr limit ++ " goal expansions exceeded"

structure Stats where
  steps : Nat := 0
  /-- Facts tried. -/
  unifications : Nat := 0
  /-- Rules whose head unified with a goal. -/
  ruleApplications : Nat := 0
  solutions : Nat := 0
  /-- The deepest nesting of rules at which a goal was expanded. -/
  maxDepth : Nat := 0
deriving DecidableEq

end Backchain
