import Backchain.Database
import Backchain.Partition.Basic

/-! Unification of a candidate, a fact or the head of a rule, with a goal. It extends the equalities of the
branch, or fails and prunes it. -/

namespace Backchain

/-- Whether the arguments at one position may be equated at all. Constants have to be the same, and variables must
not be: a fact with a variable does not answer a goal with that variable of the same scope in its place. -/
def Key.compatible : Key → Key → Bool
  | .const a, .const b => a == b
  | .var a scope, .var b other => !(a == b && scope == other)
  | _, _ => true

def Partition.unifyPairs : List (Key × Key) → Partition → Option Partition
  | [], partition => some partition
  | (a, b) :: rest, partition =>
    if a.compatible b then (partition.equate a b).bind (Partition.unifyPairs rest) else none

/-- The equalities that make the candidate and the goal one atom, on top of those already in force. -/
def unify (candidate goal : ScopedAtom) (partition : Partition) : Option Partition :=
  if candidate.atom.predicate = goal.atom.predicate ∧ candidate.atom.arity = goal.atom.arity then
    Partition.unifyPairs (candidate.keys.zip goal.keys) partition
  else none

/-- Proves the goal by an instance of the rule in the given scope: the premises then take the goal's place. -/
def Rule.apply (rule : Rule) (scope : Scope) (goal : ScopedAtom) (partition : Partition) :
    Option (List ScopedAtom × Partition) :=
  (unify ⟨rule.head, scope⟩ goal partition).map fun extended => (rule.body.map (⟨·, scope⟩), extended)

end Backchain
