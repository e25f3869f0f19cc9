import Backchain.Atom
import Backchain.Scope

/-! Keys are terms as a search sees them: a variable belongs to a scope, a constant is the same everywhere. -/

namespace Backchain

inductive Key where
  | var (name : String) (scope : Scope)
  | const (name : String)
deriving DecidableEq

namespace Key

def ofTerm (scope : Scope) (term : Term) : Key :=
  if term.isVariable then .var term.text scope else .const term.text

def isVar : Key → Bool
  | .var _ _ => true
  | .const _ => false

def name : Key → String
  | .var name _ => name
  | .const name => name

def constant? : Key → Option String
  | .var _ _ => none
  | .const name => some name

def render : Key → String
  | .var name scope => name ++ "#" ++ Nat.repr scope
  | .const name => name

end Key

/-- An atom whose variables belong to one scope: a goal, or a fact or rule head tried against it. -/
structure ScopedAtom where
  atom : Atom
  scope : Scope
deriving DecidableEq

namespace ScopedAtom

def keys (goal : ScopedAtom) : List Key := goal.atom.arguments.map (Key.ofTerm goal.scope)

def render (goal : ScopedAtom) : String :=
  goal.atom.predicate ++ "(" ++ ", ".intercalate (goal.keys.map Key.render) ++ ")"

end ScopedAtom
end Backchain
