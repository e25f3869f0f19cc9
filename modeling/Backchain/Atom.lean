import Backchain.Term

/-! Atoms: a predicate applied to terms. Stored facts, queries, rule heads and premises are all atoms. -/

namespace Backchain

structure Atom where
  predicate : String
  arguments : List Term
deriving DecidableEq

namespace Atom

def arity (atom : Atom) : Nat := atom.arguments.length

def isGround (atom : Atom) : Bool := atom.arguments.all Term.isConstant

/-- The variables in the order of their first occurrences, each once. -/
def vars (atom : Atom) : List Term := (atom.arguments.filter Term.isVariable).eraseDups

/-- The text `p(a, X)`. The parentheses stay when there are no arguments. -/
def render (atom : Atom) : String :=
  atom.predicate ++ "(" ++ ", ".intercalate (atom.arguments.map Term.text) ++ ")"

end Atom
end Backchain
