import Backchain.Atom

/-! Rules and the database they are kept in. Facts and rules stay in the order in which they were added, which
is the order in which a search tries them. -/

namespace Backchain

/-- The head holds whenever all premises of the body hold under one binding of the shared variables. -/
structure Rule where
  head : Atom
  body : List Atom
deriving DecidableEq

def Rule.render (rule : Rule) : String :=
  match rule.body with
  | [] => rule.head.render
  | premises => rule.head.render ++ " :- " ++ ", ".intercalate (premises.map Atom.render)

structure Database where
  facts : List Atom := []
  rules : List Rule := []

namespace Database

def addFact (database : Database) (fact : Atom) : Database :=
  { database with facts := database.facts ++ [fact] }

def addRule (database : Database) (rule : Rule) : Database :=
  { database with rules := database.rules ++ [rule] }

/-- The fact whose presence turns a list of queries into one conjunction. -/
def allDirective : Atom := ⟨"all", []⟩

def hasAllDirective (database : Database) : Bool := database.facts.contains allDirective

end Database
end Backchain
