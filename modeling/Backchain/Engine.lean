import Backchain.Bindings
import Backchain.Search.Run

/-! The engine answers queries over a database. Queries that are proved together each have a scope, namely their
position, and rule instances take the scopes after those.

Every question is asked with a number of steps that may be spent on each search. `none` means that they did not
suffice; more steps never change an answer that is there. -/

namespace Backchain

inductive Answer where
  | truth (holds : Bool)
  | solutions (all : List Bindings)
deriving DecidableEq

namespace Answer

def truth? : Answer → Option Bool
  | .truth holds => some holds
  | .solutions _ => none

def solutions? : Answer → Option (List Bindings)
  | .truth _ => none
  | .solutions all => some all

/-- What the partitions found say about the queries. A partition that no key has entered is no solution. -/
def ofPartitions (queries : List ScopedAtom) (found : List Partition) : Answer :=
  if queries.all (·.atom.isGround) then .truth !found.isEmpty
  else .solutions ((found.filter (!·.isEmpty)).map (Bindings.ofQueries queries))

end Answer

structure Engine where
  database : Database := {}
  limits : Limits := {}

namespace Engine

def addFact (engine : Engine) (fact : Atom) : Engine :=
  { engine with database := engine.database.addFact fact }

def addRule (engine : Engine) (rule : Rule) : Engine :=
  { engine with database := engine.database.addRule rule }

def scopeAbove (goals : List ScopedAtom) : Scope := goals.foldl (fun bound goal => max bound (goal.scope + 1)) 0

/-- A search of its own, with none of the limits used up. -/
def search (engine : Engine) (goals : List ScopedAtom) : Search :=
  { database := engine.database, limits := engine.limits, supply := ⟨scopeAbove goals⟩ }

def partitions (fuel : Nat) (engine : Engine) (goals : List ScopedAtom) :
    Option (Except LimitError (List Partition)) :=
  ((engine.search goals).run fuel goals Partition.empty).map (·.result)

def goals (queries : List Atom) : List ScopedAtom := queries.zipIdx.map fun (query, scope) => ⟨query, scope⟩

def conjunction (fuel : Nat) (engine : Engine) (queries : List Atom) : Option (Except LimitError Answer) :=
  (engine.partitions fuel (goals queries)).map (·.map (Answer.ofPartitions (goals queries)))

def query (fuel : Nat) (engine : Engine) (query : Atom) : Option (Except LimitError Answer) :=
  engine.conjunction fuel [query]

def ask (fuel : Nat) (engine : Engine) (query : Atom) : Option (Except LimitError Bool) :=
  (engine.partitions fuel (goals [query])).map (·.map (!·.isEmpty))

/-- One answer per query, up to the first that exceeds a limit. -/
def answerEach (fuel : Nat) (engine : Engine) : List Atom → Option (Except LimitError (List Answer))
  | [] => some (.ok [])
  | first :: rest =>
    match engine.query fuel first with
    | none => none
    | some (.error error) => some (.error error)
    | some (.ok answer) => (engine.answerEach fuel rest).map (·.map (answer :: ·))

/-- Answers the queries one by one, or as one conjunction if the database says so. -/
def solve (fuel : Nat) (engine : Engine) (queries : List Atom) : Option (Except LimitError (List Answer)) :=
  if engine.database.hasAllDirective then (engine.conjunction fuel queries).map (·.map ([·]))
  else engine.answerEach fuel queries

end Engine

def Database.solve (fuel : Nat) (database : Database) (queries : List Atom) :
    Option (Except LimitError (List Answer)) :=
  Engine.solve fuel { database } queries

end Backchain
