import Backchain.Engine
import Backchain.Json.Basic

/-! The JSON forms of terms, atoms, rules, bindings, answers and limits. Records are written as objects with all
their fields. -/

namespace Backchain

namespace Term

def toJson (term : Term) : Json := .string term.text

def ofJson? (json : Json) : Option Term := json.string?.map Term.mk

end Term

namespace Atom

def toJson (atom : Atom) : Json :=
  .object [("name", .string atom.predicate), ("args", .array (atom.arguments.map Term.toJson))]

def ofJson? (json : Json) : Option Atom :=
  match json.fields? ["name", "args"] with
  | some [some (.string predicate), some (.array arguments)] => (arguments.mapM Term.ofJson?).map (⟨predicate, ·⟩)
  | _ => none

end Atom

namespace Rule

def toJson (rule : Rule) : Json :=
  .object [("head", rule.head.toJson), ("body", .array (rule.body.map Atom.toJson))]

def ofJson? (json : Json) : Option Rule :=
  match json.fields? ["head", "body"] with
  | some [some head, some (.array body)] => do
    let head ← Atom.ofJson? head
    let body ← body.mapM Atom.ofJson?
    return ⟨head, body⟩
  | _ => none

end Rule

namespace Bindings

def toJson (bindings : Bindings) : Json :=
  .object (bindings.entries.map fun (name, value) => (name, .string value))

def ofJson? : Json → Option Bindings
  | .object members => (members.mapM fun (member : String × Json) => member.2.string?.map (member.1, ·)).map ofList
  | _ => none

end Bindings

namespace Answer

def toJson : Answer → Json
  | .truth holds => .object [("Truth", .bool holds)]
  | .solutions all => .object [("Solutions", .array (all.map Bindings.toJson))]

def ofJson? : Json → Option Answer
  | .object [("Truth", .bool holds)] => some (.truth holds)
  | .object [("Solutions", .array all)] => (all.mapM Bindings.ofJson?).map .solutions
  | _ => none

end Answer

namespace Limits

def limitToJson : Option Nat → Json
  | some limit => .integer limit
  | none => .null

/-- A limit is an integer of at most 64 bits without a sign. An absent field is no limit, as is null. -/
def limitOfJson? : Option Json → Option (Option Nat)
  | none | some .null => some none
  | some (.integer (.ofNat value)) => if value < UInt64.size then some (some value) else none
  | some _ => none

def toJson (limits : Limits) : Json :=
  .object [("max_depth", limitToJson limits.maxDepth), ("max_steps", limitToJson limits.maxSteps)]

def ofJson? (json : Json) : Option Limits :=
  match json.fields? ["max_depth", "max_steps"] with
  | some [depth, steps] => do
    let maxDepth ← limitOfJson? depth
    let maxSteps ← limitOfJson? steps
    return { maxDepth, maxSteps }
  | _ => none

end Limits
end Backchain
