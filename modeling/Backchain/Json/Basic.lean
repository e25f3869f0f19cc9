/-! JSON values, and the reading of records from them. -/

namespace Backchain

inductive Json where
  | null
  | bool (value : Bool)
  | integer (value : Int)
  /-- The number `digits` over ten to the power `places`, for numbers that are not written as integers. -/
  | decimal (digits : Int) (places : Nat)
  | string (text : String)
  | array (items : List Json)
  /-- The last member of a name counts. -/
  | object (members : List (String × Json))
deriving Inhabited

namespace Json

def member? (members : List (String × Json)) (name : String) : Option Json :=
  members.foldl (fun value? member => if member.1 = name then some member.2 else value?) none

/-- The fields of a record, where they are present. An object gives them by name, and may have members besides; an
array gives them in order, and may end early. -/
def fields? (names : List String) : Json → Option (List (Option Json))
  | .object members => some (names.map (member? members))
  | .array items =>
    if items.length ≤ names.length then
      some (items.map some ++ List.replicate (names.length - items.length) none)
    else none
  | _ => none

def string? : Json → Option String
  | .string text => some text
  | _ => none

end Json
end Backchain
