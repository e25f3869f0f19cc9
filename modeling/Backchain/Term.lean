import Backchain.Text.Uppercase

/-! Terms, the arguments of atoms. A term is any text, and its first character alone decides whether it is a
variable or a constant. -/

namespace Backchain
open Text

structure Term where
  text : String
deriving DecidableEq

namespace Term

/-- A variable begins with a capital letter or an underscore. Every other text names a constant, the empty
text among them. -/
def isVariable (term : Term) : Bool :=
  match term.text.toList with
  | [] => false
  | c :: _ => isUppercase c || c == '_'

def isConstant (term : Term) : Bool := !term.isVariable

def sort (terms : List Term) : List Term := terms.mergeSort (fun a b => decide (a.text ≤ b.text))

end Term
end Backchain
