import Backchain.Database
import Backchain.Proofs.Lists
import Backchain.Proofs.UnificationClosure
import Mathlib.Order.Bounds.Defs

/-! The ground atoms that a database makes true, independently of any search. A ground instance of an atom under
a valuation is true of the least model, or it is not; unification decides when two atoms have the same instance. -/

namespace Backchain.Proofs

structure GroundAtom where
  predicate : String
  arguments : List String
deriving DecidableEq

/-- The instance of an atom that puts a constant in place of every variable. -/
def instantiate (assign : String → String) (atom : Atom) : GroundAtom :=
  ⟨atom.predicate, atom.arguments.map fun term => if term.isVariable then assign term.text else term.text⟩

/-- A set of ground atoms that has all instances of the facts and is closed under all instances of the rules. -/
structure IsModel (database : Database) (atoms : Set GroundAtom) : Prop where
  facts : ∀ fact ∈ database.facts, ∀ assign, instantiate assign fact ∈ atoms
  rules : ∀ rule ∈ database.rules, ∀ assign, (∀ premise ∈ rule.body, instantiate assign premise ∈ atoms) →
    instantiate assign rule.head ∈ atoms

inductive Holds (database : Database) : GroundAtom → Prop
  | fact {fact : Atom} (assign : String → String) (stored : fact ∈ database.facts) :
      Holds database (instantiate assign fact)
  | rule {rule : Rule} (assign : String → String) (stored : rule ∈ database.rules)
      (premises : ∀ premise ∈ rule.body, Holds database (instantiate assign premise)) :
      Holds database (instantiate assign rule.head)

/-- The atoms that hold are the least Herbrand model of the database. -/
theorem holds_isLeast (database : Database) :
    IsLeast {atoms | IsModel database atoms} {atom | Holds database atom} := by
  constructor
  · exact ⟨fun _ stored assign => .fact assign stored, fun _ stored assign premises => .rule assign stored premises⟩
  · intro atoms model atom holds
    induction holds with
    | fact assign stored => exact model.facts _ stored assign
    | rule assign stored _ ih => exact model.rules _ stored assign ih

theorem instantiate_of_isGround {atom : Atom} (ground : atom.isGround = true) (assign : String → String) :
    instantiate assign atom = ⟨atom.predicate, atom.arguments.map Term.text⟩ := by
  simp only [instantiate, GroundAtom.mk.injEq, true_and, List.map_inj_left]
  intro term member
  have constant := List.all_eq_true.mp ground term member
  exact if_neg (by simpa [Term.isConstant] using constant)

/-! ### Instances of scoped atoms -/

def Valuation.within (valuation : Valuation) (scope : Scope) (name : String) : String :=
  valuation (.var name scope)

def Valuation.ground (valuation : Valuation) (goal : ScopedAtom) : GroundAtom :=
  ⟨goal.atom.predicate, goal.keys.map valuation⟩

variable {valuation : Valuation} {candidate goal : ScopedAtom}

theorem value_ofTerm (valuation : Valuation) (scope : Scope) (term : Term) :
    valuation (Key.ofTerm scope term) = if term.isVariable then valuation.within scope term.text else term.text := by
  rw [Key.ofTerm]
  split
  next => rfl
  next => exact valuation.constant term.text

theorem Valuation.ground_eq (valuation : Valuation) (goal : ScopedAtom) :
    valuation.ground goal = instantiate (valuation.within goal.scope) goal.atom := by
  simp [Valuation.ground, instantiate, ScopedAtom.keys, Function.comp_def, value_ofTerm]

/-- Two atoms have the same instance exactly under the valuations that satisfy the equations between them. -/
theorem Valuation.ground_eq_ground_iff : valuation.ground candidate = valuation.ground goal ↔
    candidate.atom.predicate = goal.atom.predicate ∧ candidate.atom.arity = goal.atom.arity ∧
      valuation.Satisfies (equations candidate goal) := by
  rw [Valuation.ground, Valuation.ground, GroundAtom.mk.injEq, map_eq_map_iff_zip]
  simp only [ScopedAtom.keys, List.length_map, Atom.arity]
  rfl

theorem Matches.ground_eq (fits : Matches candidate goal) (satisfied : valuation.Satisfies (equations candidate goal)) :
    valuation.ground candidate = valuation.ground goal :=
  Valuation.ground_eq_ground_iff.mpr ⟨fits.predicate, fits.arity, satisfied⟩

end Backchain.Proofs
