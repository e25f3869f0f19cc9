import Backchain.Proofs.PartitionClosure
import Backchain.Proofs.LeastModel
import Mathlib.Data.Fintype.EquivFin

/-! Rules that bring in no variables of their own derive atoms over the constants of the database alone. A variable
that may still take any constant is therefore not one of a goal that is bound to hold. -/

namespace Backchain.Proofs

/-- Every variable of the head is a variable of some premise. -/
def RangeRestricted (rule : Rule) : Prop :=
  ∀ term ∈ rule.head.arguments, term.isVariable = true → ∃ premise ∈ rule.body, term ∈ premise.arguments

instance (rule : Rule) : Decidable (RangeRestricted rule) :=
  inferInstanceAs (Decidable (∀ term ∈ rule.head.arguments, term.isVariable = true →
    ∃ premise ∈ rule.body, term ∈ premise.arguments))

/-- The constants of facts and heads, along with the names of their variables. -/
def domain (database : Database) : List String :=
  (database.facts ++ database.rules.map Rule.head).flatMap fun atom => atom.arguments.map Term.text

variable {database : Database}

theorem text_mem_domain {atom : Atom} {term : Term} (stored : atom ∈ database.facts ++ database.rules.map Rule.head)
    (member : term ∈ atom.arguments) : term.text ∈ domain database :=
  List.mem_flatMap.mpr ⟨atom, stored, List.mem_map.mpr ⟨term, member, rfl⟩⟩

theorem Holds.mem_domain {atom : GroundAtom} (holds : Holds database atom)
    (ground : ∀ fact ∈ database.facts, fact.isGround = true) (restricted : ∀ rule ∈ database.rules, RangeRestricted rule) :
    ∀ name ∈ atom.arguments, name ∈ domain database := by
  induction holds with
  | @fact fact assign stored =>
    intro name member
    rw [instantiate_of_isGround (ground fact stored)] at member
    obtain ⟨term, inside, rfl⟩ := List.mem_map.mp member
    exact text_mem_domain (List.mem_append_left _ stored) inside
  | @rule rule assign stored _ ih =>
    intro name member
    obtain ⟨term, inside, rfl⟩ := List.mem_map.mp member
    split
    next free =>
      obtain ⟨premise, condition, occurs⟩ := restricted rule stored term inside free
      exact ih premise condition _ (List.mem_map.mpr ⟨term, occurs, if_pos free⟩)
    next => exact text_mem_domain (List.mem_append_right _ (List.mem_map_of_mem stored)) inside

theorem Built.value_of_valueOf {history : List (Key × Key)} {solution : Partition} {valuation : Valuation} {key : Key}
    {name : String} (built : Built history solution) (respects : valuation.Respects solution)
    (bound : solution.valueOf key = some name) : valuation key = name := by
  have linked := (built.represents.valueOf_eq_some_iff key name).mp bound
  exact ((built.respects_iff.mp respects).same_value linked).trans (valuation.constant name)

/-- A partition under which a goal has to hold binds all variables of the goal, for otherwise they could take a
constant that is foreign to the database. -/
theorem Built.exists_valueOf {history : List (Key × Key)} {solution : Partition} {goal : ScopedAtom}
    (built : Built history solution) (ground : ∀ fact ∈ database.facts, fact.isGround = true)
    (restricted : ∀ rule ∈ database.rules, RangeRestricted rule)
    (holds : ∀ valuation : Valuation, valuation.Respects solution → Holds database (valuation.ground goal)) :
    ∀ key ∈ goal.keys, ∃ name, solution.valueOf key = some name := by
  intro key member
  by_contra unbound
  obtain ⟨foreign, outside⟩ := Infinite.exists_notMem_finset (domain database).toFinset
  rw [List.mem_toFinset] at outside
  obtain ⟨valuation, satisfied, free⟩ := built.represents.consistent.satisfiable foreign
  have value : valuation key = foreign := by
    refine free key fun name linked => unbound ⟨name, ?_⟩
    exact (built.represents.valueOf_eq_some_iff key name).mpr linked
  have inside := (holds valuation (built.respects_iff.mpr satisfied)).mem_domain ground restricted (valuation key)
    (List.mem_map.mpr ⟨key, member, rfl⟩)
  exact outside (value ▸ inside)

end Backchain.Proofs
