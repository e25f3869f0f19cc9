import Backchain.Proofs.PartitionClosure
import Backchain.Unification

/-! Unification adds the equations between two atoms position by position, and fails exactly when the atoms do not
match or the equations equate two different constants. -/

namespace Backchain.Proofs

def equations (candidate goal : ScopedAtom) : List (Key × Key) := candidate.keys.zip goal.keys

/-- Name and arity agree, and no variable faces itself. -/
structure Matches (candidate goal : ScopedAtom) : Prop where
  predicate : candidate.atom.predicate = goal.atom.predicate
  arity : candidate.atom.arity = goal.atom.arity
  apart : ∀ pair ∈ equations candidate goal, pair.1.isVar = true → pair.1 ≠ pair.2

variable {history pairs : List (Key × Key)} {partition after : Partition} {candidate goal : ScopedAtom}

theorem Matches.mentioned_iff (fits : Matches candidate goal) {key : Key} :
    Mentioned (equations candidate goal) key ↔ key ∈ candidate.keys ∨ key ∈ goal.keys := by
  have size : candidate.keys.length = goal.keys.length := by
    simpa only [ScopedAtom.keys, List.length_map, Atom.arity] using fits.arity
  have left : key ∈ candidate.keys ↔ ∃ pair ∈ equations candidate goal, key = pair.1 := by
    conv_lhs => rw [← List.map_fst_zip size.le]
    simp only [equations, List.mem_map, eq_comm]
  have right : key ∈ goal.keys ↔ ∃ pair ∈ equations candidate goal, key = pair.2 := by
    conv_lhs => rw [← List.map_snd_zip size.ge]
    simp only [equations, List.mem_map, eq_comm]
  rw [left, right, ← exists_or]
  exact exists_congr fun pair => and_or_left

theorem compatible_iff {a b : Key} :
    a.compatible b = true ↔ (a.isVar = true → a ≠ b) ∧ ∀ x y, a = .const x → b = .const y → x = y := by
  cases a with
  | var name scope => cases b <;> simp [Key.compatible, Key.isVar, imp_iff_not_or]
  | const name => cases b <;> simp [Key.compatible, Key.isVar]

theorem Built.of_unifyPairs (built : Built history partition)
    (unified : Partition.unifyPairs pairs partition = some after) :
    (∀ pair ∈ pairs, pair.1.isVar = true → pair.1 ≠ pair.2) ∧ Built (history ++ pairs) after := by
  induction pairs generalizing history partition with
  | nil =>
    cases unified
    exact ⟨by simp, by simpa using built⟩
  | cons pair rest ih =>
    obtain ⟨a, b⟩ := pair
    rw [Partition.unifyPairs] at unified
    split at unified
    next compatible =>
      obtain ⟨middle, accepted, remaining⟩ := Option.bind_eq_some_iff.mp unified
      obtain ⟨apart, finished⟩ := ih (built.append_singleton accepted) remaining
      refine ⟨?_, by simpa using finished⟩
      exact List.forall_mem_cons.mpr ⟨(compatible_iff.mp compatible).1, apart⟩
    next => cases unified

theorem Built.exists_unifyPairs (built : Built history partition)
    (apart : ∀ pair ∈ pairs, pair.1.isVar = true → pair.1 ≠ pair.2) (consistent : Consistent (history ++ pairs)) :
    ∃ after, Partition.unifyPairs pairs partition = some after := by
  induction pairs generalizing history partition with
  | nil => exact ⟨partition, rfl⟩
  | cons pair rest ih =>
    obtain ⟨a, b⟩ := pair
    rw [List.append_cons] at consistent
    have here : Consistent (history ++ [(a, b)]) := consistent.of_append
    have compatible : a.compatible b = true := by
      refine compatible_iff.mpr ⟨apart (a, b) (List.mem_cons_self ..), ?_⟩
      rintro x y rfl rfl
      exact here x y (Linked.of_mem (by simp))
    obtain ⟨middle, accepted⟩ := built.represents.equate_iff.mpr here
    obtain ⟨after, finished⟩ := ih (built.append_singleton accepted)
      (fun pair member => apart pair (List.mem_cons_of_mem _ member)) consistent
    exact ⟨after, by rw [Partition.unifyPairs, if_pos compatible, accepted, Option.bind_some, finished]⟩

theorem Built.of_unify (built : Built history partition) (unified : unify candidate goal partition = some after) :
    Matches candidate goal ∧ Built (history ++ equations candidate goal) after := by
  rw [unify] at unified
  split at unified
  next same =>
    obtain ⟨apart, finished⟩ := built.of_unifyPairs unified
    exact ⟨⟨same.1, same.2, apart⟩, finished⟩
  next => cases unified

theorem Built.exists_unify (built : Built history partition) (fits : Matches candidate goal)
    (consistent : Consistent (history ++ equations candidate goal)) :
    ∃ after, unify candidate goal partition = some after := by
  obtain ⟨after, unified⟩ := built.exists_unifyPairs fits.apart consistent
  exact ⟨after, by rw [unify, if_pos ⟨fits.predicate, fits.arity⟩]; exact unified⟩

end Backchain.Proofs
