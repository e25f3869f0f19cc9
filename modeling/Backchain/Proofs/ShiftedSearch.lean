import Backchain.Proofs.SearchEnumeration
import Backchain.Proofs.SearchLockstep

/-! Runs of searches with other scopes to hand out and other things behind them. What is left of the limits decides how
a run ends, and the scopes that it draws are the only trace of where it has begun. -/

namespace Backchain

def Class.mapScope (change : Scope → Scope) (members : Class) : Class :=
  { members with members := members.members.map (Key.mapScope change) }

namespace Proofs

/-- The scopes from the first one on are counted from the second one instead. -/
def shift (first second scope : Nat) : Nat := if scope < first then scope else scope - first + second

theorem shift_of_lt {first second scope : Nat} (below : scope < first) : shift first second scope = scope :=
  if_pos below

theorem shift_add (first second count : Nat) : shift first second (first + count) = second + count := by
  rw [shift, if_neg (by omega)]
  omega

theorem shift_shift {first second : Nat} (le : first ≤ second) :
    Function.LeftInverse (shift second first) (shift first second) := by
  intro scope
  by_cases below : scope < first
  · rw [shift_of_lt below, shift_of_lt (below.trans_le le)]
  · obtain ⟨count, rfl⟩ := Nat.exists_eq_add_of_le (Nat.le_of_not_lt below)
    rw [shift_add, shift_add]

def shiftKeys {first second : Nat} (le : first ≤ second) : Renaming :=
  .ofScopes (shift first second) (shift_shift le).injective

/-- The same classes in the same order, with the same members in the same order. -/
def ShiftedClasses (first second : Nat) (solution copy : Partition) : Prop :=
  copy.classes = solution.classes.map (Class.mapScope (shift first second))

theorem ShiftedClasses.symm {first second : Nat} {solution copy : Partition} (le : first ≤ second)
    (shifted : ShiftedClasses first second solution copy) : ShiftedClasses second first copy solution := by
  have back (key : Key) : (key.mapScope (shift first second)).mapScope (shift second first) = key := by
    cases key with
    | const name => rfl
    | var name scope => exact congrArg (Key.var name) (shift_shift le scope)
  rw [ShiftedClasses, shifted, List.map_map]
  simp [Class.mapScope, Function.comp_def, back]

variable {search other : Search} {goals : List ScopedAtom} {start : Partition}

theorem instances_shift (same : other.database = search.database) (tally : Tally) :
    instances (other.gain tally) =
      (instances (search.gain tally)).map (Prod.map id (shift search.supply.next other.supply.next)) := by
  rw [instances_eq, instances_eq, List.map_map, Search.gain_database, Search.gain_database, same]
  apply List.map_congr_left
  intro entry _
  rw [Search.gain_next, Search.gain_next, same]
  simp only [Function.comp_apply, Prod.map, id, Nat.add_assoc, shift_add]

theorem simulates_shift (same : other.database = search.database)
    (maxDepth : other.limits.maxDepth = search.limits.maxDepth) (stepsLeft : other.stepsLeft? = search.stepsLeft?)
    (le : search.supply.next ≤ other.supply.next) :
    Simulates (shiftKeys le) (fun goal copy => copy = goal.mapScope (shift search.supply.next other.supply.next)) search
      other where
  maxDepth := maxDepth
  stepsLeft := stepsLeft
  facts goal copy rest rests partition depth here later := by
    subst here
    rw [same]
    exact Copies.factBranches (shift_shift le).injective goal later partition depth _
  rules tally goal copy rest rests partition depth here later := by
    subst here
    rw [instances_shift same]
    exact Copies.ruleBranches (shift_shift le).injective goal later partition depth _ fun _ _ _ _ _ => rfl

/-- Only the scopes that are drawn are shifted. -/
theorem run_shift_of_le (same : other.database = search.database)
    (maxDepth : other.limits.maxDepth = search.limits.maxDepth) (stepsLeft : other.stepsLeft? = search.stepsLeft?)
    (le : search.supply.next ≤ other.supply.next) (below : ScopesBelow search.supply.next goals start) (fuel : Nat) :
    Option.Rel (Agrees (ShiftedClasses search.supply.next other.supply.next) search other)
      (search.run fuel goals start) (other.run fuel goals start) := by
  have begun : start.renameKeys (shiftKeys le) = start := by
    apply start.renameKeys_eq_self
    intro key entered
    cases key with
    | const name => rfl
    | var name scope => exact congrArg (Key.var name) (shift_of_lt (below.partition name scope entered))
  have asked : List.Forall₂ (fun goal copy => copy = goal.mapScope (shift search.supply.next other.supply.next))
      goals goals := by
    apply List.forall₂_same.mpr
    intro goal member
    rw [ScopedAtom.mapScope, shift_of_lt (below.goals goal member)]
  have ran := (simulates_shift same maxDepth stepsLeft le).run asked start fuel
  rw [begun] at ran
  apply rel_mono ran
  intro outcome copy agrees
  refine ⟨agrees.result.mono ?_, agrees.counted⟩
  intro solution shifted equal
  rw [ShiftedClasses, equal, Partition.classes_renameKeys]
  rfl

/-- Whatever two searches over one database have done before, they run alike if as much is left of their limits: both
end in solutions, both exceed the same limit or neither ends, and they count the same on the way. Their solutions are
the same one by one, but for the scopes drawn in the run, which each search counts from its own first one. -/
theorem run_shift (same : other.database = search.database)
    (maxDepth : other.limits.maxDepth = search.limits.maxDepth) (stepsLeft : other.stepsLeft? = search.stepsLeft?)
    (below : ScopesBelow search.supply.next goals start) (belowOther : ScopesBelow other.supply.next goals start)
    (fuel : Nat) :
    Option.Rel (Agrees (ShiftedClasses search.supply.next other.supply.next) search other)
      (search.run fuel goals start) (other.run fuel goals start) := by
  obtain le | le := Nat.le_total search.supply.next other.supply.next
  · exact run_shift_of_le same maxDepth stepsLeft le below fuel
  · have ran := run_shift_of_le same.symm maxDepth.symm stepsLeft.symm le belowOther fuel
    apply rel_mono (rel_flip ran)
    intro outcome copy agrees
    exact ⟨agrees.result.symm.mono fun _ _ shifted => shifted.symm le, agrees.counted.symm⟩

/-- Whatever is within reach of a neighbour is within reach, and a detour leads to a neighbour's neighbour. -/
def errands (steps : Nat) : Search where
  database := {
    facts := [⟨"next", [⟨"home"⟩, ⟨"shop"⟩]⟩, ⟨"next", [⟨"shop"⟩, ⟨"bank"⟩]⟩]
    rules := [⟨⟨"reach", [⟨"X"⟩, ⟨"Z"⟩]⟩, [⟨"next", [⟨"X"⟩, ⟨"Y"⟩]⟩, ⟨"reach", [⟨"Y"⟩, ⟨"Z"⟩]⟩]⟩,
      ⟨⟨"detour", [⟨"X"⟩, ⟨"Z"⟩]⟩, [⟨"next", [⟨"X"⟩, ⟨"Y"⟩]⟩, ⟨"next", [⟨"Y"⟩, ⟨"Z"⟩]⟩]⟩] }
  limits := ⟨some 2, some steps⟩
  supply := ⟨1⟩

/-- What is left of a search that has failed after five steps. -/
def stranded : Search := { errands 20 with supply := ⟨11⟩, stats := ⟨5, 10, 3, 0, 2⟩ }

def detour : List ScopedAtom := [⟨⟨"detour", [⟨"A"⟩, ⟨"B"⟩]⟩, 0⟩]

theorem run_shift_errands :
    (errands 20).run 30 [⟨⟨"reach", [⟨"home"⟩, ⟨"W"⟩]⟩, 0⟩] Partition.empty =
        some ⟨.error (.depthExceeded 2), stranded⟩ ∧
      stranded.stepsLeft? = (errands 15).stepsLeft? ∧
      ScopesBelow 1 detour Partition.empty ∧
      ScopesBelow 11 detour Partition.empty ∧
      ∃ solution copy after final,
        (errands 15).run 30 detour Partition.empty = some ⟨.ok [solution], after⟩ ∧
        stranded.run 30 detour Partition.empty = some ⟨.ok [copy], final⟩ ∧
        copy.classes = solution.classes.map (Class.mapScope (shift 1 11)) := by
  have below (bound : Nat) (positive : 0 < bound) : ScopesBelow bound detour Partition.empty :=
    .of_goals (by simpa [detour] using positive)
  have failed : (errands 20).run 30 [⟨⟨"reach", [⟨"home"⟩, ⟨"W"⟩]⟩, 0⟩] Partition.empty =
      some ⟨.error (.depthExceeded 2), stranded⟩ := by cbv
  have ran : ((errands 15).run 30 detour Partition.empty).map
      (fun outcome => outcome.result.map List.length) = some (.ok 1) := by cbv
  refine ⟨failed, rfl, below 1 (by decide), below 11 (by decide), ?_⟩
  obtain ⟨found, after, ended, size⟩ := exists_found ran
  obtain ⟨solution, rfl⟩ := List.length_eq_one_iff.mp size
  have same : Option.Rel (Agrees (ShiftedClasses 1 11) (errands 15) stranded)
      ((errands 15).run 30 detour Partition.empty) (stranded.run 30 detour Partition.empty) :=
    @run_shift (errands 15) stranded detour Partition.empty rfl rfl rfl (below 1 (by decide)) (below 11 (by decide)) 30
  rw [ended] at same
  generalize stranded.run 30 detour Partition.empty = shifted at same ⊢
  cases same with
  | @some _ outcome agrees =>
    obtain ⟨result, final⟩ := outcome
    obtain ⟨each⟩ := agrees.result
    cases each with
    | cons alike none =>
      cases none
      exact ⟨solution, _, after, final, ended, rfl, alike⟩

end Proofs
end Backchain
