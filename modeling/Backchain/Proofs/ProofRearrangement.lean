import Backchain.Proofs.ProofRenaming

/-! Proofs carried over to another database or to other goals. If the facts, the rules or the goals stand elsewhere, a
proof only has to name them where they stand now: it needs the same equations, and those in another order at most. -/

namespace Backchain.Proofs

/-! ### The same facts and rules under other numbers -/

def ProofForest.reindex {label : Type} (facts rules : Nat → Nat) : ProofForest label → ProofForest label
  | .done => .done
  | .fact index rest => .fact (facts index) (rest.reindex facts rules)
  | .rule index own premises rest =>
    .rule (rules index) own (premises.reindex facts rules) (rest.reindex facts rules)

/-- What the first database stores is stored in the second under these numbers. -/
structure Stores (first second : Database) (facts rules : Nat → Nat) : Prop where
  facts : ∀ index fact, first.facts[index]? = some fact → second.facts[facts index]? = some fact
  rules : ∀ index rule, first.rules[index]? = some rule → second.rules[rules index]? = some rule

section
variable {label : Type} {facts rules back forth : Nat → Nat} {database other : Database} {goals : List ScopedAtom}
  {forest : ProofForest Scope} {needed : List (Key × Key)}

namespace ProofForest

theorem erase_reindex (facts rules : Nat → Nat) (forest : ProofForest label) :
    (forest.reindex facts rules).erase = forest.erase.reindex facts rules := by
  induction forest with
  | done => rfl
  | fact index rest ih => rw [reindex, erase, ih, erase, reindex]
  | rule index own premises rest inner outer => rw [reindex, erase, inner, outer, erase, reindex]

theorem labels_reindex (facts rules : Nat → Nat) (forest : ProofForest label) :
    (forest.reindex facts rules).labels = forest.labels := by
  induction forest with
  | done => rfl
  | fact index rest ih => exact ih
  | rule index own premises rest inner outer => rw [reindex, labels, labels, inner, outer]

theorem reindex_reindex (undoFacts : Function.LeftInverse back facts) (undoRules : Function.LeftInverse forth rules)
    (forest : ProofForest label) : (forest.reindex facts rules).reindex back forth = forest := by
  induction forest with
  | done => rfl
  | fact index rest ih => rw [reindex, reindex, undoFacts, ih]
  | rule index own premises rest inner outer => rw [reindex, reindex, undoRules, inner, outer]

end ProofForest

theorem Proves.reindex (proves : Proves database goals forest needed) (stores : Stores database other facts rules) :
    Proves other goals (forest.reindex facts rules) needed := by
  induction proves with
  | done => exact .done
  | fact stored fits _ ih => exact .fact (stores.facts _ _ stored) fits ih
  | rule stored fits _ _ bodyIh ih => exact .rule (stores.rules _ _ stored) fits bodyIh ih

end

/-! ### Proofs of the same parts -/

/-- Every proof of the first goals has its parts in a proof of the second ones, whose shape is known from its own. -/
def Carries (database : Database) (goals : List ScopedAtom) (other : Database) (arranged : List ScopedAtom)
    (change : ProofForest Unit → ProofForest Unit) : Prop :=
  ∀ forest needed, Proves database goals forest needed → ∃ moved likewise, Proves other arranged moved likewise ∧
    moved.erase = change forest.erase ∧ moved.labels.Perm forest.labels ∧ likewise.Perm needed

namespace Carries
variable {database other last : Database} {goals arranged again : List ScopedAtom}
  {change further : ProofForest Unit → ProofForest Unit}

theorem refl (database : Database) (goals : List ScopedAtom) : Carries database goals database goals id :=
  fun forest needed proves => ⟨forest, needed, proves, rfl, .refl _, .refl _⟩

theorem trans (first : Carries database goals other arranged change)
    (second : Carries other arranged last again further) : Carries database goals last again (further ∘ change) := by
  intro forest needed proves
  obtain ⟨middle, between, left, shape, labels, equal⟩ := first forest needed proves
  obtain ⟨moved, likewise, right, reshaped, relabelled, arranged⟩ := second middle between left
  exact ⟨moved, likewise, right, reshaped.trans (congrArg further shape), relabelled.trans labels, arranged.trans equal⟩

theorem of_stores {facts rules : Nat → Nat} (stores : Stores database other facts rules) (goals : List ScopedAtom) :
    Carries database goals other goals (ProofForest.reindex facts rules) :=
  fun forest needed proves => ⟨forest.reindex facts rules, needed, proves.reindex stores,
    forest.erase_reindex facts rules, .of_eq (forest.labels_reindex facts rules), .refl _⟩

end Carries

/-! ### Goals in another order -/

namespace ProofForest
variable {label : Type}

/-- Changes the proofs of all goals but the first. -/
def onRest (change : ProofForest label → ProofForest label) : ProofForest label → ProofForest label
  | .done => .done
  | .fact index rest => .fact index (change rest)
  | .rule index own premises rest => .rule index own premises (change rest)

/-- The proofs of the first two goals change places. -/
def swapFirst : ProofForest label → ProofForest label
  | .fact first (.fact second rest) => .fact second (.fact first rest)
  | .fact first (.rule second own premises rest) => .rule second own premises (.fact first rest)
  | .rule first own premises (.fact second rest) => .fact second (.rule first own premises rest)
  | .rule first own premises (.rule second other inner rest) => .rule second other inner (.rule first own premises rest)
  | forest => forest

theorem onRest_onRest {change back : ProofForest label → ProofForest label} (undo : Function.LeftInverse back change) :
    Function.LeftInverse (onRest back) (onRest change) := by
  intro forest
  cases forest with
  | done => rfl
  | fact index rest => rw [onRest, onRest, undo]
  | rule index own premises rest => rw [onRest, onRest, undo]

theorem swapFirst_involutive : Function.Involutive (@swapFirst label) := by
  intro forest
  cases forest with
  | done => rfl
  | fact index rest => cases rest <;> rfl
  | rule index own premises rest => cases rest <;> rfl

end ProofForest

section
variable {database : Database} {goals arranged : List ScopedAtom} {change : ProofForest Unit → ProofForest Unit}

theorem Carries.cons (carries : Carries database goals database arranged change) (goal : ScopedAtom) :
    Carries database (goal :: goals) database (goal :: arranged) (ProofForest.onRest change) := by
  intro forest needed proves
  cases proves with
  | @fact _ _ index _ _ _ stored fits others =>
    obtain ⟨moved, likewise, rearranged, shape, labels, equal⟩ := carries _ _ others
    refine ⟨.fact index moved, _, .fact stored fits rearranged, ?_, labels, equal.append_left _⟩
    rw [ProofForest.erase, ProofForest.erase, ProofForest.onRest, shape]
  | @rule _ _ index _ own premises _ _ _ stored fits body others =>
    obtain ⟨moved, likewise, rearranged, shape, labels, equal⟩ := carries _ _ others
    refine ⟨.rule index own premises moved, _, .rule stored fits body rearranged, ?_, (labels.append_left _).cons _,
      (equal.append_left _).append_left _⟩
    rw [ProofForest.erase, ProofForest.erase, ProofForest.onRest, shape]

theorem Carries.swap (database : Database) (first second : ScopedAtom) (goals : List ScopedAtom) :
    Carries database (first :: second :: goals) database (second :: first :: goals) ProofForest.swapFirst := by
  intro forest needed proves
  cases proves with
  | fact stored fits others =>
    cases others with
    | fact stored' fits' others =>
      exact ⟨_, _, .fact stored' fits' (.fact stored fits others), rfl, .refl _, by grind⟩
    | rule stored' fits' body' others =>
      exact ⟨_, _, .rule stored' fits' body' (.fact stored fits others), rfl, .refl _, by grind⟩
  | rule stored fits body others =>
    cases others with
    | fact stored' fits' others =>
      exact ⟨_, _, .fact stored' fits' (.rule stored fits body others), rfl, .refl _, by grind⟩
    | rule stored' fits' body' others =>
      refine ⟨_, _, .rule stored' fits' body' (.rule stored fits body others), rfl, ?_, ?_⟩
      · grind [ProofForest.labels]
      · grind

/-- Goals in another order have the same proofs in another order. -/
theorem exists_carries_of_perm (order : goals.Perm arranged) (database : Database) :
    ∃ change : Equiv.Perm (ProofForest Unit), Carries database goals database arranged change ∧
      Carries database arranged database goals change.symm := by
  induction order with
  | nil => exact ⟨.refl _, .refl database [], .refl database []⟩
  | cons goal _ ih =>
    obtain ⟨change, forward, backward⟩ := ih
    exact ⟨⟨ProofForest.onRest change, ProofForest.onRest change.symm,
      ProofForest.onRest_onRest change.symm_apply_apply, ProofForest.onRest_onRest change.apply_symm_apply⟩,
      forward.cons goal, backward.cons goal⟩
  | swap first second goals =>
    exact ⟨ProofForest.swapFirst_involutive.toPerm, .swap database second first goals,
      .swap database first second goals⟩
  | trans _ _ first second =>
    obtain ⟨change, forward, backward⟩ := first
    obtain ⟨further, onward, homeward⟩ := second
    exact ⟨change.trans further, forward.trans onward, homeward.trans backward⟩

end

/-! ### Facts and rules in another order -/

/-- Keeps the first number and permutes the others. -/
def permuteRest (place : Equiv.Perm Nat) : Equiv.Perm Nat where
  toFun
    | 0 => 0
    | index + 1 => place index + 1
  invFun
    | 0 => 0
    | index + 1 => place.symm index + 1
  left_inv index := by cases index <;> simp
  right_inv index := by cases index <;> simp

theorem exists_places_of_perm {α : Type} {items arranged : List α} (order : items.Perm arranged) :
    ∃ place : Equiv.Perm Nat, ∀ index, arranged[place index]? = items[index]? := by
  induction order with
  | nil => exact ⟨.refl _, fun _ => rfl⟩
  | cons item _ ih =>
    obtain ⟨place, same⟩ := ih
    refine ⟨permuteRest place, fun index => ?_⟩
    cases index with
    | zero => rfl
    | succ index => exact same index
  | swap first second items =>
    refine ⟨Equiv.swap 0 1, fun index => ?_⟩
    match index with
    | 0 => rfl
    | 1 => rfl
    | index + 2 => rw [Equiv.swap_apply_of_ne_of_ne (by omega) (by omega)]; rfl
  | trans _ _ first second =>
    obtain ⟨place, same⟩ := first
    obtain ⟨further, equal⟩ := second
    exact ⟨place.trans further, fun index => (equal _).trans (same index)⟩

/-- The same database in another order has the same proofs under other numbers. -/
theorem exists_carries_of_perm_database {database other : Database} (facts : database.facts.Perm other.facts)
    (rules : database.rules.Perm other.rules) (goals : List ScopedAtom) :
    ∃ change : Equiv.Perm (ProofForest Unit), Carries database goals other goals change ∧
      Carries other goals database goals change.symm := by
  obtain ⟨place, samePlace⟩ := exists_places_of_perm facts
  obtain ⟨number, sameNumber⟩ := exists_places_of_perm rules
  have forward : Stores database other place number :=
    ⟨fun index fact stored => (samePlace index).trans stored, fun index rule stored => (sameNumber index).trans stored⟩
  have backward : Stores other database place.symm number.symm := by
    refine ⟨fun index fact stored => ?_, fun index rule stored => ?_⟩
    · rw [← samePlace, place.apply_symm_apply, stored]
    · rw [← sameNumber, number.apply_symm_apply, stored]
  exact ⟨⟨ProofForest.reindex place number, ProofForest.reindex place.symm number.symm,
    ProofForest.reindex_reindex place.symm_apply_apply number.symm_apply_apply,
    ProofForest.reindex_reindex place.apply_symm_apply number.apply_symm_apply⟩, .of_stores forward goals,
    .of_stores backward goals⟩

/-! ### Solutions by carried proofs -/

variable {database other : Database} {low high lower higher depth depth' : Nat} {bound : Scope}
  {goals arranged : List ScopedAtom} {change : ProofForest Unit → ProofForest Unit} {history : List (Key × Key)}
  {start : Partition} {entries others : List (ProofForest Scope × Partition)} {entry : ProofForest Scope × Partition}

/-- A solution has a counterpart wherever its proof is carried. -/
theorem Carries.exists_entry (carries : Carries database goals other arranged change)
    (valid : Enumerates database low high ⟨goals, start, depth⟩ entries)
    (again : Enumerates other lower higher ⟨arranged, start, depth'⟩ others) (built : Built history start)
    (below : ScopesBelow bound arranged start) (above : bound ≤ low) (beyond : bound ≤ lower)
    (member : entry ∈ entries) :
    ∃ counterpart ∈ others, counterpart.1.erase = change entry.1.erase ∧ AgreeBelow bound entry.2 counterpart.2 := by
  obtain ⟨needed, proves, finished⟩ := valid.sound history built entry member
  obtain ⟨moved, likewise, rearranged, shape, labels, equal⟩ := carries _ _ proves
  have own := valid.labelsAbove above member
  have kept : LabelsAbove bound moved :=
    ⟨labels.nodup_iff.mpr own.once, fun scope label => own.above scope (labels.mem_iff.mp label)⟩
  have order : (history ++ needed).Perm (history ++ likewise) := equal.symm.append_left history
  have consistent := finished.represents.consistent.mono order.symm.subset
  obtain ⟨counterpart, inside, same, agree⟩ := again.exists_entry built below beyond kept rearranged consistent
  exact ⟨counterpart, inside, same.trans shape, agree _ _ finished.represents order⟩

end Backchain.Proofs
