import Backchain.Proofs.LeastModel
import Backchain.Proofs.ProofForest

/-! Proofs under a choice of constants, without scopes: every rule of a proof has an assignment of its own, and
nothing is left to unify. Such a proof shows that its goals hold, and any scopes that tell its rules apart turn it
into equations that can be satisfied. -/

namespace Backchain.Proofs

def Apart (candidate goal : Atom) : Prop :=
  ∀ pair ∈ candidate.arguments.zip goal.arguments, pair.1.isVariable = true → pair.1 ≠ pair.2

/-- The goals, each with an assignment of its variables, are proved by the forest. -/
inductive Solved (database : Database) : List (Atom × (String → String)) → ProofForest Unit → Prop where
  | done : Solved database [] .done
  | fact {goal : Atom} {assign : String → String} {goals : List (Atom × (String → String))} {index : Nat}
      {fact : Atom} {rest : ProofForest Unit} (stored : database.facts[index]? = some fact)
      (apart : Apart fact goal) (same : instantiate assign fact = instantiate assign goal)
      (others : Solved database goals rest) :
      Solved database ((goal, assign) :: goals) (.fact index rest)
  | rule {goal : Atom} {assign : String → String} {goals : List (Atom × (String → String))} {index : Nat}
      {rule : Rule} {premises rest : ProofForest Unit} (stored : database.rules[index]? = some rule)
      (own : String → String) (same : instantiate own rule.head = instantiate assign goal)
      (body : Solved database (rule.body.map (·, own)) premises) (others : Solved database goals rest) :
      Solved database ((goal, assign) :: goals) (.rule index () premises rest)

variable {database : Database}

namespace Solved
variable {goals more : List (Atom × (String → String))} {forest other : ProofForest Unit}

theorem size_eq (solved : Solved database goals forest) : forest.size = goals.length := by
  induction solved with
  | done => rfl
  | fact _ _ _ _ ih => simp [ProofForest.size, ih]
  | rule _ _ _ _ _ _ ih => simp [ProofForest.size, ih]

theorem append (first : Solved database goals forest) (second : Solved database more other) :
    Solved database (goals ++ more) (forest.append other) := by
  induction first with
  | done => exact second
  | fact stored apart same _ ih => exact .fact stored apart same ih
  | rule stored own same body _ _ ih => exact .rule stored own same body ih

theorem holds (solved : Solved database goals forest) :
    ∀ goal ∈ goals, Holds database (instantiate goal.2 goal.1) := by
  induction solved with
  | done => simp
  | fact stored _ same _ ih =>
    refine List.forall_mem_cons.mpr ⟨?_, ih⟩
    rw [← same]
    exact .fact _ (List.mem_of_getElem? stored)
  | rule stored own same _ _ bodyIh ih =>
    refine List.forall_mem_cons.mpr ⟨?_, ih⟩
    rw [← same]
    refine .rule own (List.mem_of_getElem? stored) fun premise member => ?_
    exact bodyIh (premise, own) (List.mem_map.mpr ⟨premise, member, rfl⟩)

end Solved

/-- Every goal with this instance can be proved in front of others. -/
def Provable (database : Database) (atom : GroundAtom) : Prop :=
  ∀ (goal : Atom) (assign : String → String), instantiate assign goal = atom →
    ∀ goals rest, Solved database goals rest → ∃ forest, Solved database ((goal, assign) :: goals) forest

theorem exists_solved_of_provable {goals : List (Atom × (String → String))}
    (provable : ∀ goal ∈ goals, Provable database (instantiate goal.2 goal.1)) :
    ∃ forest, Solved database goals forest := by
  induction goals with
  | nil => exact ⟨.done, .done⟩
  | cons goal goals ih =>
    obtain ⟨first, rest⟩ := List.forall_mem_cons.mp provable
    obtain ⟨forest, solved⟩ := ih rest
    exact first goal.1 goal.2 rfl goals forest solved

/-- A fact without variables cannot fail on one, so whatever holds has a proof. -/
theorem Holds.provable {atom : GroundAtom} (holds : Holds database atom)
    (ground : ∀ fact ∈ database.facts, fact.isGround = true) : Provable database atom := by
  induction holds with
  | @fact fact given stored =>
    intro goal assign same goals rest others
    obtain ⟨index, here⟩ := List.mem_iff_getElem?.mp stored
    refine ⟨.fact index rest, .fact here ?_ ?_ others⟩
    · intro pair member free
      have constant := List.all_eq_true.mp (ground fact stored) pair.1 (List.of_mem_zip member).1
      simp [Term.isConstant, free] at constant
    · rw [same, instantiate_of_isGround (ground fact stored), instantiate_of_isGround (ground fact stored)]
  | @rule rule own stored _ ih =>
    intro goal assign same goals rest others
    obtain ⟨index, here⟩ := List.mem_iff_getElem?.mp stored
    obtain ⟨premises, body⟩ : ∃ premises, Solved database (rule.body.map (·, own)) premises := by
      refine exists_solved_of_provable fun premise member => ?_
      obtain ⟨atom, inside, rfl⟩ := List.mem_map.mp member
      exact ih atom inside
    exact ⟨.rule index () premises rest, .rule here own same.symm body others⟩

/-! ### Scopes for the rules -/

def Valuation.assigned (valuation : Valuation) (goals : List ScopedAtom) : List (Atom × (String → String)) :=
  goals.map fun goal => (goal.atom, valuation.within goal.scope)

theorem Valuation.assigned_append (valuation : Valuation) (first second : List ScopedAtom) :
    valuation.assigned (first ++ second) = valuation.assigned first ++ valuation.assigned second :=
  List.map_append

theorem Valuation.assigned_eq_zip (valuation : Valuation) (goals : List ScopedAtom) : valuation.assigned goals =
    (goals.map ScopedAtom.atom).zip (goals.map fun goal => valuation.within goal.scope) :=
  (List.zip_map' ..).symm

def Valuation.update (valuation : Valuation) (scope : Scope) (assign : String → String) : Valuation where
  value
    | .var name other => if other = scope then assign name else valuation (.var name other)
    | .const name => name
  constant _ := rfl

/-- The valuations differ in the given scopes only. -/
def AgreeOutside (scopes : Set Scope) (first second : Valuation) : Prop :=
  ∀ name scope, scope ∉ scopes → second (.var name scope) = first (.var name scope)

section
variable {valuation first second third : Valuation} {scopes more : Set Scope} {scope : Scope}
  {assign : String → String} {goals : List ScopedAtom} {pairs : List (Key × Key)}

theorem Valuation.within_update (valuation : Valuation) (scope : Scope) (assign : String → String) :
    (valuation.update scope assign).within scope = assign := by
  funext name
  exact if_pos rfl

theorem Valuation.agree_update (valuation : Valuation) (scope : Scope) (assign : String → String) :
    AgreeOutside {scope} valuation (valuation.update scope assign) := by
  intro name other different
  exact if_neg different

namespace AgreeOutside

theorem trans (left : AgreeOutside scopes first second) (right : AgreeOutside more second third)
    (inside : more ⊆ scopes) : AgreeOutside scopes first third :=
  fun name scope outside => (right name scope fun member => outside (inside member)).trans (left name scope outside)

theorem mono (agree : AgreeOutside scopes first second) (inside : scopes ⊆ more) : AgreeOutside more first second :=
  fun name scope outside => agree name scope fun member => outside (inside member)

theorem within_eq (agree : AgreeOutside scopes first second) (outside : scope ∉ scopes) :
    second.within scope = first.within scope :=
  funext fun name => agree name scope outside

theorem ground_eq (agree : AgreeOutside scopes first second) (goal : ScopedAtom) (outside : goal.scope ∉ scopes) :
    second.ground goal = first.ground goal := by
  rw [Valuation.ground_eq, Valuation.ground_eq, agree.within_eq outside]

theorem assigned_eq (agree : AgreeOutside scopes first second) (outside : ∀ goal ∈ goals, goal.scope ∉ scopes) :
    second.assigned goals = first.assigned goals := by
  simp only [Valuation.assigned, List.map_inj_left, Prod.mk.injEq, true_and]
  exact fun goal member => agree.within_eq (outside goal member)

theorem satisfies (agree : AgreeOutside scopes first second) (satisfied : first.Satisfies pairs)
    (outside : ∀ name scope, Mentioned pairs (.var name scope) → scope ∉ scopes) : second.Satisfies pairs := by
  refine satisfied.congr fun key mentioned => ?_
  cases key with
  | var name scope => exact agree name scope (outside name scope mentioned)
  | const name => rw [second.constant, first.constant]

end AgreeOutside
end

theorem apart_iff {candidate goal : Atom} {scope : Scope} :
    (∀ pair ∈ equations ⟨candidate, scope⟩ ⟨goal, scope⟩, pair.1.isVar = true → pair.1 ≠ pair.2) ↔
      Apart candidate goal := by
  have isVar (term : Term) : (Key.ofTerm scope term).isVar = true ↔ term.isVariable = true := by
    rw [Key.ofTerm]
    split <;> simp_all [Key.isVar]
  have same {first second : Term} (free : first.isVariable = true) :
      Key.ofTerm scope first = Key.ofTerm scope second ↔ first = second := by
    refine ⟨fun equal => ?_, fun equal => equal ▸ rfl⟩
    rw [Key.ofTerm, Key.ofTerm, if_pos free] at equal
    split at equal <;> cases first <;> cases second <;> simp_all
  simp only [equations, ScopedAtom.keys, Apart, List.zip_map, List.forall_mem_map, Prod.map, isVar]
  exact forall₂_congr fun pair _ => imp_congr_right fun free => not_congr (same free)

variable {goals : List ScopedAtom} {valuation : Valuation}

/-- A valuation that satisfies the equations gives every rule of the proof its assignment. -/
theorem Proves.solved {forest : ProofForest Scope} {needed : List (Key × Key)}
    (proves : Proves database goals forest needed) (satisfied : valuation.Satisfies needed) :
    Solved database (valuation.assigned goals) forest.erase := by
  induction proves with
  | done => exact .done
  | fact stored fits _ ih =>
    obtain ⟨here, rest⟩ := Valuation.Satisfies.append_iff.mp satisfied
    have same := fits.ground_eq here
    rw [Valuation.ground_eq, Valuation.ground_eq] at same
    exact .fact stored (apart_iff.mp fits.apart) same (ih rest)
  | @rule goal goals index rule own _ _ _ _ stored fits _ _ bodyIh ih =>
    obtain ⟨here, both⟩ := Valuation.Satisfies.append_iff.mp satisfied
    obtain ⟨inner, rest⟩ := Valuation.Satisfies.append_iff.mp both
    have same := fits.ground_eq here
    rw [Valuation.ground_eq, Valuation.ground_eq] at same
    have body := bodyIh inner
    rw [Valuation.assigned, List.map_map] at body
    exact .rule stored (valuation.within own) same body (ih rest)

theorem Matches.of_apart {candidate goal : Atom} {scope : Scope} {assign : String → String}
    (apart : Apart candidate goal) (same : instantiate assign candidate = instantiate assign goal) :
    Matches ⟨candidate, scope⟩ ⟨goal, scope⟩ := by
  simp only [instantiate, GroundAtom.mk.injEq] at same
  exact ⟨same.1, by simpa [Atom.arity] using congrArg List.length same.2, apart_iff.mpr apart⟩

theorem apart_of_scope_ne {candidate goal : ScopedAtom} (different : candidate.scope ≠ goal.scope) :
    ∀ pair ∈ equations candidate goal, pair.1.isVar = true → pair.1 ≠ pair.2 := by
  intro pair member free same
  obtain ⟨left, right⟩ := List.of_mem_zip member
  obtain ⟨key, other⟩ := pair
  cases key with
  | const name => cases free
  | var name scope =>
    obtain rfl : Key.var name scope = other := same
    exact different ((scope_of_mem_keys left).symm.trans (scope_of_mem_keys right))

theorem Matches.of_scope_ne {candidate goal : ScopedAtom} (different : candidate.scope ≠ goal.scope)
    (predicate : candidate.atom.predicate = goal.atom.predicate) (arity : candidate.atom.arity = goal.atom.arity) :
    Matches candidate goal :=
  ⟨predicate, arity, apart_of_scope_ne different⟩

theorem predicate_and_arity_of_instantiate_eq {candidate goal : Atom} {assign other : String → String}
    (same : instantiate assign candidate = instantiate other goal) :
    candidate.predicate = goal.predicate ∧ candidate.arity = goal.arity := by
  simp only [instantiate, GroundAtom.mk.injEq] at same
  exact ⟨same.1, by simpa [Atom.arity] using congrArg List.length same.2⟩

theorem satisfies_of_ground_eq {candidate goal : ScopedAtom} (same : valuation.ground candidate = valuation.ground goal) :
    valuation.Satisfies (equations candidate goal) :=
  (Valuation.ground_eq_ground_iff.mp same).2.2

/-- Only the scopes of the goals and of the rules matter to the equations of a proof. -/
theorem Proves.satisfies_of_agree {forest : ProofForest Scope} {needed : List (Key × Key)} {moved : Valuation}
    {scopes : Set Scope} (proves : Proves database goals forest needed) (satisfied : valuation.Satisfies needed)
    (agree : AgreeOutside scopes valuation moved) (labels : ∀ scope ∈ forest.labels, scope ∉ scopes)
    (others : ∀ goal ∈ goals, goal.scope ∉ scopes) : moved.Satisfies needed := by
  apply agree.satisfies satisfied
  intro name scope mentioned
  rcases proves.scope_of_mentioned mentioned with label | same
  · exact labels scope label
  · obtain ⟨goal, member, same⟩ := same
    rw [same]
    exact others goal member

/-- Scopes that are used once each and by none of the goals can carry the assignments of all rules at the same
time. -/
theorem Solved.exists_proves {forest : ProofForest Scope}
    (solved : Solved database (valuation.assigned goals) forest.erase) (once : forest.labels.Nodup)
    (fresh : ∀ goal ∈ goals, goal.scope ∉ forest.labels) :
    ∃ needed extended, Proves database goals forest needed ∧ Valuation.Satisfies extended needed ∧
      AgreeOutside {scope | scope ∈ forest.labels} valuation extended := by
  induction forest generalizing goals valuation with
  | done =>
    cases goals with
    | nil => exact ⟨[], valuation, .done, by simp [Valuation.Satisfies], fun _ _ _ => rfl⟩
    | cons goal goals => cases solved
  | fact index rest ih =>
    cases goals with
    | nil => cases solved
    | cons goal goals =>
      obtain ⟨freshGoal, freshGoals⟩ := List.forall_mem_cons.mp fresh
      cases solved with
      | @fact _ _ _ _ fact _ stored apart same others =>
        obtain ⟨needed, extended, proves, satisfied, agree⟩ := ih others once freshGoals
        refine ⟨_, extended, .fact stored (Matches.of_apart apart same) proves, ?_, agree⟩
        apply Valuation.Satisfies.append_iff.mpr ⟨satisfies_of_ground_eq ?_, satisfied⟩
        rw [Valuation.ground_eq, Valuation.ground_eq, agree.within_eq freshGoal]
        exact same
  | rule index own premises rest premisesIh ih =>
    cases goals with
    | nil => cases solved
    | cons goal goals =>
      obtain ⟨freshGoal, freshGoals⟩ := List.forall_mem_cons.mp fresh
      obtain ⟨different, goalInner, goalRest⟩ : goal.scope ≠ own ∧ goal.scope ∉ premises.labels ∧
          goal.scope ∉ rest.labels := by
        simpa [ProofForest.labels] using freshGoal
      obtain ⟨alone, both⟩ := List.nodup_cons.mp once
      obtain ⟨onceInner, onceRest, disjoint⟩ := List.nodup_append.mp both
      obtain ⟨ownInner, ownRest⟩ : own ∉ premises.labels ∧ own ∉ rest.labels := by
        simpa using alone
      cases solved with
      | @rule _ _ _ _ rule _ _ stored assign same body others =>
        -- The rule's scope takes its assignment first, then the premises' rules, then those of the other goals.
        have started := valuation.agree_update own assign
        have body : Solved database ((valuation.update own assign).assigned (rule.body.map (⟨·, own⟩)))
            premises.erase := by
          rw [Valuation.assigned, List.map_map]
          simpa only [Function.comp_def, Valuation.within_update] using body
        obtain ⟨inner, middle, bodyProves, innerSatisfied, within⟩ :=
          premisesIh body onceInner (List.forall_mem_map.mpr fun _ _ => ownInner)
        have before : AgreeOutside {scope | scope = own ∨ scope ∈ premises.labels} valuation middle :=
          (started.mono fun scope => Or.inl).trans within fun scope => Or.inr
        have others : Solved database (middle.assigned goals) rest.erase := by
          rwa [before.assigned_eq]
          intro other member inside
          apply freshGoals other member
          rcases inside with own | label
          · exact List.mem_cons.mpr (Or.inl own)
          · exact List.mem_cons_of_mem _ (List.mem_append_left _ label)
        obtain ⟨needed, extended, proves, satisfied, after⟩ := ih others onceRest fun other member label =>
          freshGoals other member (List.mem_cons_of_mem _ (List.mem_append_right _ label))
        have ownWithin : extended.within own = assign := by
          rw [after.within_eq ownRest, within.within_eq ownInner, Valuation.within_update]
        have goalWithin : extended.within goal.scope = valuation.within goal.scope := by
          rw [after.within_eq goalRest, within.within_eq goalInner, started.within_eq different]
        have head : extended.Satisfies (equations ⟨rule.head, own⟩ goal) := by
          apply satisfies_of_ground_eq
          rw [Valuation.ground_eq, Valuation.ground_eq, ownWithin, goalWithin]
          exact same
        have premises : extended.Satisfies inner := bodyProves.satisfies_of_agree innerSatisfied after
          (fun scope label later => disjoint scope label scope later rfl) (List.forall_mem_map.mpr fun _ _ => ownRest)
        obtain ⟨predicate, arity⟩ := predicate_and_arity_of_instantiate_eq same
        refine ⟨_, extended, .rule stored (Matches.of_scope_ne different.symm predicate arity) bodyProves proves, ?_, ?_⟩
        · exact Valuation.Satisfies.append_iff.mpr ⟨head, Valuation.Satisfies.append_iff.mpr ⟨premises, satisfied⟩⟩
        · apply (before.mono ?_).trans after
          · exact fun scope label => List.mem_cons_of_mem _ (List.mem_append_right _ label)
          · intro scope inside
            rcases inside with own | label
            · exact List.mem_cons.mpr (Or.inl own)
            · exact List.mem_cons_of_mem _ (List.mem_append_left _ label)

end Backchain.Proofs
