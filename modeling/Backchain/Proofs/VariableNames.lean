import Backchain.Proofs.QueryAnswers
import Backchain.Proofs.ScopeRenaming
import Backchain.Proofs.SearchLockstep

/-! Other names for variables. The query and each rule may be given names of their own: if the facts have no variables,
the two searches go through the same steps, and the answers are the same but for the names in the query. -/

namespace Backchain

def Term.renameVar (change : String → String) (term : Term) : Term :=
  if term.isVariable then ⟨change term.text⟩ else term

def Atom.renameVars (change : String → String) (atom : Atom) : Atom :=
  { atom with arguments := atom.arguments.map (Term.renameVar change) }

/-- Head and body take the names together. -/
def Rule.renameVars (change : String → String) (rule : Rule) : Rule :=
  ⟨rule.head.renameVars change, rule.body.map (Atom.renameVars change)⟩

def Rule.terms (rule : Rule) : List Term := rule.head.arguments ++ rule.body.flatMap Atom.arguments

/-- Other names for the variables, in each scope its own. -/
def Renaming.ofNames (names : Scope → Equiv.Perm String) : Renaming where
  key
    | .var name scope => .var (names scope name) scope
    | .const name => .const name
  injective a b same := by
    cases a with
    | const name =>
      cases b with
      | const other => exact same
      | var other scope => cases same
    | var name scope =>
      cases b with
      | const other => cases same
      | var other scope' =>
        obtain ⟨moved, rfl⟩ := Key.var.inj same
        rw [(names scope).injective moved]
  constant?_key name := by cases name <;> rfl

namespace Proofs

/-- The variables among the terms become variables again, and different ones stay different. -/
structure ValidNames (change : String → String) (terms : List Term) : Prop where
  free : ∀ term ∈ terms, term.isVariable = true → (Term.mk (change term.text)).isVariable = true
  injective : ∀ first ∈ terms, ∀ second ∈ terms, first.isVariable = true → second.isVariable = true →
    change first.text = change second.text → first = second

/-- The second rule is the first one with other names for its variables. -/
def VariantRule (rule other : Rule) : Prop := ∃ change, ValidNames change rule.terms ∧ other = rule.renameVars change

/-- In the scope the terms have the changed names. -/
def NamedBy (names : Equiv.Perm String) (change : String → String) (terms : List Term) : Prop :=
  ∀ term ∈ terms, term.isVariable = true → names term.text = change term.text

variable {change : String → String} {terms : List Term} {names : Scope → Equiv.Perm String}

theorem ValidNames.exists_perm (valid : ValidNames change terms) : ∃ own : Equiv.Perm String, NamedBy own change terms := by
  let used := (terms.filter Term.isVariable).eraseDups
  have mem_used (term : Term) : term ∈ used ↔ term ∈ terms ∧ term.isVariable = true := by simp [used]
  have distinct : used.Nodup := nodup_eraseDups _
  have once : (used.map Term.text).Nodup := by
    apply distinct.map
    intro first second same
    exact congrArg Term.mk same
  have single : (used.map fun term => change term.text).Nodup := by
    apply distinct.map_on
    intro first left second right same
    obtain ⟨left, free⟩ := (mem_used first).mp left
    obtain ⟨right, unbound⟩ := (mem_used second).mp right
    exact valid.injective first left second right free unbound same
  obtain ⟨own, taken, _⟩ := exists_renaming_of_nodup (Equiv.refl String) once single (by simp)
  rw [List.map_map] at taken
  refine ⟨own, fun term member free => ?_⟩
  exact List.map_inj_left.mp taken term ((mem_used term).mpr ⟨member, free⟩)

theorem ofTerm_renameVar (valid : ValidNames change terms) {scope : Scope} (named : NamedBy (names scope) change terms)
    {term : Term} (member : term ∈ terms) :
    Key.ofTerm scope (term.renameVar change) = Renaming.ofNames names (Key.ofTerm scope term) := by
  rw [Term.renameVar]
  by_cases free : term.isVariable = true
  · rw [if_pos free, Key.ofTerm, Key.ofTerm, if_pos free, if_pos (valid.free term member free)]
    exact congrArg (Key.var · scope) (named term member free).symm
  · rw [if_neg free, Key.ofTerm, if_neg free]
    rfl

theorem renames_renameVars (valid : ValidNames change terms) {scope : Scope}
    (named : NamedBy (names scope) change terms) {atom : Atom} (inside : atom.arguments ⊆ terms) :
    Renames (.ofNames names) ⟨atom, scope⟩ ⟨atom.renameVars change, scope⟩ where
  predicate := rfl
  keys := by
    simp only [ScopedAtom.keys, Atom.renameVars, List.map_map]
    exact List.map_congr_left fun term member => ofTerm_renameVar valid named (inside member)

/-- Without variables the scopes do not matter. -/
theorem renames_of_isGround {naming : Renaming} {fact : Atom} (ground : fact.isGround = true) (scope scope' : Scope) :
    Renames naming ⟨fact, scope⟩ ⟨fact, scope'⟩ where
  predicate := rfl
  keys := by
    simp only [ScopedAtom.keys, List.map_map]
    apply List.map_congr_left
    intro term member
    have constant : term.isVariable = false := by
      simpa [Term.isConstant] using List.all_eq_true.mp ground term member
    simp [Key.ofTerm, constant]

/-! ### The search -/

/-- The names that the rule has in its scope make it the other one. -/
def Follows (own : Equiv.Perm String) (rule other : Rule) : Prop :=
  ∃ change, ValidNames change rule.terms ∧ other = rule.renameVars change ∧ NamedBy own change rule.terms

theorem Follows.head {rule other : Rule} {scope : Scope} (follows : Follows (names scope) rule other) :
    Renames (.ofNames names) ⟨rule.head, scope⟩ ⟨other.head, scope⟩ := by
  obtain ⟨change, valid, rfl, named⟩ := follows
  exact renames_renameVars valid named (List.subset_append_left _ _)

theorem Follows.body {rule other : Rule} {scope : Scope} (follows : Follows (names scope) rule other) :
    List.Forall₂ (Renames (.ofNames names)) (rule.body.map (⟨·, scope⟩)) (other.body.map (⟨·, scope⟩)) := by
  obtain ⟨change, valid, rfl, named⟩ := follows
  simp only [Rule.renameVars, List.forall₂_map_left_iff, List.forall₂_map_right_iff]
  apply List.forall₂_same.mpr
  intro premise member
  apply renames_renameVars valid named
  intro term occurs
  exact List.mem_append_right _ (List.mem_flatMap_of_mem member occurs)

theorem exists_follows {rules others : List Rule} (variants : List.Forall₂ VariantRule rules others) (index : Nat) :
    ∃ own : Equiv.Perm String, ∀ rule other, rules[index]? = some rule → others[index]? = some other →
      Follows own rule other := by
  by_cases inside : index < rules.length
  · have within : index < others.length := variants.length_eq ▸ inside
    obtain ⟨change, valid, same⟩ := variants.get inside within
    obtain ⟨own, named⟩ := valid.exists_perm
    refine ⟨own, fun rule other stored present => ?_⟩
    rw [List.getElem?_eq_getElem inside, Option.some.injEq] at stored
    rw [List.getElem?_eq_getElem within, Option.some.injEq] at present
    subst stored present
    exact ⟨change, valid, same, named⟩
  · refine ⟨Equiv.refl String, fun rule other stored => ?_⟩
    exact absurd (List.getElem?_eq_some_iff.mp stored).1 inside

/-- The query is in the first scope, and the scopes of a rule follow one another at as many places as there are rules. -/
theorem exists_names {rules others : List Rule} (variants : List.Forall₂ VariantRule rules others)
    (first : Equiv.Perm String) : ∃ names : Scope → Equiv.Perm String, names 0 = first ∧
      ∀ (index : Nat) rule other, rules[index]? = some rule → others[index]? = some other →
        ∀ count : Nat, Follows (names (1 + count * rules.length + index)) rule other := by
  choose own follows using exists_follows variants
  refine ⟨fun scope => if scope = 0 then first else own ((scope - 1) % rules.length), rfl, ?_⟩
  intro index rule other stored present count
  have inside : index < rules.length := (List.getElem?_eq_some_iff.mp stored).1
  have later : 1 + count * rules.length + index ≠ 0 := by omega
  have position : (1 + count * rules.length + index - 1) % rules.length = index := by
    rw [Nat.add_assoc, Nat.add_sub_cancel_left, Nat.mul_add_mod', Nat.mod_eq_of_lt inside]
  dsimp only
  rw [if_neg later, position]
  exact follows index rule other stored present

theorem simulates_ofNames {facts : List Atom} {rules others : List Rule}
    (ground : ∀ fact ∈ facts, fact.isGround = true) (size : rules.length = others.length)
    (follows : ∀ (index : Nat) rule other, rules[index]? = some rule → others[index]? = some other →
      ∀ count : Nat, Follows (names (1 + count * rules.length + index)) rule other) (limits : Limits) :
    Simulates (.ofNames names) (Renames (.ofNames names)) ⟨⟨facts, rules⟩, limits, ⟨1⟩, {}⟩
      ⟨⟨facts, others⟩, limits, ⟨1⟩, {}⟩ where
  maxDepth := rfl
  stepsLeft := rfl
  facts goal copy rest rests partition depth here later := by
    have same : List.Forall₂ (fun fact fact' : Atom => fact.isGround = true ∧ fact' = fact) facts facts :=
      List.forall₂_same.mpr fun fact member => ⟨ground fact member, rfl⟩
    apply List.rel_filterMap _ same
    intro fact fact' constant
    obtain ⟨constant, rfl⟩ := constant
    exact Copies.of_fact here later (renames_of_isGround constant _ _) partition depth
  rules tally goal copy rest rests partition depth here later := by
    have paired : List.Forall₂ (fun entry entry' => entry'.2 = entry.2 ∧ Follows (names entry.2) entry.1 entry'.1)
        (instances (Search.gain ⟨⟨facts, rules⟩, limits, ⟨1⟩, {}⟩ tally))
        (instances (Search.gain ⟨⟨facts, others⟩, limits, ⟨1⟩, {}⟩ tally)) := by
      apply forall₂_instances size
      intro index rule rule' stored present
      rw [Search.gain_next, Search.gain_next]
      exact ⟨by rw [size], follows index rule rule' stored present tally.expansions⟩
    apply List.rel_filterMap _ paired
    intro entry entry' follows
    obtain ⟨rule, scope⟩ := entry
    obtain ⟨rule', scope'⟩ := entry'
    obtain ⟨rfl, follows⟩ := follows
    exact Copies.of_rule here later follows.head (fun _ => follows.body) partition depth

/-! ### Answers -/

section
variable {query : Atom} (valid : ValidNames change query.arguments)
include valid

theorem isVariable_renameVar {term : Term} (member : term ∈ query.arguments) :
    (term.renameVar change).isVariable = term.isVariable := by
  rw [Term.renameVar]
  split
  next free => rw [valid.free term member free, free]
  next => rfl

theorem vars_renameVars : (query.renameVars change).vars = query.vars.map (Term.renameVar change) := by
  have kept : (query.arguments.map (Term.renameVar change)).filter Term.isVariable =
      (query.arguments.filter Term.isVariable).map (Term.renameVar change) := by
    rw [List.filter_map]
    congr 1
    exact List.filter_congr fun term member => isVariable_renameVar valid member
  rw [Atom.vars, Atom.vars, Atom.renameVars, kept]
  apply eraseDups_map
  intro first left second right same
  obtain ⟨left, free⟩ := List.mem_filter.mp left
  obtain ⟨right, unbound⟩ := List.mem_filter.mp right
  rw [Term.renameVar, Term.renameVar, if_pos free, if_pos unbound] at same
  exact valid.injective first left second right free unbound (Term.mk.inj same)

theorem isGround_renameVars : (query.renameVars change).isGround = query.isGround := by
  rw [Atom.isGround, Atom.isGround, Atom.renameVars, List.all_map, Bool.eq_iff_iff, List.all_eq_true, List.all_eq_true]
  apply forall₂_congr
  intro term member
  rw [Function.comp_apply, Term.isConstant, Term.isConstant, isVariable_renameVar valid member]

theorem valueEntries_renameVars {value renamed : String → Option String}
    (same : ∀ term ∈ query.vars, renamed (change term.text) = value term.text) :
    valueEntries renamed (query.renameVars change) = (valueEntries value query).map (Prod.map change id) := by
  rw [valueEntries, valueEntries, vars_renameVars valid, List.filterMap_map, List.map_filterMap]
  apply List.filterMap_congr
  intro term member
  have text : (term.renameVar change).text = change term.text := by
    rw [Term.renameVar, if_pos (mem_vars.mp member).2]
  rw [Function.comp_apply, text, same term member, Option.map_map]
  rfl

end

/-- The bindings are the same, with the changed names for the variables. -/
def RenamedBindings (change : String → String) (bindings renamed : Bindings) : Prop :=
  renamed.entries = bindings.entries.map (Prod.map change id)

inductive SameAnswer (change : String → String) : Except LimitError Answer → Except LimitError Answer → Prop where
  | exceeded (error : LimitError) : SameAnswer change (.error error) (.error error)
  | truth (holds : Bool) : SameAnswer change (.ok (.truth holds)) (.ok (.truth holds))
  | solutions {all others : List Bindings} (each : List.Forall₂ (RenamedBindings change) all others) :
      SameAnswer change (.ok (.solutions all)) (.ok (.solutions others))

section
variable {query : Atom} (valid : ValidNames change query.arguments) (named : NamedBy (names 0) change query.arguments)
include valid named

theorem renamedBindings_ofQueries {solution copy : Partition} (same : RenamedKeys (.ofNames names) solution copy) :
    RenamedBindings change (Bindings.ofQueries (Engine.goals [query]) solution)
      (Bindings.ofQueries (Engine.goals [query.renameVars change]) copy) := by
  have bound : ∀ term ∈ query.vars, boundIn copy 0 (change term.text) = boundIn solution 0 term.text := by
    intro term member
    obtain ⟨occurs, free⟩ := mem_vars.mp member
    rw [boundIn, boundIn, same, ← named term occurs free]
    exact solution.valueOf_renameKeys (.ofNames names) (.var term.text 0)
  have first : (Bindings.ofQueries (Engine.goals [query]) solution).entries = valueEntries (boundIn solution 0) query :=
    entries_ofQuery_eq ⟨query, 0⟩ solution
  have second : (Bindings.ofQueries (Engine.goals [query.renameVars change]) copy).entries =
      valueEntries (boundIn copy 0) (query.renameVars change) := entries_ofQuery_eq ⟨query.renameVars change, 0⟩ copy
  rw [RenamedBindings, first, second, valueEntries_renameVars valid bound]

theorem sameAnswer_ofPartitions {limits : Limits} {result copy : Except LimitError (List Partition)}
    (same : SameResult limits limits (RenamedKeys (.ofNames names)) result copy) :
    SameAnswer change (result.map (Answer.ofPartitions (Engine.goals [query])))
      (copy.map (Answer.ofPartitions (Engine.goals [query.renameVars change]))) := by
  cases same with
  | exceeded same =>
    rw [same.eq]
    exact .exceeded _
  | found each =>
    obtain ⟨holds, first, second⟩ | ⟨entered, others, related, first, second⟩ :=
      ofPartitions_rel (isGround_renameVars valid) (fun _ _ => RenamedKeys.isEmpty_eq) each
    · rw [Except.map, Except.map, first, second]
      exact .truth holds
    · rw [Except.map, Except.map, first, second]
      apply SameAnswer.solutions
      rw [List.forall₂_map_left_iff, List.forall₂_map_right_iff]
      exact related.imp fun _ _ same => renamedBindings_ofQueries valid named same

end

/-- Whatever the variables of the query and of each rule are called, the answer is the same. -/
theorem query_renameVars {facts : List Atom} {rules others : List Rule} {query : Atom}
    (ground : ∀ fact ∈ facts, fact.isGround = true) (variants : List.Forall₂ VariantRule rules others)
    (valid : ValidNames change query.arguments) (limits : Limits) (fuel : Nat) :
    Option.Rel (SameAnswer change) (Engine.query fuel ⟨⟨facts, rules⟩, limits⟩ query)
      (Engine.query fuel ⟨⟨facts, others⟩, limits⟩ (query.renameVars change)) := by
  obtain ⟨first, named⟩ := valid.exists_perm
  obtain ⟨names, rfl, follows⟩ := exists_names variants first
  have asked : List.Forall₂ (Renames (.ofNames names)) (Engine.goals [query]) (Engine.goals [query.renameVars change]) :=
    .cons (renames_renameVars valid named (List.Subset.refl _)) .nil
  have simulates : Simulates (.ofNames names) (Renames (.ofNames names))
      (Engine.search ⟨⟨facts, rules⟩, limits⟩ (Engine.goals [query]))
      (Engine.search ⟨⟨facts, others⟩, limits⟩ (Engine.goals [query.renameVars change])) :=
    simulates_ofNames ground variants.length_eq follows limits
  exact rel_map (simulates.partitions asked fuel) fun _ _ same => sameAnswer_ofPartitions valid named same

def lineage : List Atom := [⟨"parent", [⟨"ann"⟩, ⟨"bob"⟩]⟩, ⟨"parent", [⟨"bob"⟩, ⟨"cal"⟩]⟩]

def grandparent : Rule :=
  ⟨⟨"grandparent", [⟨"X"⟩, ⟨"Z"⟩]⟩, [⟨"parent", [⟨"X"⟩, ⟨"Y"⟩]⟩, ⟨"parent", [⟨"Y"⟩, ⟨"Z"⟩]⟩]⟩

def swapXY (name : String) : String := if name = "X" then "Y" else if name = "Y" then "X" else name

def turnXYZ (name : String) : String :=
  if name = "X" then "Y" else if name = "Y" then "Z" else if name = "Z" then "X" else name

def grandparents : Atom := ⟨"grandparent", [⟨"X"⟩, ⟨"Y"⟩]⟩

/-- The query exchanges its names, and the rule turns them round. -/
theorem query_renameVars_grandparents :
    (∀ fact ∈ lineage, fact.isGround = true) ∧
      List.Forall₂ VariantRule [grandparent] [grandparent.renameVars turnXYZ] ∧
      ValidNames swapXY grandparents.arguments ∧
      Engine.query 30 ⟨⟨lineage, [grandparent]⟩, {}⟩ grandparents =
        some (.ok (.solutions [⟨[("X", "ann"), ("Y", "cal")], by simp⟩])) ∧
      grandparents.renameVars swapXY = ⟨"grandparent", [⟨"Y"⟩, ⟨"X"⟩]⟩ ∧
      ∃ renamed : Bindings, renamed.entries = [("Y", "ann"), ("X", "cal")] ∧
        Engine.query 30 ⟨⟨lineage, [grandparent.renameVars turnXYZ]⟩, {}⟩ (grandparents.renameVars swapXY) =
          some (.ok (.solutions [renamed])) := by
  have ground : ∀ fact ∈ lineage, fact.isGround = true := by decide
  have variant : VariantRule grandparent (grandparent.renameVars turnXYZ) := ⟨turnXYZ, ⟨by decide, by decide⟩, rfl⟩
  have valid : ValidNames swapXY grandparents.arguments := ⟨by decide, by decide⟩
  have answered : Engine.query 30 ⟨⟨lineage, [grandparent]⟩, {}⟩ grandparents =
      some (.ok (.solutions [⟨[("X", "ann"), ("Y", "cal")], by simp⟩])) := by cbv
  refine ⟨ground, .cons variant .nil, valid, answered, by decide, ?_⟩
  have same := query_renameVars ground (.cons variant .nil) valid {} 30
  rw [answered] at same
  generalize Engine.query 30 _ (grandparents.renameVars swapXY) = result at same ⊢
  cases same with
  | some same =>
    cases same with
    | solutions each =>
      cases each with
      | cons renamed none =>
        cases none
        exact ⟨_, renamed, rfl⟩

end Proofs
end Backchain
