import Backchain.Proofs.ProofRearrangement
import Backchain.Proofs.QueryAnswers
import Backchain.Proofs.SearchLockstep

/-! Clauses that no proof of a query can come to. A goal only ever calls for predicates that are relevant to the query,
so that further facts and rules for other predicates change nothing but the scopes that are drawn. -/

namespace Backchain

def Atom.signature (atom : Atom) : String × Nat := (atom.predicate, atom.arity)

namespace Proofs

/-- The predicates that a proof of the query can come to. -/
inductive Relevant (rules : List Rule) (query : Atom) : String × Nat → Prop where
  | query : Relevant rules query query.signature
  | premise {rule : Rule} {premise : Atom} (stored : rule ∈ rules) (called : Relevant rules query rule.head.signature)
      (member : premise ∈ rule.body) : Relevant rules query premise.signature

/-- The second list is the first one with extra items put in anywhere. -/
inductive Extends {α : Type} (extra : α → Prop) : List α → List α → Prop where
  | nil : Extends extra [] []
  | keep (item : α) {items larger : List α} (rest : Extends extra items larger) :
      Extends extra (item :: items) (item :: larger)
  | insert {item : α} {items larger : List α} (new : extra item) (rest : Extends extra items larger) :
      Extends extra items (item :: larger)

section
variable {α β : Type} {extra : α → Prop} {items larger : List α}

theorem Extends.filterMap_eq (extended : Extends extra items larger) {read : α → Option β}
    (none : ∀ item, extra item → read item = none) : larger.filterMap read = items.filterMap read := by
  induction extended with
  | nil => rfl
  | keep item _ ih => rw [List.filterMap_cons, List.filterMap_cons, ih]
  | insert new _ ih => rw [List.filterMap_cons_none (none _ new), ih]

theorem Extends.map {extra' : β → Prop} (extended : Extends extra items larger) {change : α → β}
    (kept : ∀ item, extra item → extra' (change item)) : Extends extra' (items.map change) (larger.map change) := by
  induction extended with
  | nil => exact .nil
  | keep item _ ih => exact .keep _ ih
  | insert new _ ih => exact .insert (kept _ new) ih

/-- The items are found again at places that grow. -/
theorem Extends.exists_places (extended : Extends extra items larger) (first : Nat) :
    ∃ places : List Nat, places.length = items.length ∧ places.Nodup ∧
      (∀ place ∈ places, first ≤ place ∧ place < first + larger.length) ∧
      Extends (fun entry => extra entry.1) (items.zip places) (larger.zipIdx first) := by
  induction extended generalizing first with
  | nil => exact ⟨[], rfl, List.nodup_nil, List.forall_mem_nil _, .nil⟩
  | @keep item items larger _ ih =>
    obtain ⟨places, size, once, inside, extended⟩ := ih (first + 1)
    refine ⟨first :: places, by simp [size], ?_, ?_, ?_⟩
    · apply List.nodup_cons.mpr
      refine ⟨fun member => ?_, once⟩
      have later := inside first member
      omega
    · rw [List.length_cons]
      refine List.forall_mem_cons.mpr ⟨by omega, fun place member => ?_⟩
      have later := inside place member
      omega
    · rw [List.zip_cons_cons, List.zipIdx_cons]
      exact .keep _ extended
  | @insert item items larger new _ ih =>
    obtain ⟨places, size, once, inside, extended⟩ := ih (first + 1)
    refine ⟨places, size, once, ?_, ?_⟩
    · intro place member
      have later := inside place member
      rw [List.length_cons]
      omega
    · rw [List.zipIdx_cons]
      exact .insert new extended

end

/-! ### Scopes of the larger search -/

/-- The scope in the larger search. The first scope is the query's own, and then the scopes of all rules come round again
and again, in each of the searches as many as it has rules. -/
def relocate (places : List Nat) (count : Nat) : Nat → Nat
  | 0 => 0
  | scope + 1 => 1 + scope / places.length * count + places.getD (scope % places.length) scope

section
variable {places : List Nat} {count : Nat}

theorem relocate_add {index : Nat} (here : index < places.length) (round : Nat) :
    relocate places count (1 + round * places.length + index) = 1 + round * count + places.get ⟨index, here⟩ := by
  have scope : 1 + round * places.length + index = (round * places.length + index) + 1 := by omega
  have turn : (round * places.length + index) / places.length = round := by
    rw [Nat.add_comm, Nat.add_mul_div_right _ _ (by omega), Nat.div_eq_of_lt here, Nat.zero_add]
  have position : (round * places.length + index) % places.length = index := by
    rw [Nat.mul_add_mod', Nat.mod_eq_of_lt here]
  rw [scope, relocate, turn, position, List.getD, List.getElem?_eq_getElem here]
  rfl

theorem relocate_injective (once : places.Nodup) (inside : ∀ place ∈ places, place < count) :
    Function.Injective (relocate places count) := by
  by_cases none : places = []
  · subst none
    have same (scope : Nat) : relocate [] count scope = scope := by
      cases scope with
      | zero => rfl
      | succ scope => simp [relocate, Nat.add_comm]
    intro first second equal
    rwa [same, same] at equal
  · have positive : 0 < places.length := List.length_pos_iff.mpr none
    have split (scope : Nat) : relocate places count (scope + 1) =
        1 + scope / places.length * count + places.get ⟨scope % places.length, Nat.mod_lt scope positive⟩ := by
      rw [← relocate_add, Nat.add_assoc, Nat.div_add_mod', Nat.add_comm]
    intro first second equal
    cases first with
    | zero =>
      cases second with
      | zero => rfl
      | succ second =>
        rw [split, relocate] at equal
        omega
    | succ first =>
      cases second with
      | zero =>
        rw [split, relocate] at equal
        omega
      | succ second =>
        rw [split, split] at equal
        have left := inside _ (List.get_mem places ⟨first % places.length, Nat.mod_lt first positive⟩)
        have right := inside _ (List.get_mem places ⟨second % places.length, Nat.mod_lt second positive⟩)
        have shared : first / places.length * count + places.get ⟨first % places.length, Nat.mod_lt first positive⟩ =
            second / places.length * count + places.get ⟨second % places.length, Nat.mod_lt second positive⟩ := by
          omega
        have place := congrArg (· % count) shared
        simp only [Nat.mul_add_mod', Nat.mod_eq_of_lt left, Nat.mod_eq_of_lt right] at place
        have position : first % places.length = second % places.length := by
          simpa using once.get_inj_iff.mp place
        have turn : first / places.length = second / places.length := by
          rw [place, Nat.add_right_cancel_iff] at shared
          exact Nat.eq_of_mul_eq_mul_right (Nat.zero_lt_of_lt left) shared
        rw [← Nat.div_add_mod first places.length, ← Nat.div_add_mod second places.length, position, turn]

end

/-! ### The search -/

/-- Facts and rules have been put in anywhere, none of them for a predicate that is relevant to the query. -/
structure ExtendsIrrelevantly (query : Atom) (database larger : Database) : Prop where
  facts : Extends (fun fact => ¬ Relevant database.rules query fact.signature) database.facts larger.facts
  rules : Extends (fun rule => ¬ Relevant database.rules query rule.head.signature) database.rules larger.rules

/-- The goal in its scope in the larger search. No other goals than relevant ones come up. -/
def Relocated (rules : List Rule) (query : Atom) (change : Scope → Scope) (goal copy : ScopedAtom) : Prop :=
  copy = goal.mapScope change ∧ Relevant rules query goal.atom.signature

theorem unify_of_signature_ne {candidate goal : ScopedAtom}
    (different : candidate.atom.signature ≠ goal.atom.signature) (partition : Partition) :
    unify candidate goal partition = none := by
  rw [unify, if_neg]
  intro same
  exact different (Prod.ext same.1 same.2)

variable {database larger : Database} {query : Atom} {places : List Nat}

section
variable {rules : List Rule} {goal : ScopedAtom} (relevant : Relevant rules query goal.atom.signature)
include relevant

theorem factBranches_extends {facts more : List Atom}
    (extended : Extends (fun fact => ¬ Relevant rules query fact.signature) facts more) (rest : List ScopedAtom)
    (partition : Partition) (depth : Nat) :
    Search.factBranches more goal rest partition depth = Search.factBranches facts goal rest partition depth := by
  apply extended.filterMap_eq
  intro fact irrelevant
  have different : fact.signature ≠ goal.atom.signature := fun same => irrelevant (same ▸ relevant)
  have refused : unify ⟨fact, goal.scope⟩ goal partition = none := unify_of_signature_ne different partition
  rw [refused, Option.map_none]

theorem ruleBranches_extends {entries more : List (Rule × Scope)}
    (extended : Extends (fun entry => ¬ Relevant rules query entry.1.head.signature) entries more)
    (rest : List ScopedAtom) (partition : Partition) (depth : Nat) :
    Search.ruleBranches more goal rest partition depth = Search.ruleBranches entries goal rest partition depth := by
  apply extended.filterMap_eq
  intro entry irrelevant
  have different : entry.1.head.signature ≠ goal.atom.signature := fun same => irrelevant (same ▸ relevant)
  have refused : unify ⟨entry.1.head, entry.2⟩ goal partition = none := unify_of_signature_ne different partition
  simp only [Rule.apply, refused, Option.map_none]

end

/-- After as many expansions the rules take the scopes that theirs are relocated to. -/
theorem instances_relocate (size : places.length = database.rules.length) (limits : Limits) (count : Nat)
    (tally : Tally) :
    (database.rules.zip places).map (Prod.map id (1 + tally.expansions * count + ·)) =
      (instances (Search.gain ⟨database, limits, ⟨1⟩, {}⟩ tally)).map (Prod.map id (relocate places count)) := by
  rw [instances, ScopeSupply.draw_eq, Search.gain_next, Search.gain_database, ← List.zip_map_right, ← List.zip_map_right]
  congr 1
  apply List.ext_get
  · simp [size]
  intro index here there
  have inside : index < places.length := by simpa using here
  have scope : relocate places count _ = _ := relocate_add inside tally.expansions
  simpa [size, List.getElem_range'] using scope.symm

theorem simulates_relocate (extended : ExtendsIrrelevantly query database larger)
    (size : places.length = database.rules.length) (once : places.Nodup)
    (inside : ∀ place ∈ places, place < larger.rules.length)
    (found : Extends (fun entry => ¬ Relevant database.rules query entry.1.head.signature) (database.rules.zip places)
      larger.rules.zipIdx) (limits : Limits) :
    Simulates (.ofScopes (relocate places larger.rules.length) (relocate_injective once inside))
      (Relocated database.rules query (relocate places larger.rules.length)) ⟨database, limits, ⟨1⟩, {}⟩
      ⟨larger, limits, ⟨1⟩, {}⟩ where
  maxDepth := rfl
  stepsLeft := rfl
  facts goal copy rest rests partition depth here later := by
    obtain ⟨rfl, relevant⟩ := here
    have called : Relevant database.rules query (goal.mapScope (relocate places larger.rules.length)).atom.signature :=
      relevant
    rw [factBranches_extends called extended.facts]
    exact Copies.factBranches (relocate_injective once inside) goal later partition depth _
  rules tally goal copy rest rests partition depth here later := by
    obtain ⟨rfl, relevant⟩ := here
    have more : Extends (fun entry => ¬ Relevant database.rules query entry.1.head.signature)
        ((database.rules.zip places).map (Prod.map id (1 + tally.expansions * larger.rules.length + ·)))
        (instances (Search.gain ⟨larger, limits, ⟨1⟩, {}⟩ tally)) := by
      rw [instances_eq]
      exact found.map fun _ new => new
    have called : Relevant database.rules query (goal.mapScope (relocate places larger.rules.length)).atom.signature :=
      relevant
    rw [ruleBranches_extends called more, instances_relocate size limits]
    apply Copies.ruleBranches (relocate_injective once inside) goal later
    intro entry member fits premise needed
    have head : entry.1.head.signature = goal.atom.signature := Prod.ext fits.1 fits.2
    exact ⟨rfl, .premise (List.of_mem_zip member).1 (head ▸ relevant) needed⟩

theorem ExtendsIrrelevantly.exists_simulates (extended : ExtendsIrrelevantly query database larger) (limits : Limits) :
    ∃ change injective, change 0 = 0 ∧
      Simulates (.ofScopes change injective) (Relocated database.rules query change)
        (Engine.search ⟨database, limits⟩ (Engine.goals [query])) (Engine.search ⟨larger, limits⟩ (Engine.goals [query])) := by
  obtain ⟨places, size, once, inside, found⟩ := extended.rules.exists_places 0
  have below : ∀ place ∈ places, place < larger.rules.length := by simpa using inside
  exact ⟨_, relocate_injective once below, rfl, simulates_relocate extended size once below found limits⟩

/-! ### Answers -/

section
variable {change : Nat → Nat} {injective : Function.Injective change} {solutions copies : List Partition}

/-- The query's own scope has stayed, so that its variables have kept their values. -/
theorem ofPartitions_of_fixed (fixed : change 0 = 0)
    (each : List.Forall₂ (RenamedKeys (.ofScopes change injective)) solutions copies) (query : Atom) :
    Answer.ofPartitions (Engine.goals [query]) copies = Answer.ofPartitions (Engine.goals [query]) solutions := by
  have shown (solution copy : Partition) (same : RenamedKeys (.ofScopes change injective) solution copy) :
      Bindings.ofQueries (Engine.goals [query]) copy = Bindings.ofQueries (Engine.goals [query]) solution := by
    have bound : boundIn copy 0 = boundIn solution 0 := by
      funext name
      have kept := solution.valueOf_renameKeys (.ofScopes change injective) (.var name 0)
      rwa [← same, show Renaming.ofScopes change injective (.var name 0) = .var name 0 from congrArg _ fixed] at kept
    exact ofQuery_eq_of_boundIn bound
  obtain ⟨holds, first, second⟩ | ⟨entered, others, related, first, second⟩ :=
    ofPartitions_rel rfl (fun _ _ => RenamedKeys.isEmpty_eq) each
  · rw [first, second]
  · rw [first, second, map_eq_of_forall₂ related fun a b same => (shown a b same).symm]

end

/-- Clauses for predicates that are not relevant to a query change nothing that is answered to it, wherever they stand:
neither the answer nor its order, nor the limits that are exceeded. -/
theorem query_of_extendsIrrelevantly (extended : ExtendsIrrelevantly query database larger) (limits : Limits)
    (fuel : Nat) :
    Engine.query fuel ⟨larger, limits⟩ query = Engine.query fuel ⟨database, limits⟩ query ∧
      Engine.ask fuel ⟨larger, limits⟩ query = Engine.ask fuel ⟨database, limits⟩ query := by
  obtain ⟨change, injective, fixed, simulates⟩ := extended.exists_simulates limits
  have asked : List.Forall₂ (Relocated database.rules query change) (Engine.goals [query]) (Engine.goals [query]) :=
    .cons ⟨congrArg (ScopedAtom.mk query) fixed.symm, .query⟩ .nil
  have ran : Option.Rel (SameResult limits limits _) _ _ := simulates.partitions asked fuel
  constructor
  · exact map_eq_of_rel ran fun solutions copies each => ofPartitions_of_fixed fixed each query
  · apply map_eq_of_rel ran
    intro solutions copies each
    cases each <;> rfl

def ties : Database where
  facts := [⟨"parent", [⟨"ann"⟩, ⟨"bob"⟩]⟩, ⟨"parent", [⟨"bob"⟩, ⟨"cal"⟩]⟩]
  rules := [⟨⟨"grandparent", [⟨"X"⟩, ⟨"Z"⟩]⟩, [⟨"parent", [⟨"X"⟩, ⟨"Y"⟩]⟩, ⟨"parent", [⟨"Y"⟩, ⟨"Z"⟩]⟩]⟩]

/-- Whoever has a child is a parent, but under another predicate of the same name. -/
def moreTies : Database where
  facts := [⟨"parent", [⟨"ann"⟩, ⟨"bob"⟩]⟩, ⟨"dog", [⟨"rex"⟩]⟩, ⟨"parent", [⟨"bob"⟩, ⟨"cal"⟩]⟩]
  rules := ⟨⟨"parent", [⟨"X"⟩]⟩, [⟨"parent", [⟨"X"⟩, ⟨"Y"⟩]⟩]⟩ :: ties.rules

theorem query_of_extendsIrrelevantly_ties :
    ExtendsIrrelevantly ⟨"grandparent", [⟨"ann"⟩, ⟨"W"⟩]⟩ ties moreTies ∧
      Engine.query 30 ⟨ties, { maxDepth := some 1 }⟩ ⟨"grandparent", [⟨"ann"⟩, ⟨"W"⟩]⟩ =
        some (.ok (.solutions [⟨[("W", "cal")], by simp⟩])) ∧
      Engine.query 30 ⟨moreTies, { maxDepth := some 1 }⟩ ⟨"grandparent", [⟨"ann"⟩, ⟨"W"⟩]⟩ =
        some (.ok (.solutions [⟨[("W", "cal")], by simp⟩])) := by
  have relevant (signature : String × Nat)
      (called : Relevant ties.rules ⟨"grandparent", [⟨"ann"⟩, ⟨"W"⟩]⟩ signature) :
      signature = ("grandparent", 2) ∨ signature = ("parent", 2) := by
    cases called with
    | query => exact Or.inl rfl
    | premise stored _ member =>
      obtain rfl := List.mem_singleton.mp stored
      obtain rfl | rfl : _ ∨ _ := by simpa using member
      · exact Or.inr rfl
      · exact Or.inr rfl
  have dog : ¬ Relevant ties.rules ⟨"grandparent", [⟨"ann"⟩, ⟨"W"⟩]⟩ ("dog", 1) :=
    fun called => absurd (relevant _ called) (by decide)
  have single : ¬ Relevant ties.rules ⟨"grandparent", [⟨"ann"⟩, ⟨"W"⟩]⟩ ("parent", 1) :=
    fun called => absurd (relevant _ called) (by decide)
  have rest : Extends (fun rule => ¬ Relevant ties.rules ⟨"grandparent", [⟨"ann"⟩, ⟨"W"⟩]⟩ rule.head.signature) ties.rules
      ties.rules := .keep _ .nil
  have extended : ExtendsIrrelevantly ⟨"grandparent", [⟨"ann"⟩, ⟨"W"⟩]⟩ ties moreTies :=
    ⟨.keep _ (.insert dog (.keep _ .nil)), .insert single rest⟩
  have answered : Engine.query 30 ⟨ties, { maxDepth := some 1 }⟩ ⟨"grandparent", [⟨"ann"⟩, ⟨"W"⟩]⟩ =
      some (.ok (.solutions [⟨[("W", "cal")], by simp⟩])) := by cbv
  exact ⟨extended, answered, (query_of_extendsIrrelevantly extended _ 30).1.trans answered⟩

end Proofs
end Backchain
