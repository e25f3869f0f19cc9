import Backchain.Proofs.Expansion
import Backchain.Proofs.ProofInstances
import Mathlib.Order.Interval.Set.Basic

/-! What the exploration of a branch finds: one partition for each proof of the branch's goals, in the order of the
proofs' choices. Nothing is assumed about scopes but for the completeness of the list. -/

namespace Backchain.Proofs

structure ScopesBelow (bound : Scope) (goals : List ScopedAtom) (partition : Partition) : Prop where
  goals : ∀ goal ∈ goals, goal.scope < bound
  partition : ∀ name scope, partition.contains (.var name scope) = true → scope < bound

/-- The entries are the proofs of a branch and the partitions found for them, when the scopes from `low` up to
`high` are drawn on the way. -/
structure Enumerates (database : Database) (low high : Scope) (branch : Branch)
    (entries : List (ProofForest Scope × Partition)) : Prop where
  sound : ∀ history, Built history branch.partition → ∀ entry ∈ entries,
    ∃ needed, Proves database branch.goals entry.1 needed ∧ Built (history ++ needed) entry.2
  once : ∀ entry ∈ entries, entry.1.labels.Nodup
  drawn : ∀ entry ∈ entries, ∀ scope ∈ entry.1.labels, low ≤ scope ∧ scope < high
  ordered : entries.Pairwise fun first second => first.1.Before second.1
  complete : ∀ history, Built history branch.partition → ScopesBelow low branch.goals branch.partition →
    ∀ valuation : Valuation, valuation.Respects branch.partition →
    ∀ shape, Solved database (valuation.assigned branch.goals) shape →
    ∃ entry ∈ entries, entry.1.erase = shape ∧
      ∃ extended, AgreeOutside (Set.Ici low) valuation extended ∧ extended.Respects entry.2

variable {database : Database} {low lower high higher : Nat} {branch : Branch}
  {entries : List (ProofForest Scope × Partition)}

theorem ScopesBelow.mono {goals : List ScopedAtom} {partition : Partition}
    (below : ScopesBelow lower goals partition) (bound : lower ≤ low) : ScopesBelow low goals partition :=
  ⟨fun goal member => (below.goals goal member).trans_le bound,
    fun name scope member => (below.partition name scope member).trans_le bound⟩

theorem ScopesBelow.of_goals {goals : List ScopedAtom} (inside : ∀ goal ∈ goals, goal.scope < low) :
    ScopesBelow low goals Partition.empty where
  goals := inside
  partition _ _ entered := absurd ((Built.nil.represents.contains_iff _).mp entered) mentioned_nil

theorem Enumerates.widen (valid : Enumerates database low high branch entries) (left : lower ≤ low)
    (right : high ≤ higher) : Enumerates database lower higher branch entries where
  sound := valid.sound
  once := valid.once
  drawn entry member scope label :=
    ⟨left.trans (valid.drawn entry member scope label).1, (valid.drawn entry member scope label).2.trans_le right⟩
  ordered := valid.ordered
  complete history built below valuation respects shape solved := by
    obtain ⟨entry, member, same, extended, agree, last⟩ :=
      valid.complete history built (below.mono left) valuation respects shape solved
    exact ⟨entry, member, same, extended, agree.mono (Set.Ici_subset_Ici.mpr left), last⟩

theorem Enumerates.solution (database : Database) (low high : Scope) (partition : Partition) (depth : Nat) :
    Enumerates database low high ⟨[], partition, depth⟩ [(.done, partition)] := by
  refine ⟨?_, ?_, ?_, List.pairwise_singleton .., ?_⟩
  · intro history built entry member
    obtain rfl := List.mem_singleton.mp member
    exact ⟨[], .done, by simpa using built⟩
  · intro entry member
    obtain rfl := List.mem_singleton.mp member
    exact List.nodup_nil
  · intro entry member scope label
    obtain rfl := List.mem_singleton.mp member
    exact absurd label List.not_mem_nil
  · intro history _ _ valuation respects shape solved
    cases solved
    exact ⟨_, List.mem_singleton.mpr rfl, rfl, valuation, fun _ _ _ => rfl, respects⟩

/-! ### One expansion -/

section
variable {goal : ScopedAtom} {rest : List ScopedAtom} {partition : Partition} {depth : Nat}
  {history needed : List (Key × Key)} {candidate : Candidate} {child : Branch} {forest : ProofForest Scope}

/-- Adding the equations with a candidate to the branch makes the child's partition. -/
theorem Candidate.sound (possible : candidate ∈ candidates database low)
    (begun : candidate.branch goal rest partition depth = some child) (built : Built history partition) :
    ∃ equation, Built (history ++ equation) child.partition ∧
      ∀ forest needed, Proves database child.goals forest needed →
        Proves database (goal :: rest) (candidate.prove forest) (equation ++ needed) := by
  cases candidate with
  | fact index fact =>
    obtain ⟨extended, unified, rfl⟩ := Option.map_eq_some_iff.mp begun
    obtain ⟨fits, finished⟩ := built.of_unify unified
    exact ⟨_, finished, fun forest needed proves => .fact (fact_mem_candidates.mp possible) fits proves⟩
  | rule index rule scope =>
    obtain ⟨extended, unified, rfl⟩ := Option.map_eq_some_iff.mp begun
    obtain ⟨fits, finished⟩ := built.of_unify unified
    refine ⟨_, finished, fun forest needed proves => ?_⟩
    obtain ⟨inner, outer, rfl, body, others⟩ := proves.split
    rw [List.length_map] at body others
    exact .rule (rule_mem_candidates.mp possible).1 fits body others

theorem Candidate.labels_prove (possible : candidate ∈ candidates database low) (once : forest.labels.Nodup)
    (later : ∀ scope : Nat, scope ∈ forest.labels → low + database.rules.length ≤ scope) :
    (candidate.prove forest).labels.Nodup ∧
      ∀ scope : Nat, scope ∈ (candidate.prove forest).labels →
        scope ∈ forest.labels ∨ low ≤ scope ∧ scope < low + database.rules.length := by
  cases candidate with
  | fact index fact => exact ⟨once, fun scope => Or.inl⟩
  | rule index rule scope =>
    obtain ⟨stored, rfl⟩ := rule_mem_candidates.mp possible
    have inside := (List.getElem?_eq_some_iff.mp stored).1
    rw [Candidate.prove, ProofForest.labels, ← ProofForest.labels_append, ProofForest.append_take_drop]
    refine ⟨List.nodup_cons.mpr ⟨fun label => ?_, once⟩, List.forall_mem_cons.mpr ⟨?_, fun scope => Or.inl⟩⟩
    · have bound := later _ label
      omega
    · exact Or.inr ⟨by omega, by omega⟩

theorem Built.scope_of_contains {candidate : ScopedAtom} {after : Partition} (built : Built history partition)
    (finished : Built (history ++ equations candidate goal) after) {name : String} {scope : Scope}
    (inside : after.contains (.var name scope) = true) :
    partition.contains (.var name scope) = true ∨ scope = candidate.scope ∨ scope = goal.scope := by
  rw [finished.represents.contains_iff, mentioned_append] at inside
  rw [built.represents.contains_iff]
  exact inside.imp_right scope_of_mentioned_equations

theorem Built.unify_of_ground_eq {candidate : ScopedAtom} {valuation : Valuation} (built : Built history partition)
    (respects : valuation.Respects partition) (fits : Matches candidate goal)
    (same : valuation.ground candidate = valuation.ground goal) :
    ∃ after, unify candidate goal partition = some after ∧
      Built (history ++ equations candidate goal) after ∧ valuation.Respects after := by
  have satisfied : valuation.Satisfies (history ++ equations candidate goal) :=
    Valuation.Satisfies.append_iff.mpr ⟨built.respects_iff.mp respects, satisfies_of_ground_eq same⟩
  obtain ⟨after, unified⟩ := built.exists_unify fits satisfied.consistent
  have finished := (built.of_unify unified).2
  exact ⟨after, unified, finished, finished.respects_iff.mpr satisfied⟩

/-- A candidate within the bound keeps the scopes of its branch within the bound. -/
theorem ScopesBelow.unify {candidate : ScopedAtom} {after : Partition} {premises : List ScopedAtom}
    (below : ScopesBelow low (goal :: rest) partition) (built : Built history partition)
    (finished : Built (history ++ equations candidate goal) after) (bound : low ≤ high) (inside : candidate.scope < high)
    (front : ∀ premise ∈ premises, premise.scope < high) : ScopesBelow high (premises ++ rest) after := by
  obtain ⟨goals, old⟩ := below.mono bound
  obtain ⟨first, later⟩ := List.forall_mem_cons.mp goals
  constructor
  · exact List.forall_mem_append.mpr ⟨front, later⟩
  · intro name scope present
    rcases built.scope_of_contains finished present with entered | same | same
    · exact old name scope entered
    · exact same ▸ inside
    · exact same ▸ first

theorem ScopesBelow.respects {valuation moved : Valuation} (below : ScopesBelow low (goal :: rest) partition)
    (built : Built history partition) (agree : AgreeOutside (Set.Ici low) valuation moved)
    (respects : valuation.Respects partition) : moved.Respects partition := by
  rw [built.respects_iff] at respects ⊢
  apply agree.satisfies respects
  intro name scope mentioned
  exact Nat.not_le_of_lt (below.partition name scope ((built.represents.contains_iff _).mpr mentioned))

/-- The candidate takes a branch and a valuation of it to a child, whose goals are left with the given assignments. -/
structure Lifts (database : Database) (low : Nat) (goal : ScopedAtom) (rest : List ScopedAtom) (partition : Partition)
    (depth : Nat) (valuation : Valuation) (candidate : Candidate) (child : Branch) (moved : Valuation)
    (left : List (Atom × (String → String))) : Prop where
  possible : candidate ∈ candidates database low
  begun : candidate.branch goal rest partition depth = some child
  below : ScopesBelow (low + database.rules.length) child.goals child.partition
  agree : AgreeOutside (Set.Ici low) valuation moved
  respects : moved.Respects child.partition
  assigned : moved.assigned child.goals = left

/-- The candidate begins the proof of a branch: what is left of the proof is one of the child's goals. -/
structure Begins (database : Database) (low : Nat) (goal : ScopedAtom) (rest : List ScopedAtom) (partition : Partition)
    (depth : Nat) (valuation : Valuation) (shape : ProofForest Unit) (candidate : Candidate) (child : Branch)
    (moved : Valuation) (inner : ProofForest Unit) : Prop where
  possible : candidate ∈ candidates database low
  begun : candidate.branch goal rest partition depth = some child
  below : ScopesBelow (low + database.rules.length) child.goals child.partition
  agree : AgreeOutside (Set.Ici low) valuation moved
  respects : moved.Respects child.partition
  solved : Solved database (moved.assigned child.goals) inner
  erased : ∀ forest : ProofForest Scope, forest.erase = inner → (candidate.prove forest).erase = shape

section
variable {valuation moved : Valuation} {shape remaining inner : ProofForest Unit} {index : Nat}
  {left : List (Atom × (String → String))}

theorem exists_lift_fact {fact : Atom} (built : Built history partition)
    (below : ScopesBelow low (goal :: rest) partition) (respects : valuation.Respects partition) (depth : Nat)
    (stored : database.facts[index]? = some fact) (apart : Apart fact goal.atom)
    (same : instantiate (valuation.within goal.scope) fact = instantiate (valuation.within goal.scope) goal.atom) :
    ∃ child, Lifts database low goal rest partition depth valuation (.fact index fact) child valuation
      (valuation.assigned rest) := by
  have equal : valuation.ground ⟨fact, goal.scope⟩ = valuation.ground goal := by
    rw [Valuation.ground_eq, Valuation.ground_eq]
    exact same
  obtain ⟨after, unified, finished, satisfied⟩ :=
    built.unify_of_ground_eq respects (Matches.of_apart apart same) equal
  have bound : low ≤ low + database.rules.length := Nat.le_add_right ..
  have inside := (below.goals goal (List.mem_cons_self ..)).trans_le bound
  refine ⟨⟨rest, after, depth⟩, fact_mem_candidates.mpr stored, ?_,
    below.unify built finished bound inside (List.forall_mem_nil _), fun _ _ _ => rfl, satisfied, rfl⟩
  rw [Candidate.branch, unified, Option.map_some]

/-- The rule's assignment goes to the scope that the search has for the rule. -/
theorem exists_lift_rule {rule : Rule} {own : String → String} (built : Built history partition)
    (below : ScopesBelow low (goal :: rest) partition) (respects : valuation.Respects partition) (depth : Nat)
    (stored : database.rules[index]? = some rule)
    (same : instantiate own rule.head = instantiate (valuation.within goal.scope) goal.atom) :
    ∃ child, Lifts database low goal rest partition depth valuation (.rule index rule (low + index)) child
      (valuation.update (low + index) own) (rule.body.map (·, own) ++ valuation.assigned rest) := by
  have inside : index < database.rules.length := (List.getElem?_eq_some_iff.mp stored).1
  have drawn : low + index < low + database.rules.length := Nat.add_lt_add_left inside low
  have goalBelow := below.goals goal (List.mem_cons_self ..)
  have different : low + index ≠ goal.scope := (Nat.lt_add_right _ goalBelow).ne'
  have moved := valuation.agree_update (low + index) own
  have agree : AgreeOutside (Set.Ici low) valuation (valuation.update (low + index) own) :=
    moved.mono (Set.singleton_subset_iff.mpr (Nat.le_add_right low index))
  have equal : (valuation.update (low + index) own).ground ⟨rule.head, low + index⟩ =
      (valuation.update (low + index) own).ground goal := by
    rw [moved.ground_eq goal different.symm, Valuation.ground_eq, Valuation.ground_eq, Valuation.within_update]
    exact same
  obtain ⟨predicate, arity⟩ := predicate_and_arity_of_instantiate_eq same
  obtain ⟨after, unified, finished, satisfied⟩ := built.unify_of_ground_eq (below.respects built agree respects)
    (Matches.of_scope_ne different predicate arity) equal
  refine ⟨⟨rule.body.map (⟨·, low + index⟩) ++ rest, after, depth + 1⟩, rule_mem_candidates.mpr ⟨stored, rfl⟩, ?_,
    below.unify built finished (Nat.le_add_right ..) drawn (List.forall_mem_map.mpr fun _ _ => drawn), agree, satisfied,
    ?_⟩
  · rw [Candidate.branch, unified, Option.map_some]
  · have others := agree.assigned_eq fun other member =>
      Nat.not_le_of_lt (below.goals other (List.mem_cons_of_mem _ member))
    rw [Valuation.assigned, List.map_append, List.map_map, ← others]
    simp only [Valuation.assigned, Function.comp_def, Valuation.within_update]

theorem Lifts.begins (lifts : Lifts database low goal rest partition depth valuation candidate child moved left)
    (solved : Solved database left inner)
    (erased : ∀ forest : ProofForest Scope, forest.erase = inner → (candidate.prove forest).erase = shape) :
    Begins database low goal rest partition depth valuation shape candidate child moved inner :=
  ⟨lifts.possible, lifts.begun, lifts.below, lifts.agree, lifts.respects, lifts.assigned.symm ▸ solved, erased⟩

theorem exists_begins_fact {fact : Atom} (built : Built history partition)
    (below : ScopesBelow low (goal :: rest) partition) (respects : valuation.Respects partition) (depth : Nat)
    (stored : database.facts[index]? = some fact) (apart : Apart fact goal.atom)
    (same : instantiate (valuation.within goal.scope) fact = instantiate (valuation.within goal.scope) goal.atom)
    (others : Solved database (valuation.assigned rest) remaining) :
    ∃ candidate child moved inner, Begins database low goal rest partition depth valuation (.fact index remaining)
      candidate child moved inner := by
  obtain ⟨child, lifts⟩ := exists_lift_fact built below respects depth stored apart same
  refine ⟨_, child, valuation, remaining, lifts.begins others ?_⟩
  intro forest left
  rw [Candidate.prove, ProofForest.erase, left]

theorem exists_begins_rule {rule : Rule} {own : String → String} {premises : ProofForest Unit}
    (built : Built history partition) (below : ScopesBelow low (goal :: rest) partition)
    (respects : valuation.Respects partition) (depth : Nat) (stored : database.rules[index]? = some rule)
    (same : instantiate own rule.head = instantiate (valuation.within goal.scope) goal.atom)
    (body : Solved database (rule.body.map (·, own)) premises)
    (others : Solved database (valuation.assigned rest) remaining) :
    ∃ candidate child moved inner, Begins database low goal rest partition depth valuation
      (.rule index () premises remaining) candidate child moved inner := by
  obtain ⟨child, lifts⟩ := exists_lift_rule built below respects depth stored same
  refine ⟨_, child, _, premises.append remaining, lifts.begins (body.append others) ?_⟩
  -- The premises' proofs are the first of the child's, one for each atom of the body.
  intro forest erased
  have size := body.size_eq
  rw [List.length_map] at size
  rw [Candidate.prove, ProofForest.erase, ProofForest.erase_take, ProofForest.erase_drop, erased, ← size,
    ProofForest.take_append, ProofForest.drop_append]

theorem exists_begins (built : Built history partition) (below : ScopesBelow low (goal :: rest) partition)
    (respects : valuation.Respects partition) (solved : Solved database (valuation.assigned (goal :: rest)) shape)
    (depth : Nat) :
    ∃ candidate child moved inner,
      Begins database low goal rest partition depth valuation shape candidate child moved inner := by
  cases solved with
  | fact stored apart same others => exact exists_begins_fact built below respects depth stored apart same others
  | rule stored own same body others => exact exists_begins_rule built below respects depth stored same body others

end

def Candidate.through (entries : List (ProofForest Scope × Partition)) (candidate : Candidate) :
    List (ProofForest Scope × Partition) :=
  entries.map fun entry => (candidate.prove entry.1, entry.2)

/-- Every candidate of an expansion has the entries of its branch, and none if it has no branch. -/
structure Tried (database : Database) (low high : Nat) (goal : ScopedAtom) (rest : List ScopedAtom)
    (partition : Partition) (depth : Nat) (group : Candidate → List (ProofForest Scope × Partition)) : Prop where
  started : ∀ candidate ∈ candidates database low, ∀ child,
    candidate.branch goal rest partition depth = some child →
      Enumerates database (low + database.rules.length) high child (group candidate)
  refused : ∀ candidate ∈ candidates database low, candidate.branch goal rest partition depth = none →
    group candidate = []

namespace Tried
variable {group : Candidate → List (ProofForest Scope × Partition)} {entry : ProofForest Scope × Partition}

theorem origin (tried : Tried database low high goal rest partition depth group)
    (member : entry ∈ (candidates database low).flatMap fun candidate => candidate.through (group candidate)) :
    ∃ candidate ∈ candidates database low, ∃ child, candidate.branch goal rest partition depth = some child ∧
      ∃ inner ∈ group candidate, entry = (candidate.prove inner.1, inner.2) := by
  obtain ⟨candidate, possible, inside⟩ := List.mem_flatMap.mp member
  obtain ⟨inner, present, rfl⟩ := List.mem_map.mp inside
  cases begun : candidate.branch goal rest partition depth with
  | none => simp [tried.refused candidate possible begun] at present
  | some child => exact ⟨candidate, possible, child, begun, inner, present, rfl⟩

theorem drawn (tried : Tried database low high goal rest partition depth group)
    (bound : low + database.rules.length ≤ high)
    (member : entry ∈ (candidates database low).flatMap fun candidate => candidate.through (group candidate)) :
    entry.1.labels.Nodup ∧ ∀ scope ∈ entry.1.labels, low ≤ scope ∧ scope < high := by
  obtain ⟨candidate, possible, child, begun, inner, present, rfl⟩ := tried.origin member
  have explored := tried.started candidate possible child begun
  obtain ⟨once, labels⟩ := candidate.labels_prove possible (explored.once inner present)
    fun scope label => (explored.drawn inner present scope label).1
  refine ⟨once, fun scope label => ?_⟩
  rcases labels scope label with later | ⟨left, right⟩
  · obtain ⟨left, right⟩ := explored.drawn inner present scope later
    exact ⟨(Nat.le_add_right _ _).trans left, right⟩
  · exact ⟨left, right.trans_le bound⟩

theorem ordered (tried : Tried database low high goal rest partition depth group) :
    ((candidates database low).flatMap fun candidate => candidate.through (group candidate)).Pairwise
      fun first second => first.1.Before second.1 := by
  -- Proofs by one candidate differ later on, proofs by two of them in their first choice.
  refine List.pairwise_flatMap.mpr ⟨fun candidate possible => ?_, (candidates_ordered database low).imp ?_⟩
  · cases begun : candidate.branch goal rest partition depth with
    | none => simp [tried.refused candidate possible begun, Candidate.through]
    | some child =>
      refine List.pairwise_map.mpr ((tried.started candidate possible child begun).ordered.imp fun before => ?_)
      simp only [ProofForest.Before, Candidate.choices_prove]
      exact .cons before
  · intro first second before left fromFirst right fromSecond
    obtain ⟨_, _, rfl⟩ := List.mem_map.mp fromFirst
    obtain ⟨_, _, rfl⟩ := List.mem_map.mp fromSecond
    simp only [ProofForest.Before, Candidate.choices_prove]
    exact .rel before

theorem enumerates (tried : Tried database low high goal rest partition depth group)
    (bound : low + database.rules.length ≤ high) :
    Enumerates database low high ⟨goal :: rest, partition, depth⟩
      ((candidates database low).flatMap fun candidate => candidate.through (group candidate)) where
  sound history built entry member := by
    obtain ⟨candidate, possible, child, begun, inner, present, rfl⟩ := tried.origin member
    obtain ⟨equation, extended, proves⟩ := candidate.sound possible begun built
    obtain ⟨needed, proved, finished⟩ :=
      (tried.started candidate possible child begun).sound _ extended inner present
    exact ⟨equation ++ needed, proves _ _ proved, by simpa only [List.append_assoc] using finished⟩
  once entry member := (tried.drawn bound member).1
  drawn entry member := (tried.drawn bound member).2
  ordered := tried.ordered
  complete history built below valuation respects shape solved := by
    obtain ⟨candidate, child, moved, inner, begins⟩ := exists_begins built below respects solved depth
    obtain ⟨equation, extended, _⟩ := candidate.sound begins.possible begins.begun built
    obtain ⟨entry, member, erased, final, last, satisfied⟩ := (tried.started candidate begins.possible child
      begins.begun).complete _ extended begins.below moved begins.respects inner begins.solved
    refine ⟨(candidate.prove entry.1, entry.2), ?_, begins.erased _ erased, final, ?_, satisfied⟩
    · exact List.mem_flatMap.mpr ⟨candidate, begins.possible, List.mem_map.mpr ⟨entry, member, rfl⟩⟩
    · exact begins.agree.trans last (Set.Ici_subset_Ici.mpr (Nat.le_add_right _ _))

end Tried

theorem Enumerates.expansion {groups : List (List (ProofForest Scope × Partition))}
    (bound : low + database.rules.length ≤ high)
    (all : List.Forall₂ (Enumerates database (low + database.rules.length) high)
      ((candidates database low).filterMap (Candidate.branch goal rest partition depth)) groups) :
    ∃ entries, entries.map Prod.snd = groups.flatten.map Prod.snd ∧
      Enumerates database low high ⟨goal :: rest, partition, depth⟩ entries := by
  have distinct : (candidates database low).Nodup := by
    refine (candidates_ordered database low).imp ?_
    rintro first second before rfl
    exact Choice.before_irrefl _ before
  obtain ⟨group, joined, valid⟩ := assign_to_candidates distinct all
  have tried : Tried database low high goal rest partition depth group :=
    ⟨fun candidate possible => (valid candidate possible).1, fun candidate possible => (valid candidate possible).2⟩
  refine ⟨_, ?_, tried.enumerates bound⟩
  rw [joined, List.map_flatMap, List.map_flatMap]
  simp [Candidate.through, Function.comp_def]

end

/-! ### Whole explorations -/

theorem Explores.enumerates {search after : Search} {pending : List Branch} {found : List Partition}
    (explored : Explores search pending found after) :
    after.database = search.database ∧ search.supply.next ≤ after.supply.next ∧
      ∃ groups, List.Forall₂ (Enumerates search.database search.supply.next after.supply.next) pending groups ∧
        found = groups.flatten.map Prod.snd := by
  induction explored with
  | done search => exact ⟨rfl, Nat.le_refl _, [], .nil, rfl⟩
  | @solution search after partition depth pending found _ ih =>
    obtain ⟨same, bound, groups, all, rfl⟩ := ih
    exact ⟨same, bound, [(.done, partition)] :: groups, .cons (Enumerates.solution ..) all, rfl⟩
  | @expansion search counted middle after goal rest partition depth pending inner found allowed _ _
      childrenIh othersIh =>
    obtain ⟨database, supply⟩ := enter_keeps allowed
    obtain ⟨sameInner, boundInner, innerGroups, children, rfl⟩ := childrenIh
    obtain ⟨sameOuter, boundOuter, outerGroups, others, rfl⟩ := othersIh
    rw [expand_next, database, supply] at boundInner
    rw [expand_database, database] at sameInner
    rw [expand_eq_candidates, expand_database, expand_next, database, supply] at children
    obtain ⟨entries, joined, valid⟩ := Enumerates.expansion boundInner children
    refine ⟨sameOuter.trans sameInner, ?_, entries :: outerGroups, .cons ?_ ?_, ?_⟩
    · exact ((Nat.le_add_right _ _).trans boundInner).trans boundOuter
    · exact valid.widen (Nat.le_refl _) boundOuter
    · -- The other branches draw their scopes where those of the children end.
      rw [sameInner] at others
      exact others.imp fun branch entries valid => valid.widen ((Nat.le_add_right _ _).trans boundInner) (Nat.le_refl _)
    · rw [List.flatten_cons, List.map_append, joined]

/-- The result of a run is the list of partitions of its proofs. -/
theorem exists_enumerates_of_run {search after : Search} {fuel : Nat} {goals : List ScopedAtom} {start : Partition}
    {found : List Partition} (ran : search.run fuel goals start = some ⟨.ok found, after⟩) :
    ∃ entries, found = entries.map Prod.snd ∧
      Enumerates search.database search.supply.next after.supply.next ⟨goals, start, 0⟩ entries := by
  obtain ⟨_, _, groups, all, rfl⟩ := (Explores.of_run ran).enumerates
  obtain ⟨entries, others, valid, none, rfl⟩ := List.forall₂_cons_left_iff.mp all
  obtain rfl := List.forall₂_nil_left_iff.mp none
  exact ⟨entries, by simp, valid⟩

end Backchain.Proofs
