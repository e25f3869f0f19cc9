import Backchain.Search.Run

/-! A run that ends well, seen as the tree it has explored. Every branch leads to the solutions of its children
before the next branch is begun, whatever else is pending. -/

namespace Backchain.Proofs

variable {σ : Type} [ScopeSource σ]

/-- The branches are explored one after the other. The search is counted on through all of them. -/
inductive Explores : Search σ → List Branch → List Partition → Search σ → Prop where
  | done (search : Search σ) : Explores search [] [] search
  | solution {search after : Search σ} {partition : Partition} {depth : Nat} {pending : List Branch}
      {found : List Partition} (others : Explores search.countSolution pending found after) :
      Explores search (⟨[], partition, depth⟩ :: pending) (partition :: found) after
  | expansion {search counted middle after : Search σ} {goal : ScopedAtom} {rest : List ScopedAtom}
      {partition : Partition} {depth : Nat} {pending : List Branch} {inner found : List Partition}
      (allowed : search.enter depth = (none, counted))
      (children : Explores (counted.expand goal rest partition depth).2
        (counted.expand goal rest partition depth).1 inner middle)
      (others : Explores middle pending found after) :
      Explores search (⟨goal :: rest, partition, depth⟩ :: pending) (inner ++ found) after

theorem Explores.split {search after : Search σ} {first second : List Branch} {found : List Partition}
    (explored : Explores search (first ++ second) found after) :
    ∃ inner middle outer, found = inner ++ outer ∧ Explores search first inner middle ∧
      Explores middle second outer after := by
  generalize joined : first ++ second = pending at explored
  induction explored generalizing first with
  | done search =>
    obtain ⟨rfl, rfl⟩ := List.append_eq_nil_iff.mp joined
    exact ⟨[], search, [], rfl, .done search, .done search⟩
  | @solution search after partition depth pending found others ih =>
    cases first with
    | nil =>
      obtain rfl := joined
      exact ⟨[], search, _, rfl, .done search, .solution others⟩
    | cons branch first =>
      obtain ⟨rfl, rfl⟩ := List.cons.inj joined
      obtain ⟨inner, middle, outer, rfl, left, right⟩ := ih rfl
      exact ⟨partition :: inner, middle, outer, rfl, .solution left, right⟩
  | @expansion search counted entered after goal rest partition depth pending inner found allowed children others
      _ ih =>
    cases first with
    | nil =>
      obtain rfl := joined
      exact ⟨[], search, _, rfl, .done search, .expansion allowed children others⟩
    | cons branch first =>
      obtain ⟨rfl, rfl⟩ := List.cons.inj joined
      obtain ⟨tail, middle, outer, rfl, left, right⟩ := ih rfl
      exact ⟨inner ++ tail, middle, outer, (List.append_assoc ..).symm, .expansion allowed children left, right⟩

/-- The branches that a step puts in front are explored before those that were pending. -/
theorem Explores.of_finish {run : Run σ} {fuel : Nat} {result : List Partition} {after : Search σ}
    (ended : run.finish fuel = some ⟨.ok result, after⟩) :
    ∃ found, result = run.found.reverse ++ found ∧ Explores run.search run.pending found after := by
  induction fuel generalizing run with
  | zero => cases ended
  | succ fuel ih =>
    obtain ⟨search, pending, found⟩ := run
    rw [Run.finish] at ended
    cases pending with
    | nil =>
      cases ended
      exact ⟨[], (List.append_nil _).symm, .done search⟩
    | cons branch pending =>
      obtain ⟨goals, partition, depth⟩ := branch
      cases goals with
      | nil =>
        obtain ⟨more, rfl, explored⟩ := ih ended
        exact ⟨partition :: more, by simp, .solution explored⟩
      | cons goal rest =>
        cases entered : search.enter depth with
        | mk error counted =>
          cases error with
          | some error =>
            simp only [Run.step, entered] at ended
            cases ended
          | none =>
            simp only [Run.step, entered] at ended
            obtain ⟨more, rfl, explored⟩ := ih ended
            obtain ⟨inner, middle, outer, rfl, children, others⟩ := explored.split
            exact ⟨inner ++ outer, rfl, .expansion entered children others⟩

theorem Explores.of_run {search after : Search σ} {fuel : Nat} {goals : List ScopedAtom} {start : Partition}
    {found : List Partition} (ran : search.run fuel goals start = some ⟨.ok found, after⟩) :
    Explores search [⟨goals, start, 0⟩] found after := by
  obtain ⟨_, rfl, explored⟩ := Explores.of_finish ran
  exact explored

omit [ScopeSource σ] in
theorem exists_found {α : Type} {outcome : Option (Outcome σ)} {read : List Partition → α} {value : α}
    (evaluated : outcome.map (fun outcome => outcome.result.map read) = some (.ok value)) :
    ∃ found after, outcome = some ⟨.ok found, after⟩ ∧ read found = value := by
  obtain ⟨ended, same, mapped⟩ := Option.map_eq_some_iff.mp evaluated
  obtain ⟨result, after⟩ := ended
  cases result with
  | error error => cases mapped
  | ok found =>
    cases mapped
    exact ⟨found, after, same, rfl⟩

/-! ### What a step leaves alone -/

omit [ScopeSource σ] in
theorem enter_keeps {search counted : Search σ} {depth : Nat} {error : Option LimitError}
    (entered : search.enter depth = (error, counted)) :
    counted.database = search.database ∧ counted.supply = search.supply := by
  rw [Search.enter] at entered
  split at entered
  · cases entered
    exact ⟨rfl, rfl⟩
  · dsimp only at entered
    split at entered <;> cases entered <;> exact ⟨rfl, rfl⟩

@[simp] theorem expand_database (search : Search σ) (goal : ScopedAtom) (rest : List ScopedAtom)
    (partition : Partition) (depth : Nat) : (search.expand goal rest partition depth).2.database = search.database :=
  rfl

@[simp] theorem expand_next (search : Search) (goal : ScopedAtom) (rest : List ScopedAtom)
    (partition : Partition) (depth : Nat) : (search.expand goal rest partition depth).2.supply.next =
      search.supply.next + search.database.rules.length := by
  rw [Search.expand, ScopeSupply.draw_eq]

theorem Explores.database_eq {search after : Search σ} {pending : List Branch} {found : List Partition}
    (explored : Explores search pending found after) : after.database = search.database := by
  induction explored with
  | done => rfl
  | solution _ ih => exact ih
  | expansion allowed _ _ childrenIh ih => exact (ih.trans childrenIh).trans (enter_keeps allowed).1

theorem Explores.limits_eq {search after : Search σ} {pending : List Branch} {found : List Partition}
    (explored : Explores search pending found after) : after.limits = search.limits := by
  induction explored with
  | done => rfl
  | solution _ ih => exact ih
  | @expansion search counted _ _ _ _ _ depth _ _ _ allowed _ _ childrenIh ih =>
    have kept : counted.limits = search.limits := by
      rw [Search.enter] at allowed
      split at allowed
      · cases allowed
      · dsimp only at allowed
        split at allowed <;> cases allowed
        rfl
    exact (ih.trans childrenIh).trans kept

/-! ### What a step leads to -/

/-- The branches that the expansion of a branch can lead to, with any scope for a rule. -/
inductive Child (database : Database) : Branch → Branch → Prop where
  | fact {fact : Atom} {goal : ScopedAtom} {rest : List ScopedAtom} {partition extended : Partition} {depth : Nat}
      (stored : fact ∈ database.facts) (unified : unify ⟨fact, goal.scope⟩ goal partition = some extended) :
      Child database ⟨rest, extended, depth⟩ ⟨goal :: rest, partition, depth⟩
  | rule {rule : Rule} {scope : Scope} {goal : ScopedAtom} {rest : List ScopedAtom} {partition extended : Partition}
      {depth : Nat} (stored : rule ∈ database.rules) (unified : unify ⟨rule.head, scope⟩ goal partition = some extended) :
      Child database ⟨rule.body.map (⟨·, scope⟩) ++ rest, extended, depth + 1⟩ ⟨goal :: rest, partition, depth⟩

theorem child_of_mem_expand {search : Search σ} {goal : ScopedAtom} {rest : List ScopedAtom} {partition : Partition}
    {depth : Nat} {child : Branch} (member : child ∈ (search.expand goal rest partition depth).1) :
    Child search.database child ⟨goal :: rest, partition, depth⟩ := by
  rcases List.mem_append.mp member with byFact | byRule
  · obtain ⟨fact, stored, begun⟩ := List.mem_filterMap.mp byFact
    obtain ⟨extended, unified, rfl⟩ := Option.map_eq_some_iff.mp begun
    exact .fact stored unified
  · obtain ⟨⟨rule, scope⟩, drawn, begun⟩ := List.mem_filterMap.mp byRule
    obtain ⟨⟨premises, extended⟩, applied, rfl⟩ := Option.map_eq_some_iff.mp begun
    obtain ⟨after, unified, same⟩ := Option.map_eq_some_iff.mp applied
    cases same
    exact .rule (List.of_mem_zip drawn).1 unified

end Backchain.Proofs
