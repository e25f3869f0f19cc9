import Backchain.Proofs.SearchCounters

/-! Searches on a counter of 64 bits. Until the counter starts over, it hands out the scopes that a supply without an end
hands out, and no run can tell the two apart. -/

namespace Backchain

def ScopeSupply.counter (supply : ScopeSupply) : ScopeCounter := ⟨.ofNat supply.next⟩

def Search.onCounter (search : Search) : Search ScopeCounter :=
  ⟨search.database, search.limits, search.supply.counter, search.stats⟩

def Run.onCounter (run : Run) : Run ScopeCounter := ⟨run.search.onCounter, run.pending, run.found⟩

def Outcome.onCounter (outcome : Outcome) : Outcome ScopeCounter := ⟨outcome.result, outcome.search.onCounter⟩

namespace Proofs

variable {search : Search} {run next : Run} {outcome : Outcome} {fuel : Nat}

theorem fresh_counter {supply : ScopeSupply} (inside : supply.next < UInt64.size) :
    ScopeSource.fresh supply.counter = (supply.fresh.1, supply.fresh.2.counter) := by
  simp [ScopeSource.fresh, ScopeCounter.fresh, ScopeSupply.fresh, ScopeSupply.counter, UInt64.toNat_ofNat_of_lt' inside]

theorem draw_counter {supply : ScopeSupply} {count : Nat} (inside : supply.next + count ≤ UInt64.size) :
    ScopeSource.draw count supply.counter =
      ((ScopeSource.draw count supply).1, (ScopeSource.draw count supply).2.counter) := by
  induction count generalizing supply with
  | zero => rfl
  | succ count ih =>
    have first := fresh_counter (Nat.lt_of_lt_of_le (Nat.lt_add_of_pos_right (Nat.succ_pos count)) inside)
    have others : supply.fresh.2.next + count ≤ UInt64.size := by
      rwa [ScopeSupply.fresh, Nat.add_assoc, Nat.add_comm 1]
    simp only [ScopeSource.draw, first, ih others]
    rfl

/-! ### Runs -/

theorem expand_onCounter (inside : search.supply.next + search.database.rules.length ≤ UInt64.size)
    (goal : ScopedAtom) (rest : List ScopedAtom) (partition : Partition) (depth : Nat) :
    search.onCounter.expand goal rest partition depth =
      ((search.expand goal rest partition depth).1, (search.expand goal rest partition depth).2.onCounter) := by
  simp only [Search.expand, Search.onCounter, draw_counter inside]

theorem Steps.next_le (steps : Steps run next) : run.search.supply.next ≤ next.search.supply.next :=
  steps.counts.2.1 ▸ Nat.le_add_right ..

theorem Steps.onCounter (steps : Steps run next) (inside : next.search.supply.next ≤ UInt64.size) :
    run.onCounter.step = .running next.onCounter := by
  cases steps with
  | solution => rfl
  | @expansion search goal rest partition depth pending found allowed =>
    rw [expand_next] at inside
    have allowedThere : ∀ error, ¬ Breaks search.limits depth (search.onCounter.stats.steps + 1) error := allowed
    have entered : search.onCounter.enter depth = (none, (countStep search depth).onCounter) := enter_allowed allowedThere
    simp only [Run.step, Run.onCounter, entered, expand_onCounter inside]

theorem Stops.onCounter (stops : Stops run outcome) : run.onCounter.step = .ended outcome.onCounter := by
  cases stops with
  | explored => rfl
  | @stopped search _ _ _ depth _ _ error breaks =>
    have breaksThere : Breaks search.limits depth (search.onCounter.stats.steps + 1) error := breaks
    have entered : search.onCounter.enter depth = (some error, (stoppedAt search error).onCounter) := by
      refine (enter_breaks breaksThere).trans ?_
      cases error <;> rfl
    simp only [Run.step, Run.onCounter, entered]
    rfl

theorem finish_onCounter (ended : run.finish fuel = some outcome) :
    run.search.supply.next ≤ outcome.search.supply.next ∧
      (outcome.search.supply.next ≤ UInt64.size → run.onCounter.finish fuel = some outcome.onCounter) := by
  refine finish_induction (motive := fun fuel run outcome => run.search.supply.next ≤ outcome.search.supply.next ∧
    (outcome.search.supply.next ≤ UInt64.size → run.onCounter.finish fuel = some outcome.onCounter)) ?_ ?_ ended
  · intro fuel run outcome _ stops
    refine ⟨(counted_of_stops stops).scopes ▸ Nat.le_add_right .., fun _ => ?_⟩
    rw [Run.finish, stops.onCounter]
  · intro fuel run next outcome _ steps ⟨advanced, later⟩
    refine ⟨steps.next_le.trans advanced, fun inside => ?_⟩
    rw [Run.finish, steps.onCounter (advanced.trans inside)]
    exact later inside

/-- A run that draws no scope beyond the last ends on the counter as it does on the supply, and in as many steps. -/
theorem run_onCounter {goals : List ScopedAtom} {start : Partition}
    (ran : search.run fuel goals start = some outcome) (inside : outcome.search.supply.next ≤ UInt64.size) :
    search.onCounter.run fuel goals start = some outcome.onCounter :=
  (finish_onCounter ran).2 inside

/-- What there is passes. The first rule is about something else, and takes a scope all the same. -/
def passing : Search where
  database := {
    facts := [⟨"there", [⟨"ann"⟩]⟩]
    rules := [⟨⟨"waits", [⟨"Y"⟩]⟩, [⟨"there", [⟨"Y"⟩]⟩]⟩, ⟨⟨"passes", [⟨"X"⟩]⟩, [⟨"there", [⟨"X"⟩]⟩]⟩] }
  limits := {}
  supply := ⟨UInt64.size - 1⟩

/-- Beyond the last scope the two differ. The counter gives the second rule the scope of the goal and with it the goal's
own variable, which the goal does not unify with. -/
example : (passing.run 9 [⟨⟨"passes", [⟨"X"⟩]⟩, 0⟩] Partition.empty).map (·.result.map List.length) = some (.ok 1) ∧
    (passing.onCounter.run 9 [⟨⟨"passes", [⟨"X"⟩]⟩, 0⟩] Partition.empty).map (·.result.map List.length) =
      some (.ok 0) := by
  constructor <;> cbv

end Proofs
end Backchain
