import Backchain.Search.Basic

/-! Runs of a search. A run keeps its pending branches in the order in which they are to be explored, and moves
on in steps: each takes the first branch and puts the branches it leads to in its place. -/

namespace Backchain

/-- What a run ends with. The search is handed back in either case, with all it has counted. -/
structure Outcome (σ : Type := ScopeSupply) where
  result : Except LimitError (List Partition)
  search : Search σ

structure Run (σ : Type := ScopeSupply) where
  search : Search σ
  pending : List Branch
  /-- The solutions so far, the latest first. -/
  found : List Partition := []

inductive Progress (σ : Type := ScopeSupply) where
  | running (run : Run σ)
  | ended (outcome : Outcome σ)

variable {σ : Type} [ScopeSource σ]

def Run.step (run : Run σ) : Progress σ :=
  match run.pending with
  | [] => .ended ⟨.ok run.found.reverse, run.search⟩
  | ⟨[], partition, _⟩ :: pending => .running ⟨run.search.countSolution, pending, partition :: run.found⟩
  | ⟨goal :: rest, partition, depth⟩ :: pending =>
    match run.search.enter depth with
    | (some error, search) => .ended ⟨.error error, search⟩
    | (none, search) =>
      let (children, search) := search.expand goal rest partition depth
      .running ⟨search, children ++ pending, run.found⟩

/-- Steps until the run ends. A search over recursive rules may never end, so there is nothing to return when
`fuel` steps were not enough. -/
def Run.finish : (fuel : Nat) → Run σ → Option (Outcome σ)
  | 0, _ => none
  | fuel + 1, run =>
    match run.step with
    | .ended outcome => some outcome
    | .running next => next.finish fuel

theorem Run.finish_of_le {run : Run σ} {outcome : Outcome σ} {fuel more : Nat}
    (ended : run.finish fuel = some outcome) (enough : fuel ≤ more) : run.finish more = some outcome := by
  induction fuel generalizing run more with
  | zero => simp [Run.finish] at ended
  | succ fuel ih =>
    obtain ⟨more, rfl⟩ := Nat.exists_eq_add_one_of_ne_zero (show more ≠ 0 by omega)
    unfold Run.finish at ended ⊢
    cases stepped : run.step with
    | ended final => simpa only [stepped] using ended
    | running next =>
      simp only [stepped] at ended ⊢
      exact ih ended (Nat.le_of_succ_le_succ enough)

def Search.start (search : Search σ) (goals : List ScopedAtom) (partition : Partition) : Run σ :=
  { search, pending := [⟨goals, partition, 0⟩] }

/-- All partitions that extend the given one and satisfy the goals, one for each proof, in depth-first order. -/
def Search.run (fuel : Nat) (search : Search σ) (goals : List ScopedAtom) (partition : Partition) :
    Option (Outcome σ) :=
  (search.start goals partition).finish fuel

end Backchain
