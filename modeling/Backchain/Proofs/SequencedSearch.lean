import Backchain.Proofs.SearchLimits
import Backchain.Proofs.SearchMirroring

/-! Goals proved together and goals proved one list after the other. A search for two lists of goals does what a search
for the first list does, and from every solution of it what a search for the second list does from there. -/

namespace Backchain.Proofs

/-- The run ends, with these partitions and after so many steps. -/
def Returns (search : Search) (goals : List ScopedAtom) (start : Partition) (run : List Partition × Nat) : Prop :=
  ∃ fuel after, search.run fuel goals start = some ⟨.ok run.1, after⟩ ∧ after.stats.steps = search.stats.steps + run.2

section
variable {database : Database} {bound : Scope} {search : Search} {goals later : List ScopedAtom}
  {start solution : Partition} {history : List (Key × Key)} {found : List Partition} {run : List Partition × Nat}
  {fuel : Nat} {after : Search}

theorem Returns.of_run (ran : search.run fuel goals start = some ⟨.ok found, after⟩) :
    ∃ steps, Returns search goals start (found, steps) := by
  obtain ⟨steps, spent⟩ := Nat.exists_eq_add_of_le (Explores.of_run ran).steps_le
  exact ⟨steps, fuel, after, ran, spent⟩

theorem Unlimited.exists_returns (unlimited : Unlimited database bound search) {outcome : Outcome}
    (ran : search.run fuel goals start = some outcome) : ∃ run, Returns search goals start run := by
  obtain ⟨found, after, rfl⟩ := exists_found_of_unbounded unlimited.limits ran
  obtain ⟨steps, returns⟩ := Returns.of_run ran
  exact ⟨_, returns⟩

theorem exists_built_of_run (ran : search.run fuel goals start = some ⟨.ok found, after⟩) (built : Built history start)
    (member : solution ∈ found) :
    ∃ forest needed, Proves search.database goals forest needed ∧ Built (history ++ needed) solution := by
  obtain ⟨entries, rfl, valid⟩ := exists_enumerates_of_run ran
  obtain ⟨entry, inside, rfl⟩ := List.mem_map.mp member
  exact ⟨entry.1, valid.sound history built entry inside⟩

/-- The scopes of a solution have all been handed out when the run ends. -/
theorem scope_lt_of_run (ran : search.run fuel goals start = some ⟨.ok found, after⟩) (built : Built history start)
    (below : ScopesBelow search.supply.next goals start) (member : solution ∈ found) {name : String} {scope : Scope}
    (inside : solution.contains (.var name scope) = true) : scope < after.supply.next := by
  obtain ⟨_, bound, _⟩ := (Explores.of_run ran).enumerates
  obtain ⟨entries, rfl, valid⟩ := exists_enumerates_of_run ran
  obtain ⟨entry, present, rfl⟩ := List.mem_map.mp member
  obtain ⟨needed, proves, finished⟩ := valid.sound history built entry present
  rw [finished.represents.contains_iff, mentioned_append, ← built.represents.contains_iff] at inside
  rcases inside with old | new
  · exact (below.partition name scope old).trans_le bound
  · rcases proves.scope_of_mentioned new with label | ⟨goal, known, rfl⟩
    · exact (valid.drawn entry present scope label).2
    · exact (below.goals goal known).trans_le bound

/-- A run of its own says what comes after a solution, in whatever scopes. -/
theorem Completes.of_returns (returns : Returns search later solution run) (unlimited : Unlimited database bound search)
    (old : ∀ goal ∈ later, goal.scope < bound) (built : Built history solution)
    (below : ScopesBelow search.supply.next later solution) : Completes database bound later solution run := by
  rintro target ⟨copied, _, depth'⟩ depth another ⟨exchange, fixed, same, rfl⟩ freshCopy
  obtain rfl : later = copied := same.symm
  obtain ⟨fuel, after, ran, spent⟩ := returns
  have mirrored : Mirrors bound [] ⟨later, solution, 0⟩ ⟨later, solution.renameKeys (.ofPerm exchange), depth'⟩ :=
    ⟨exchange, fixed, by rw [fixed.map_mapScope old, List.append_nil], rfl⟩
  have ends : List.Forall₂ (Completes database bound []) run.1 (run.1.map fun solution => ([solution], 0)) :=
    List.forall₂_map_right_iff.mpr (List.forall₂_same.mpr fun solution _ => .nil database bound solution)
  obtain ⟨reached, last, explored, paired, total⟩ := (Explores.of_run ran).mirror ⟨unlimited, another,
    .cons mirrored .nil, List.forall_mem_singleton.mpr ⟨⟨_, built⟩, below⟩, List.forall_mem_singleton.mpr freshCopy⟩ ends
  refine ⟨reached, last, explored, ?_, ?_⟩
  · simpa [List.flatMap_map] using paired
  · simp only [List.map_map, Function.comp_def, List.map_const', List.sum_replicate_nat] at total
    omega

end

section
variable {database : Database} {bound : Scope} {joint first : Search} {second : Nat → Search}
  {goals later : List ScopedAtom} {history : List (Key × Key)} {start : Partition} {between : List Partition}
  {spent : Nat} {runs : List (List Partition × Nat)} {fuel : Nat} {outcome : Outcome}

theorem Returns.append (returns : Returns first goals start (between, spent))
    (each : List.Forall₂ (fun entry run => Returns (second entry.2) later entry.1 run) between.zipIdx runs)
    (built : Built history start) (below : ScopesBelow bound (goals ++ later) start)
    (whole : Unlimited database bound joint) (front : Unlimited database bound first)
    (back : ∀ index, Unlimited database bound (second index))
    (fresh : ∀ entry ∈ between.zipIdx, ScopesBelow (second entry.2).supply.next later entry.1) :
    ∃ found, Returns joint (goals ++ later) start (found, spent + (runs.map Prod.snd).sum) ∧
      List.Forall₂ (RenamedBelow bound) (runs.flatMap Prod.fst) found := by
  obtain ⟨fuel, after, ran, counted⟩ := returns
  have completes : List.Forall₂ (Completes database bound later) between runs := by
    rw [← List.zipIdx_map_fst 0 between, List.forall₂_map_left_iff]
    refine ((List.forall₂_and_left _ _).mpr ⟨fun entry => id, each⟩).imp fun entry run ⟨member, returns⟩ => ?_
    obtain ⟨_, needed, _, finished⟩ := exists_built_of_run ran built (List.fst_mem_of_mem_zipIdx member)
    exact .of_returns returns (back entry.2) (List.forall_mem_append.mp below.goals).2 finished (fresh entry member)
  -- The joint run explores a copy of the first run's branch, in which no scope has been exchanged yet.
  have alone : ScopesBelow bound goals start := ⟨(List.forall_mem_append.mp below.goals).1, below.partition⟩
  have unchanged : FixesBelow bound (Equiv.refl Scope) := fun _ _ => rfl
  have mirrored : Mirrors bound later ⟨goals, start, 0⟩ ⟨goals ++ later, start, 0⟩ :=
    ⟨_, unchanged, by rw [unchanged.map_mapScope alone.goals], (Partition.renameKeys_ofPerm_refl start).symm⟩
  obtain ⟨found, last, explored, paired, total⟩ := (Explores.of_run ran).mirror ⟨front, whole, .cons mirrored .nil,
    List.forall_mem_singleton.mpr ⟨⟨_, built⟩, alone.mono front.above⟩,
    List.forall_mem_singleton.mpr ⟨⟨_, built⟩, below.mono whole.above⟩⟩ completes
  obtain ⟨more, joined⟩ := explored.exists_run
  refine ⟨found, ⟨more, last, joined, ?_⟩, paired⟩
  dsimp only at counted ⊢
  omega

/-- What is possible for the first goals is possible for all of them. -/
theorem Unlimited.exists_first (ran : joint.run fuel (goals ++ later) start = some outcome)
    (built : Built history start) (below : ScopesBelow bound (goals ++ later) start)
    (whole : Unlimited database bound joint) (front : Unlimited database bound first) :
    ∃ fuel between after, first.run fuel goals start = some ⟨.ok between, after⟩ := by
  obtain ⟨found, after, rfl⟩ := exists_found_of_unbounded whole.limits ran
  have bounded (valuation : Valuation) (respects : valuation.Respects start) (count : Nat)
      (possible : Resolvable first.database count (valuation.assigned goals)) : count < after.stats.steps + 1 := by
    have longer := possible.append (valuation.assigned later)
    rw [← Valuation.assigned_append, front.database, ← whole.database] at longer
    exact resolvable_lt_of_run ran built (below.mono whole.above) respects longer
  exact exists_run_of_resolvable_lt front.limits built bounded

/-- What is possible for the other goals after a solution is possible once the first goals are proved as they were
for the solution. -/
theorem Unlimited.exists_second {search : Search} {solution : Partition} {after : Search} {more : Nat}
    (ran : joint.run fuel (goals ++ later) start = some outcome)
    (led : first.run more goals start = some ⟨.ok between, after⟩) (member : solution ∈ between)
    (built : Built history start) (below : ScopesBelow bound (goals ++ later) start)
    (whole : Unlimited database bound joint) (front : Unlimited database bound first)
    (unlimited : Unlimited database bound search) :
    ∃ fuel found after, search.run fuel later solution = some ⟨.ok found, after⟩ := by
  obtain ⟨found, last, rfl⟩ := exists_found_of_unbounded whole.limits ran
  obtain ⟨forest, needed, proves, finished⟩ := exists_built_of_run led built member
  have bounded (valuation : Valuation) (respects : valuation.Respects solution) (count : Nat)
      (possible : Resolvable search.database count (valuation.assigned later)) : count < last.stats.steps + 1 := by
    obtain ⟨old, new⟩ := Valuation.Satisfies.append_iff.mp (finished.respects_iff.mp respects)
    rw [unlimited.database, ← front.database] at possible
    obtain ⟨total, enough, longer⟩ := (proves.solved new).exists_resolvable possible
    rw [← Valuation.assigned_append, front.database, ← whole.database] at longer
    have bound := resolvable_lt_of_run ran built (below.mono whole.above) (built.respects_iff.mpr old) longer
    omega
  exact exists_run_of_resolvable_lt unlimited.limits finished bounded

theorem exists_runs_of_each (back : ∀ index, Unlimited database bound (second index))
    (each : ∀ entry ∈ between.zipIdx, ∃ fuel outcome, (second entry.2).run fuel later entry.1 = some outcome) :
    ∃ runs, List.Forall₂ (fun entry run => Returns (second entry.2) later entry.1 run) between.zipIdx runs := by
  have returned : ∀ entry ∈ between.zipIdx, ∃ run, Returns (second entry.2) later entry.1 run := by
    intro entry member
    obtain ⟨fuel, outcome, ran⟩ := each entry member
    exact (back entry.2).exists_returns ran
  choose! run returns using returned
  exact ⟨between.zipIdx.map run, List.forall₂_map_right_iff.mpr (List.forall₂_same.mpr returns)⟩

/-- A search without limits for two lists of goals ends exactly if the search for the first list ends, and from each of
its solutions the search for the second list. It then finds what these find, one after the other, but for the scopes
of the rules, and takes as many steps as all of them. -/
theorem run_append (joint first : Search) (second : Nat → Search) (built : Built history start)
    (below : ScopesBelow bound (goals ++ later) start) (whole : Unlimited database bound joint)
    (front : Unlimited database bound first) (back : ∀ index, Unlimited database bound (second index))
    (fresh : ∀ fuel between after, first.run fuel goals start = some ⟨.ok between, after⟩ →
      ∀ entry ∈ between.zipIdx, ScopesBelow (second entry.2).supply.next later entry.1) :
    ((∃ fuel outcome, joint.run fuel (goals ++ later) start = some outcome) ↔
      ∃ fuel between after, first.run fuel goals start = some ⟨.ok between, after⟩ ∧
        ∀ entry ∈ between.zipIdx, ∃ fuel outcome, (second entry.2).run fuel later entry.1 = some outcome) ∧
    ∀ fuel outcome, joint.run fuel (goals ++ later) start = some outcome →
      ∃ found last between spent runs, outcome = ⟨.ok found, last⟩ ∧ Returns first goals start (between, spent) ∧
        List.Forall₂ (fun entry run => Returns (second entry.2) later entry.1 run) between.zipIdx runs ∧
        List.Forall₂ (RenamedBelow bound) (runs.flatMap Prod.fst) found ∧
        last.stats.steps = joint.stats.steps + (spent + (runs.map Prod.snd).sum) := by
  have separate {fuel : Nat} {outcome : Outcome} (ran : joint.run fuel (goals ++ later) start = some outcome) :
      ∃ fuel between after, first.run fuel goals start = some ⟨.ok between, after⟩ ∧
        ∀ entry ∈ between.zipIdx, ∃ fuel outcome, (second entry.2).run fuel later entry.1 = some outcome := by
    obtain ⟨more, between, after, led⟩ := whole.exists_first ran built below front
    refine ⟨more, between, after, led, fun entry member => ?_⟩
    obtain ⟨fuel, found, last, ended⟩ := Unlimited.exists_second ran led (List.fst_mem_of_mem_zipIdx member) built below
      whole front (back entry.2)
    exact ⟨fuel, _, ended⟩
  have together {fuel : Nat} {between : List Partition} {after : Search}
      (led : first.run fuel goals start = some ⟨.ok between, after⟩)
      (each : ∀ entry ∈ between.zipIdx, ∃ fuel outcome, (second entry.2).run fuel later entry.1 = some outcome) :
      ∃ spent runs found, Returns first goals start (between, spent) ∧
        List.Forall₂ (fun entry run => Returns (second entry.2) later entry.1 run) between.zipIdx runs ∧
        Returns joint (goals ++ later) start (found, spent + (runs.map Prod.snd).sum) ∧
        List.Forall₂ (RenamedBelow bound) (runs.flatMap Prod.fst) found := by
    obtain ⟨spent, returns⟩ := Returns.of_run led
    obtain ⟨runs, ended⟩ := exists_runs_of_each back each
    obtain ⟨found, joined⟩ := returns.append ended built below whole front back (fresh _ _ _ led)
    exact ⟨spent, runs, found, returns, ended, joined⟩
  constructor
  · refine ⟨fun ⟨fuel, outcome, ran⟩ => separate ran, fun ⟨fuel, between, after, led, each⟩ => ?_⟩
    obtain ⟨spent, runs, found, _, _, ⟨more, last, joined, _⟩, _⟩ := together led each
    exact ⟨more, _, joined⟩
  · intro fuel outcome ran
    obtain ⟨_, between, after, led, each⟩ := separate ran
    obtain ⟨spent, runs, found, returns, ended, ⟨more, last, joined, counted⟩, paired⟩ := together led each
    exact ⟨found, last, between, spent, runs, finish_unique joined ran, returns, ended, paired, counted⟩

end

/-- Who is a child of someone is raised by that one. -/
def raising : Search where
  database := {
    facts := [⟨"child", [⟨"bob"⟩, ⟨"ann"⟩]⟩, ⟨"child", [⟨"cat"⟩, ⟨"ann"⟩]⟩, ⟨"child", [⟨"dan"⟩, ⟨"cat"⟩]⟩]
    rules := [⟨⟨"raises", [⟨"X"⟩, ⟨"Y"⟩]⟩, [⟨"child", [⟨"Y"⟩, ⟨"X"⟩]⟩]⟩] }
  limits := .unbounded
  supply := ⟨1⟩

def byAnn : List ScopedAtom := [⟨⟨"raises", [⟨"ann"⟩, ⟨"M"⟩]⟩, 0⟩]

def byThose : List ScopedAtom := [⟨⟨"raises", [⟨"M"⟩, ⟨"D"⟩]⟩, 0⟩]

/-- One of the two that ann raises raises someone. The runs from them go on with the scopes where the first run has
left off. -/
theorem run_append_raising : ∃ between middle found last spent runs,
    raising.run 20 byAnn Partition.empty = some ⟨.ok between, middle⟩ ∧ between.length = 2 ∧
      raising.run 20 (byAnn ++ byThose) Partition.empty = some ⟨.ok found, last⟩ ∧ found.length = 1 ∧
      Returns raising byAnn Partition.empty (between, spent) ∧
      List.Forall₂ (fun entry run => Returns { raising with supply := middle.supply } byThose entry.1 run)
        between.zipIdx runs ∧
      List.Forall₂ (RenamedBelow 1) (runs.flatMap Prod.fst) found ∧
      last.stats.steps = spent + (runs.map Prod.snd).sum := by
  have below : ScopesBelow 1 (byAnn ++ byThose) Partition.empty := .of_goals (by simp [byAnn, byThose])
  have alone : ScopesBelow 1 byAnn Partition.empty := .of_goals (by simp [byAnn])
  obtain ⟨between, middle, ran, two⟩ : ∃ between middle, raising.run 20 byAnn Partition.empty =
      some ⟨.ok between, middle⟩ ∧ between.length = 2 := exists_found (by cbv)
  obtain ⟨found, last, joined, one⟩ : ∃ found last, raising.run 20 (byAnn ++ byThose) Partition.empty =
      some ⟨.ok found, last⟩ ∧ found.length = 1 := exists_found (by cbv)
  obtain ⟨_, advanced, _⟩ := (Explores.of_run ran).enumerates
  have whole : Unlimited raising.database 1 raising := ⟨rfl, rfl, Nat.le_refl 1⟩
  have continued : Unlimited raising.database 1 { raising with supply := middle.supply } := ⟨rfl, rfl, advanced⟩
  have fresh : ∀ fuel others after, raising.run fuel byAnn Partition.empty = some ⟨.ok others, after⟩ →
      ∀ entry ∈ others.zipIdx, ScopesBelow middle.supply.next byThose entry.1 := by
    intro fuel others after again entry member
    cases finish_unique ran again
    refine ⟨List.forall_mem_singleton.mpr advanced, fun name scope inside => ?_⟩
    exact scope_lt_of_run ran Built.nil alone (List.fst_mem_of_mem_zipIdx member) inside
  obtain ⟨_, joint⟩ := run_append raising raising (fun _ => { raising with supply := middle.supply }) Built.nil below
    whole whole (fun _ => continued) fresh
  obtain ⟨_, _, between', spent, runs, same, returns, each, paired, counted⟩ := joint 20 _ joined
  cases same
  obtain rfl : between = between' := by
    obtain ⟨_, _, again, _⟩ := returns
    cases finish_unique ran again
    rfl
  exact ⟨between, middle, found, last, spent, runs, ran, two, joined, one, returns, each, paired,
    counted.trans (Nat.zero_add _)⟩

end Backchain.Proofs
