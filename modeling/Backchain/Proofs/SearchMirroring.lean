import Backchain.Proofs.ScopeRenaming
import Backchain.Proofs.SearchTermination
import Mathlib.Algebra.GroupWithZero.Nat

/-! Two searches side by side. A branch that is the other one under other scopes has the same children under other
scopes, so that exploring it takes as many steps and finds as much. If the copy has further goals behind its own, what
comes after a solution of the branch comes after it in the copy. -/

namespace Backchain.Proofs

/-- The second partition is the first one under other scopes, but for the scopes below the bound. -/
def RenamedBelow (bound : Scope) (first second : Partition) : Prop :=
  ∃ exchange, FixesBelow bound exchange ∧ second = first.renameKeys (.ofPerm exchange)

/-- The copy is the branch under other scopes, and has further goals to prove at the end. -/
def Mirrors (bound : Scope) (later : List ScopedAtom) (branch copy : Branch) : Prop :=
  ∃ exchange, FixesBelow bound exchange ∧ copy.goals = branch.goals.map (ScopedAtom.mapScope exchange) ++ later ∧
    copy.partition = branch.partition.renameKeys (.ofPerm exchange)

/-- No scope that a search still has to hand out occurs in the branch. -/
structure Fresh (low : Scope) (branch : Branch) : Prop where
  built : ∃ history, Built history branch.partition
  below : ScopesBelow low branch.goals branch.partition

/-- A search over the database without limits, which hands out no scope below the bound. -/
structure Unlimited (database : Database) (bound : Scope) (search : Search) : Prop where
  database : search.database = database
  limits : search.limits = .unbounded
  above : bound ≤ search.supply.next

theorem Fresh.mono {low high : Scope} {branch : Branch} (fresh : Fresh low branch) (bound : low ≤ high) :
    Fresh high branch :=
  ⟨fresh.built, fresh.below.mono bound⟩

/-- What an expansion leads to depends on the scopes that are handed out next, and on nothing else of the search. -/
theorem Unlimited.expansion {database : Database} {bound : Scope} {depth : Nat} {search counted : Search}
    (unlimited : Unlimited database bound search) (allowed : search.enter depth = (none, counted)) (goal : ScopedAtom)
    (rest : List ScopedAtom) (partition : Partition) :
    Unlimited database bound (counted.expand goal rest partition depth).2 ∧
      (counted.expand goal rest partition depth).1 =
        (candidates database search.supply.next).filterMap (Candidate.branch goal rest partition depth) ∧
      (counted.expand goal rest partition depth).2.supply.next = search.supply.next + database.rules.length := by
  obtain ⟨same, supply⟩ := enter_keeps allowed
  obtain ⟨_, entered, free⟩ := exists_enter_of_unbounded unlimited.limits depth
  obtain ⟨_, rfl⟩ := Prod.mk.inj (allowed.symm.trans entered)
  have next : (counted.expand goal rest partition depth).2.supply.next = search.supply.next + database.rules.length := by
    rw [expand_next, same, supply, unlimited.database]
  refine ⟨⟨same.trans unlimited.database, free, ?_⟩, ?_, next⟩
  · exact next ▸ unlimited.above.trans (Nat.le_add_right _ _)
  · rw [expand_eq_candidates, same, supply, unlimited.database]

theorem Unlimited.explores {database : Database} {bound : Scope} {search after : Search} {pending : List Branch}
    {found : List Partition} (unlimited : Unlimited database bound search)
    (explored : Explores search pending found after) : Unlimited database bound after := by
  obtain ⟨same, later, _⟩ := explored.enumerates
  exact ⟨same.trans unlimited.database, explored.limits_eq.trans unlimited.limits, unlimited.above.trans later⟩

/-! ### The children of a copy -/

section
variable {database : Database} {bound low other : Nat} {exchange : Equiv.Perm Scope} {candidate : Candidate}
  {goal : ScopedAtom} {rest later : List ScopedAtom} {partition : Partition} {depth depth' : Nat} {child : Branch}

def Candidate.rename (exchange : Equiv.Perm Scope) : Candidate → Candidate
  | .fact index stored => .fact index stored
  | .rule index stored scope => .rule index stored (exchange scope)

theorem candidates_rename
    (taken : (List.range' low database.rules.length).map exchange = List.range' other database.rules.length) :
    (candidates database low).map (Candidate.rename exchange) = candidates database other := by
  rw [candidates, candidates, List.map_append, List.map_map, List.map_map]
  refine congrArg₂ _ rfl (List.map_congr_left fun indexed member => ?_)
  obtain ⟨rule, index⟩ := indexed
  have inside : index < database.rules.length := by simpa using List.snd_lt_of_mem_zipIdx member
  have same := congrArg (·[index]?) taken
  simp only [List.getElem?_map, List.getElem?_range' inside, Option.map_some, Option.some.injEq, Nat.one_mul] at same
  simp only [Function.comp_apply, Candidate.rename, same]

/-- The scopes that two searches hand out next can be exchanged for each other, whatever was exchanged before. -/
theorem exists_exchange_of_drawn (fixed : FixesBelow bound exchange) (above : bound ≤ low) (beyond : bound ≤ other)
    (count : Nat) : ∃ changed, FixesBelow bound changed ∧
      (List.range' low count).map changed = List.range' other count ∧
      ∀ scope < low, exchange scope < other → changed scope = exchange scope := by
  obtain ⟨changed, taken, kept⟩ := exists_renaming_of_nodup exchange (List.nodup_range' (s := low) (n := count))
    (List.nodup_range' (s := other) (n := count)) (by simp)
  have old {scope : Nat} (inside : scope < low) (known : exchange scope < other) : changed scope = exchange scope := by
    refine kept scope (fun drawn => ?_) fun drawn => ?_
    · exact Nat.not_le_of_lt inside (List.left_le_of_mem_range' drawn)
    · exact Nat.not_le_of_lt known (List.left_le_of_mem_range' drawn)
  refine ⟨changed, fun scope inside => ?_, taken, fun scope => old⟩
  have same := fixed scope inside
  rw [old (inside.trans_le above) (by rw [same]; exact inside.trans_le beyond), same]

/-- A candidate under other scopes starts the branch under other scopes, or starts none either. -/
theorem Candidate.branch_rename (fixed : FixesBelow bound exchange) (candidate : Candidate) (goal : ScopedAtom)
    (rest later : List ScopedAtom) (partition : Partition) (depth depth' : Nat) :
    Option.Rel (Mirrors bound later) (candidate.branch goal rest partition depth)
      ((candidate.rename exchange).branch (goal.mapScope exchange) (rest.map (ScopedAtom.mapScope exchange) ++ later)
        (partition.renameKeys (.ofPerm exchange)) depth') := by
  cases candidate with
  | fact index fact =>
    have unified := unify_mapScope exchange ⟨fact, goal.scope⟩ goal partition
    change Option.Rel _ ((unify ⟨fact, goal.scope⟩ goal partition).map _)
      ((unify (ScopedAtom.mapScope exchange ⟨fact, goal.scope⟩) _ _).map _)
    rw [unified]
    cases unify ⟨fact, goal.scope⟩ goal partition with
    | none => exact .none
    | some after => exact .some ⟨exchange, fixed, rfl, rfl⟩
  | rule index rule scope =>
    have unified := unify_mapScope exchange ⟨rule.head, scope⟩ goal partition
    change Option.Rel _ ((unify ⟨rule.head, scope⟩ goal partition).map _)
      ((unify (ScopedAtom.mapScope exchange ⟨rule.head, scope⟩) _ _).map _)
    rw [unified]
    cases unify ⟨rule.head, scope⟩ goal partition with
    | none => exact .none
    | some after =>
      refine .some ⟨exchange, fixed, ?_, rfl⟩
      simp [ScopedAtom.mapScope, Function.comp_def]

/-- The children of the copy are the copies of the children. -/
theorem Mirrors.children {copy : Branch} (mirrors : Mirrors bound later ⟨goal :: rest, partition, depth⟩ copy)
    (database : Database) (fresh : Fresh low ⟨goal :: rest, partition, depth⟩) (freshCopy : Fresh other copy)
    (above : bound ≤ low) (beyond : bound ≤ other) : ∃ first remaining, copy.goals = first :: remaining ∧
      List.Forall₂ (Mirrors bound later)
        ((candidates database low).filterMap (Candidate.branch goal rest partition depth))
        ((candidates database other).filterMap
          (Candidate.branch first remaining copy.partition copy.depth)) := by
  obtain ⟨goals, mirrored, depth'⟩ := copy
  obtain ⟨exchange, fixed, rfl, rfl⟩ := mirrors
  refine ⟨goal.mapScope exchange, rest.map (ScopedAtom.mapScope exchange) ++ later, rfl, ?_⟩
  -- The scopes that the rules take now occur in neither branch, so they can be exchanged as well.
  obtain ⟨changed, fixed, taken, kept⟩ := exists_exchange_of_drawn fixed above beyond database.rules.length
  have goals : (goal :: rest).map (ScopedAtom.mapScope exchange) = (goal :: rest).map (ScopedAtom.mapScope changed) := by
    refine List.map_congr_left fun atom member => ?_
    have old := freshCopy.below.goals _ (List.mem_append_left later (List.mem_map_of_mem member))
    rw [ScopedAtom.mapScope, ScopedAtom.mapScope, kept _ (fresh.below.goals atom member) old]
  have partitions : partition.renameKeys (.ofPerm exchange) = partition.renameKeys (.ofPerm changed) := by
    refine partition.renameKeys_ofPerm_congr fun name scope inside => ?_
    have known : (partition.renameKeys (.ofPerm exchange)).contains (.var name (exchange scope)) = true := by
      rwa [← Key.mapScope, Partition.contains_renameKeys_ofPerm]
    exact (kept scope (fresh.below.partition name scope inside) (freshCopy.below.partition name _ known)).symm
  obtain ⟨first, others⟩ := List.cons.inj goals
  dsimp only
  rw [first, others, partitions, ← candidates_rename taken]
  refine List.rel_filterMap ?_ (List.forall₂_map_right_iff.mpr (List.forall₂_same.mpr fun _ _ => rfl))
  rintro candidate _ rfl
  exact candidate.branch_rename fixed goal rest later partition depth depth'

/-- The rules' scopes are not fresh any more when the children are explored. -/
theorem Fresh.children (fresh : Fresh low ⟨goal :: rest, partition, depth⟩) :
    ∀ child ∈ (candidates database low).filterMap (Candidate.branch goal rest partition depth),
      Fresh (low + database.rules.length) child := by
  intro child member
  obtain ⟨candidate, possible, begun⟩ := List.mem_filterMap.mp member
  obtain ⟨history, built⟩ := fresh.built
  have bound : low ≤ low + database.rules.length := Nat.le_add_right ..
  cases candidate with
  | fact index fact =>
    obtain ⟨extended, unified, rfl⟩ := Option.map_eq_some_iff.mp begun
    have finished := (built.of_unify unified).2
    have inside := (fresh.below.goals goal (List.mem_cons_self ..)).trans_le bound
    exact ⟨⟨_, finished⟩, fresh.below.unify built finished bound inside (List.forall_mem_nil _)⟩
  | rule index rule scope =>
    obtain ⟨extended, unified, rfl⟩ := Option.map_eq_some_iff.mp begun
    obtain ⟨stored, rfl⟩ := rule_mem_candidates.mp possible
    have finished := (built.of_unify unified).2
    have drawn := Nat.add_lt_add_left (List.getElem?_eq_some_iff.mp stored).1 low
    exact ⟨⟨_, finished⟩, fresh.below.unify built finished bound drawn (List.forall_mem_map.mpr fun _ _ => drawn)⟩

end

/-! ### Whole explorations -/

/-- Wherever the search stands, what comes after a solution takes so many steps in the copies and leads to these
partitions under other scopes. -/
def Completes (database : Database) (bound : Scope) (later : List ScopedAtom) (solution : Partition)
    (run : List Partition × Nat) : Prop :=
  ∀ search copy depth, Unlimited database bound search → Mirrors bound later ⟨[], solution, depth⟩ copy →
    Fresh search.supply.next copy → ∃ reached after, Explores search [copy] reached after ∧
      List.Forall₂ (RenamedBelow bound) run.1 reached ∧ after.stats.steps = search.stats.steps + run.2

theorem Completes.nil (database : Database) (bound : Scope) (solution : Partition) :
    Completes database bound [] solution ([solution], 0) := by
  rintro search ⟨goals, mirrored, depth'⟩ depth _ ⟨exchange, fixed, rfl, rfl⟩ _
  exact ⟨_, _, .solution (.done _), .cons ⟨exchange, fixed, rfl⟩ .nil, rfl⟩

variable {database : Database} {bound : Scope} {later : List ScopedAtom} {search after target : Search}
  {pending copies : List Branch} {between : List Partition} {runs : List (List Partition × Nat)}

/-- One search is about to explore the branches, and the other one the copies. -/
structure Alongside (database : Database) (bound : Scope) (later : List ScopedAtom) (search target : Search)
    (pending copies : List Branch) : Prop where
  unlimited : Unlimited database bound search
  unlimitedCopy : Unlimited database bound target
  mirrored : List.Forall₂ (Mirrors bound later) pending copies
  fresh : ∀ branch ∈ pending, Fresh search.supply.next branch
  freshCopies : ∀ copy ∈ copies, Fresh target.supply.next copy

namespace Alongside
variable {branch copy : Branch} {middle between : Search} {found reached : List Partition}

theorem tail (alongside : Alongside database bound later search target (branch :: pending) (copy :: copies))
    (explored : Explores search [branch] found middle) (mirrored : Explores target [copy] reached between) :
    Alongside database bound later middle between pending copies := by
  obtain ⟨_, advanced, _⟩ := explored.enumerates
  obtain ⟨_, advancedCopy, _⟩ := mirrored.enumerates
  refine ⟨alongside.unlimited.explores explored, alongside.unlimitedCopy.explores mirrored,
    (List.forall₂_cons.mp alongside.mirrored).2, fun branch member => ?_, fun copy member => ?_⟩
  · exact (alongside.fresh branch (List.mem_cons_of_mem _ member)).mono advanced
  · exact (alongside.freshCopies copy (List.mem_cons_of_mem _ member)).mono advancedCopy

theorem children {goal : ScopedAtom} {goals rest : List ScopedAtom} {partition copied : Partition} {depth depth' : Nat}
    {counted : Search} (alongside : Alongside database bound later search target
      (⟨goal :: rest, partition, depth⟩ :: pending) (⟨goals, copied, depth'⟩ :: copies))
    (allowed : search.enter depth = (none, counted)) :
    ∃ first remaining entered, goals = first :: remaining ∧ target.enter depth' = (none, entered) ∧
      Alongside database bound later (counted.expand goal rest partition depth).2
        (entered.expand first remaining copied depth').2 (counted.expand goal rest partition depth).1
        (entered.expand first remaining copied depth').1 := by
  have fresh := alongside.fresh _ (List.mem_cons_self ..)
  have freshCopy := alongside.freshCopies _ (List.mem_cons_self ..)
  obtain ⟨first, remaining, rfl, mirrored⟩ := (List.forall₂_cons.mp alongside.mirrored).1.children database fresh
    freshCopy alongside.unlimited.above alongside.unlimitedCopy.above
  obtain ⟨entered, begun, _⟩ := exists_enter_of_unbounded alongside.unlimitedCopy.limits depth'
  obtain ⟨unlimited, same, next⟩ := alongside.unlimited.expansion allowed goal rest partition
  obtain ⟨unlimitedCopy, sameCopy, nextCopy⟩ := alongside.unlimitedCopy.expansion begun first remaining copied
  refine ⟨first, remaining, entered, rfl, begun, unlimited, unlimitedCopy, ?_, ?_, ?_⟩
  · rw [same, sameCopy]
    exact mirrored
  · rw [same, next]
    exact fresh.children
  · rw [sameCopy, nextCopy]
    exact freshCopy.children

end Alongside

/-- Exploring the copies takes the steps that exploring the branches takes, and those of what comes after each of the
solutions. -/
theorem Explores.mirror (explored : Explores search pending between after)
    (alongside : Alongside database bound later search target pending copies)
    (completes : List.Forall₂ (Completes database bound later) between runs) :
    ∃ reached last, Explores target copies reached last ∧
      List.Forall₂ (RenamedBelow bound) (runs.flatMap Prod.fst) reached ∧
      last.stats.steps + search.stats.steps = target.stats.steps + after.stats.steps + (runs.map Prod.snd).sum := by
  induction explored generalizing target copies runs with
  | done search =>
    obtain rfl := List.forall₂_nil_left_iff.mp alongside.mirrored
    obtain rfl := List.forall₂_nil_left_iff.mp completes
    exact ⟨[], target, .done target, .nil, rfl⟩
  | @solution search after partition depth pending found others ih =>
    cases copies with
    | nil => cases alongside.mirrored
    | cons copy copies =>
      cases completes with | @cons _ run _ runs completed completes =>
      -- The branch is a solution here, and its copy goes on with the later goals.
      have mirrors := (List.forall₂_cons.mp alongside.mirrored).1
      obtain ⟨inner, middle, explored, paired, spent⟩ :=
        completed target copy depth alongside.unlimitedCopy mirrors (alongside.freshCopies _ (List.mem_cons_self ..))
      obtain ⟨outer, last, behind, rest, total⟩ := ih (alongside.tail (.solution (.done _)) explored) completes
      refine ⟨inner ++ outer, last, explored.append behind, List.rel_append paired rest, ?_⟩
      change last.stats.steps + search.stats.steps = _ at total
      rw [List.map_cons, List.sum_cons]
      omega
  | @expansion search counted middle after goal rest partition depth pending inner found allowed children others
      childrenIh ih =>
    cases copies with
    | nil => cases alongside.mirrored
    | cons copy copies =>
      obtain ⟨goals, copied, depth'⟩ := copy
      obtain ⟨front, back, rfl, completesInner, completesOuter⟩ := exists_append_of_forall₂ completes
      obtain ⟨first, remaining, entered, rfl, begun, within⟩ := alongside.children allowed
      obtain ⟨inner', middle', childrenCopy, pairedInner, totalInner⟩ := childrenIh within completesInner
      have behind := alongside.tail (.expansion allowed children (.done middle))
        (.expansion begun childrenCopy (.done middle'))
      obtain ⟨outer', last, othersCopy, pairedOuter, totalOuter⟩ := ih behind completesOuter
      refine ⟨inner' ++ outer', last, .expansion begun childrenCopy othersCopy, ?_, ?_⟩
      · rw [List.flatMap_append]
        exact List.rel_append pairedInner pairedOuter
      · have spent := enter_steps allowed
        have spentCopy := enter_steps begun
        change middle'.stats.steps + counted.stats.steps = entered.stats.steps + _ + _ at totalInner
        rw [List.map_append, List.sum_append]
        omega

end Backchain.Proofs
