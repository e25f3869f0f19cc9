import Backchain.Proofs.SearchEnumeration

/-! Solutions of a run against the least model: every solution is right, however the scopes were chosen, and with
fresh scopes and ground facts no answer is missing. -/

namespace Backchain.Proofs

section
variable {database : Database} {low high : Nat} {goals : List ScopedAtom} {history needed : List (Key × Key)}
  {start : Partition} {depth : Nat} {forest : ProofForest Scope} {valuation : Valuation}
  {entries : List (ProofForest Scope × Partition)} {entry : ProofForest Scope × Partition}

theorem Proves.holds (proves : Proves database goals forest needed) (satisfied : valuation.Satisfies needed) :
    ∀ goal ∈ goals, Holds database (valuation.ground goal) := by
  intro goal member
  rw [Valuation.ground_eq]
  exact (proves.solved satisfied).holds _ (List.mem_map.mpr ⟨goal, member, rfl⟩)

def Valuation.ofAssign (scope : Scope) (assign : String → String) : Valuation :=
  Valuation.update ⟨Key.name, fun _ => rfl⟩ scope assign

theorem Valuation.ground_ofAssign (scope : Scope) (assign : String → String) (query : Atom) :
    (Valuation.ofAssign scope assign).ground ⟨query, scope⟩ = instantiate assign query := by
  rw [Valuation.ground_eq, Valuation.ofAssign, Valuation.within_update]

theorem Valuation.respects_empty (valuation : Valuation) : valuation.Respects Partition.empty := by
  apply Built.nil.respects_iff.mpr
  simp [Valuation.Satisfies]

namespace Enumerates

theorem holds (valid : Enumerates database low high ⟨goals, start, depth⟩ entries) (built : Built history start)
    (member : entry ∈ entries) (respects : valuation.Respects entry.2) :
    (∀ goal ∈ goals, Holds database (valuation.ground goal)) ∧ valuation.Respects start := by
  obtain ⟨needed, proves, finished⟩ := valid.sound history built entry member
  obtain ⟨old, new⟩ := Valuation.Satisfies.append_iff.mp (finished.respects_iff.mp respects)
  exact ⟨proves.holds new, built.respects_iff.mpr old⟩

theorem exists_respects (valid : Enumerates database low high ⟨goals, start, depth⟩ entries)
    (built : Built history start) (member : entry ∈ entries) : ∃ valuation : Valuation, valuation.Respects entry.2 := by
  obtain ⟨needed, proves, finished⟩ := valid.sound history built entry member
  exact finished.exists_respects

theorem exists_of_holds (valid : Enumerates database low high ⟨goals, start, depth⟩ entries)
    (built : Built history start) (ground : ∀ fact ∈ database.facts, fact.isGround = true)
    (below : ScopesBelow low goals start) (respects : valuation.Respects start)
    (holds : ∀ goal ∈ goals, Holds database (valuation.ground goal)) :
    ∃ entry ∈ entries, ∃ extended, AgreeOutside (Set.Ici low) valuation extended ∧ extended.Respects entry.2 := by
  obtain ⟨shape, solved⟩ : ∃ shape, Solved database (valuation.assigned goals) shape := by
    refine exists_solved_of_provable fun goal member => ?_
    obtain ⟨other, inside, rfl⟩ := List.mem_map.mp member
    rw [← Valuation.ground_eq]
    exact (holds other inside).provable ground
  obtain ⟨entry, member, _, found⟩ := valid.complete history built below valuation respects shape solved
  exact ⟨entry, member, found⟩

end Enumerates
end

/-! ### Whatever the scopes -/

section
variable {σ : Type} [ScopeSource σ] {search after : Search σ} {fuel : Nat} {goals : List ScopedAtom}
  {history : List (Key × Key)} {start : Partition} {found : List Partition} {database : Database} {child branch : Branch}

/-- The goals of a branch follow from those of its child, under all constants that the child still allows. -/
theorem Child.holds (isChild : Child database child branch) (built : Built history branch.partition) :
    ∃ equation, Built (history ++ equation) child.partition ∧ ∀ valuation : Valuation, valuation.Satisfies equation →
      (∀ goal ∈ child.goals, Holds database (valuation.ground goal)) →
        ∀ goal ∈ branch.goals, Holds database (valuation.ground goal) := by
  cases isChild with
  | fact stored unified =>
    obtain ⟨fits, finished⟩ := built.of_unify unified
    refine ⟨_, finished, fun valuation satisfied rest => List.forall_mem_cons.mpr ⟨?_, rest⟩⟩
    rw [← fits.ground_eq satisfied, Valuation.ground_eq]
    exact .fact _ stored
  | @rule rule scope _ _ _ _ _ stored unified =>
    obtain ⟨fits, finished⟩ := built.of_unify unified
    refine ⟨_, finished, fun valuation satisfied both => ?_⟩
    obtain ⟨premises, rest⟩ := List.forall_mem_append.mp both
    refine List.forall_mem_cons.mpr ⟨?_, rest⟩
    rw [← fits.ground_eq satisfied, Valuation.ground_eq]
    refine .rule _ stored fun premise member => ?_
    rw [← Valuation.ground_eq valuation ⟨premise, scope⟩]
    exact premises _ (List.mem_map_of_mem member)

/-- A solution adds equations to one of the branches, under which that branch's goals hold. -/
theorem Explores.holds {pending : List Branch} (explored : Explores search pending found after) :
    ∀ solution ∈ found, ∃ branch ∈ pending, ∀ history, Built history branch.partition →
      ∃ added, Built (history ++ added) solution ∧ ∀ valuation : Valuation, valuation.Satisfies added →
        ∀ goal ∈ branch.goals, Holds search.database (valuation.ground goal) := by
  induction explored with
  | done => exact List.forall_mem_nil _
  | @solution _ _ partition _ _ _ _ ih =>
    refine List.forall_mem_cons.mpr ⟨⟨_, List.mem_cons_self .., fun history built => ?_⟩, fun solution member => ?_⟩
    · exact ⟨[], by rwa [List.append_nil], fun _ _ => List.forall_mem_nil _⟩
    · obtain ⟨branch, inside, proves⟩ := ih solution member
      exact ⟨branch, List.mem_cons_of_mem _ inside, proves⟩
  | expansion allowed children _ childrenIh ih =>
    obtain ⟨database, -⟩ := enter_keeps allowed
    refine List.forall_mem_append.mpr ⟨fun solution member => ?_, fun solution member => ?_⟩
    · obtain ⟨child, begun, proves⟩ := childrenIh solution member
      refine ⟨_, List.mem_cons_self .., fun history built => ?_⟩
      obtain ⟨equation, extended, step⟩ := (child_of_mem_expand begun).holds built
      obtain ⟨added, finished, holds⟩ := proves _ extended
      rw [List.append_assoc] at finished
      rw [database] at step
      rw [expand_database, database] at holds
      refine ⟨_, finished, fun valuation satisfied => ?_⟩
      obtain ⟨first, later⟩ := Valuation.Satisfies.append_iff.mp satisfied
      exact step valuation first (holds valuation later)
    · obtain ⟨branch, inside, proves⟩ := ih solution member
      rw [children.database_eq, expand_database, database] at proves
      exact ⟨branch, List.mem_cons_of_mem _ inside, proves⟩

/-- Whatever constants a solution still allows, they make all goals true and keep to the equalities that the run
started from. Scopes may collide, facts may have variables, and no solution is contradictory. -/
theorem run_sound (built : Built history start) (ran : search.run fuel goals start = some ⟨.ok found, after⟩) :
    ∀ solution ∈ found,
      (∀ valuation : Valuation, valuation.Respects solution →
        (∀ goal ∈ goals, Holds search.database (valuation.ground goal)) ∧ valuation.Respects start) ∧
      ∃ valuation : Valuation, valuation.Respects solution := by
  intro solution member
  obtain ⟨branch, only, proves⟩ := (Explores.of_run ran).holds solution member
  obtain rfl := List.mem_singleton.mp only
  obtain ⟨added, finished, holds⟩ := proves history built
  refine ⟨fun valuation respects => ?_, finished.exists_respects⟩
  obtain ⟨old, new⟩ := Valuation.Satisfies.append_iff.mp (finished.respects_iff.mp respects)
  exact ⟨holds valuation new, built.respects_iff.mpr old⟩

/-- Everyone likes tea, and who likes tea is a fan. -/
def tastes : Database where
  facts := [⟨"likes", [⟨"Z"⟩, ⟨"tea"⟩]⟩]
  rules := [⟨⟨"fan", [⟨"X"⟩]⟩, [⟨"likes", [⟨"X"⟩, ⟨"tea"⟩]⟩]⟩]

/-- A search that has one scope left before its counter starts over. -/
def tasting : Search ScopeCounter := { database := tastes, limits := {}, supply := ⟨-1⟩ }

theorem run_sound_tasting : ∃ start found after, Built [(.var "Y" 0, .const "ann")] start ∧
    tasting.run 9 [⟨⟨"fan", [⟨"Y"⟩]⟩, 0⟩] start = some ⟨.ok found, after⟩ ∧ found.length = 1 ∧ after.supply = ⟨1⟩ ∧
    Holds tastes ⟨"fan", ["ann"]⟩ := by
  have built : Built [(.var "Y" 0, .const "ann")]
      ⟨#[⟨.var "Y" 0, 0, 1, some "ann"⟩, ⟨.const "ann", 0, 0, some "ann"⟩]⟩ := Built.nil.append_singleton (by cbv)
  obtain ⟨found, after, ran, counts⟩ : ∃ found after, tasting.run 9 [⟨⟨"fan", [⟨"Y"⟩]⟩, 0⟩]
      ⟨#[⟨.var "Y" 0, 0, 1, some "ann"⟩, ⟨.const "ann", 0, 0, some "ann"⟩]⟩ = some ⟨.ok found, after⟩ ∧
      (found.length, after.supply) = (1, ⟨1⟩) := ⟨_, _, by cbv, by cbv⟩
  obtain ⟨single, supply⟩ := Prod.mk.inj counts
  refine ⟨_, found, after, built, ran, single, supply, ?_⟩
  obtain ⟨solution, only⟩ := List.length_eq_one_iff.mp single
  obtain ⟨sound, valuation, respects⟩ := run_sound built ran solution (only ▸ List.mem_singleton.mpr rfl)
  obtain ⟨holds, kept⟩ := sound valuation respects
  have value := built.respects_iff.mp kept (.var "Y" 0, .const "ann") (List.mem_singleton.mpr rfl)
  have ground : valuation.ground ⟨⟨"fan", [⟨"Y"⟩]⟩, 0⟩ = ⟨"fan", [valuation (.var "Y" 0)]⟩ := rfl
  have proved := holds _ (List.mem_singleton.mpr rfl)
  rwa [ground, value, valuation.constant] at proved

end

section
variable {search after : Search} {fuel : Nat} {goals : List ScopedAtom} {history : List (Key × Key)}
  {start : Partition} {found : List Partition}

/-- Constants that make all goals true are found by a run whose rules take scopes above those in use. What a
solution adds to them concerns the variables of the rules alone. -/
theorem run_complete (built : Built history start) (ground : ∀ fact ∈ search.database.facts, fact.isGround = true)
    (below : ScopesBelow search.supply.next goals start)
    (ran : search.run fuel goals start = some ⟨.ok found, after⟩) (valuation : Valuation)
    (respects : valuation.Respects start) (holds : ∀ goal ∈ goals, Holds search.database (valuation.ground goal)) :
    ∃ solution ∈ found, ∃ extended : Valuation, extended.Respects solution ∧
      ∀ name scope, scope < search.supply.next → extended (.var name scope) = valuation (.var name scope) := by
  obtain ⟨entries, rfl, valid⟩ := exists_enumerates_of_run ran
  obtain ⟨entry, member, extended, agree, last⟩ := valid.exists_of_holds built ground below respects holds
  refine ⟨entry.2, List.mem_map.mpr ⟨entry, member, rfl⟩, extended, last, fun name scope bound => ?_⟩
  exact agree name scope (Nat.not_le_of_lt bound)

/-- The famous are known by everyone. -/
def fame : Database where
  facts := [⟨"famous", [⟨"cal"⟩]⟩]
  rules := [⟨⟨"knows", [⟨"X"⟩, ⟨"Y"⟩]⟩, [⟨"famous", [⟨"Y"⟩]⟩]⟩]

theorem run_complete_fame : (∀ fact ∈ fame.facts, fact.isGround = true) ∧
    ScopesBelow 1 [⟨⟨"knows", [⟨"U"⟩, ⟨"V"⟩]⟩, 0⟩] Partition.empty ∧
    ∃ found after, Search.run 9 (⟨fame, {}, ⟨1⟩, {}⟩ : Search) [⟨⟨"knows", [⟨"U"⟩, ⟨"V"⟩]⟩, 0⟩] Partition.empty =
        some ⟨.ok found, after⟩ ∧
      ∃ solution ∈ found, ∃ valuation : Valuation, valuation.Respects solution ∧
        valuation (.var "U" 0) = "bob" ∧ valuation (.var "V" 0) = "cal" := by
  have facts : ∀ fact ∈ fame.facts, fact.isGround = true := by decide
  have below : ScopesBelow 1 [⟨⟨"knows", [⟨"U"⟩, ⟨"V"⟩]⟩, 0⟩] Partition.empty := by
    constructor
    · simp
    · simp [Partition.empty, Partition.contains, Partition.slot?]
  obtain ⟨found, after, ran, _⟩ : ∃ found after, Search.run 9 (⟨fame, {}, ⟨1⟩, {}⟩ : Search)
      [⟨⟨"knows", [⟨"U"⟩, ⟨"V"⟩]⟩, 0⟩] Partition.empty = some ⟨.ok found, after⟩ ∧ found.length = 1 :=
    exists_found (by cbv)
  have famous : Holds fame ⟨"famous", ["cal"]⟩ :=
    Holds.fact id (show (⟨"famous", [⟨"cal"⟩]⟩ : Atom) ∈ fame.facts from List.mem_singleton.mpr rfl)
  have known : Holds fame ⟨"knows", ["bob", "cal"]⟩ := by
    have stored : (⟨⟨"knows", [⟨"X"⟩, ⟨"Y"⟩]⟩, [⟨"famous", [⟨"Y"⟩]⟩]⟩ : Rule) ∈ fame.rules := List.mem_singleton.mpr rfl
    apply Holds.rule (fun name => if name = "X" then "bob" else "cal") stored
    intro premise member
    obtain rfl := List.mem_singleton.mp member
    exact famous
  obtain ⟨solution, member, extended, respects, agree⟩ := run_complete Built.nil facts below ran
    (Valuation.ofAssign 0 fun name => if name = "U" then "bob" else "cal") (Valuation.respects_empty _) (by
      intro goal member
      obtain rfl := List.mem_singleton.mp member
      exact known)
  exact ⟨facts, below, found, after, ran, solution, member, extended, respects,
    agree "U" 0 (Nat.zero_lt_one), agree "V" 0 (Nat.zero_lt_one)⟩

end

end Backchain.Proofs
