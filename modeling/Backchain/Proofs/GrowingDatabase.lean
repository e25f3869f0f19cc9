import Backchain.Proofs.ProofProducts
import Backchain.Proofs.ProofRearrangement
import Backchain.Proofs.QueryAnswers
import Backchain.Proofs.SearchLimits
import Mathlib.Data.List.NodupEquivFin

/-! Facts and rules that are put in between others. The proofs that there were are still proofs, under numbers that have
grown, and they stand in the same order among the new ones. -/

namespace Backchain.Proofs

def Choice.reindex (facts rules : Nat → Nat) : Choice → Choice
  | .fact index => .fact (facts index)
  | .rule index => .rule (rules index)

section
variable {facts rules : Nat → Nat} {label : Type}

theorem Choice.Before.reindex {first second : Choice} (before : first.Before second) (factsGrow : StrictMono facts)
    (rulesGrow : StrictMono rules) : (first.reindex facts rules).Before (second.reindex facts rules) := by
  cases first with
  | fact index =>
    cases second with
    | fact other => exact factsGrow before
    | rule other => trivial
  | rule index =>
    cases second with
    | fact other => cases before
    | rule other => exact rulesGrow before

theorem ProofForest.choices_reindex (facts rules : Nat → Nat) (forest : ProofForest label) :
    (forest.reindex facts rules).choices = forest.choices.map (Choice.reindex facts rules) := by
  induction forest with
  | done => rfl
  | fact index rest ih => rw [reindex, choices, ih]; rfl
  | rule index own premises rest inner outer => rw [reindex, choices, inner, outer, ← List.map_append]; rfl

theorem ProofForest.Before.reindex {first second : ProofForest label} (before : first.Before second)
    (factsGrow : StrictMono facts) (rulesGrow : StrictMono rules) :
    (first.reindex facts rules).Before (second.reindex facts rules) := by
  rw [ProofForest.Before, ProofForest.choices_reindex, ProofForest.choices_reindex]
  exact lex_map before fun a b here => here.reindex factsGrow rulesGrow

end

section
variable {database larger : Database} {low high lower higher depth depth' : Nat} {bound : Scope}
  {goals : List ScopedAtom} {history : List (Key × Key)} {start : Partition}
  {entries others : List (ProofForest Scope × Partition)}

/-- The solutions that there were are found again in their order. -/
theorem Enumerates.exists_embedded (facts : database.facts.Sublist larger.facts)
    (rules : database.rules.Sublist larger.rules)
    (valid : Enumerates database low high ⟨goals, start, depth⟩ entries)
    (again : Enumerates larger lower higher ⟨goals, start, depth'⟩ others) (built : Built history start)
    (below : ScopesBelow bound goals start) (above : bound ≤ low) (beyond : bound ≤ lower) :
    ∃ kept, kept.Sublist (others.map Prod.snd) ∧ List.Forall₂ (AgreeBelow bound) (entries.map Prod.snd) kept := by
  obtain ⟨place, samePlace⟩ := List.sublist_iff_exists_orderEmbedding_getElem?_eq.mp facts
  obtain ⟨number, sameNumber⟩ := List.sublist_iff_exists_orderEmbedding_getElem?_eq.mp rules
  have stores : Stores database larger place number :=
    ⟨fun index fact stored => (samePlace index).symm.trans stored,
      fun index rule stored => (sameNumber index).symm.trans stored⟩
  have carries := Carries.of_stores stores goals
  have each : ∀ entry ∈ entries, ∃ counterpart ∈ others,
      counterpart.1.erase = entry.1.erase.reindex place number ∧ AgreeBelow bound entry.2 counterpart.2 :=
    fun entry member => carries.exists_entry valid again built below above beyond member
  have ordered : (entries.map fun entry => entry.1.erase.reindex place number).Pairwise ProofForest.Before := by
    refine List.pairwise_map.mpr ((List.pairwise_map.mp valid.erase_ordered).imp fun before => ?_)
    exact before.reindex place.strictMono number.strictMono
  -- Both lists of shapes are sorted, so that a part of the second in any order is a part of it in its own order.
  have shapes : (entries.map fun entry => entry.1.erase.reindex place number).Sublist (others.map (·.1.erase)) := by
    refine List.sublist_of_subperm_of_pairwise (List.subperm_of_subset ordered.nodup ?_) ordered again.erase_ordered
    intro shape member
    obtain ⟨entry, present, rfl⟩ := List.mem_map.mp member
    obtain ⟨counterpart, inside, same, _⟩ := each entry present
    exact List.mem_map.mpr ⟨counterpart, inside, same⟩
  obtain ⟨chosen, sublist, same⟩ := List.sublist_map_iff.mp shapes
  refine ⟨chosen.map Prod.snd, sublist.map Prod.snd, List.forall₂_map_left_iff.mpr ?_⟩
  exact forall₂_of_shapes again.erase_nodup sublist.subset same each

end

/-- Without limits an answer is never an error. -/
theorem exists_run_of_unlimited {database : Database} {fuel : Nat} {queries : List Atom}
    {result : Except LimitError Answer} (answered : Engine.conjunction fuel { database } queries = some result) :
    ∃ found after, (Engine.search { database } (Engine.goals queries)).run fuel (Engine.goals queries)
        Partition.empty = some ⟨.ok found, after⟩ ∧
      result = .ok (Answer.ofPartitions (Engine.goals queries) found) := by
  rw [Engine.conjunction, Engine.partitions, Option.map_map] at answered
  obtain ⟨outcome, ran, rfl⟩ := Option.map_eq_some_iff.mp answered
  obtain ⟨found, after, rfl⟩ := exists_found_of_unbounded rfl ran
  exact ⟨found, after, ran, rfl⟩

/-- More facts and rules, wherever they are put in, only add answers. What was true stays true, and the solutions that
there were come in the same order and as often as before, with new ones between them. -/
theorem query_grows {database larger : Database} (facts : database.facts.Sublist larger.facts)
    (rules : database.rules.Sublist larger.rules) {query : Atom} {fuel more : Nat}
    {result grown : Except LimitError Answer} (before : Engine.query fuel { database } query = some result)
    (after : Engine.query more { database := larger } query = some grown) :
    (query.isGround = true → ∃ held holds, result = .ok (.truth held) ∧ grown = .ok (.truth holds) ∧
      (held = true → holds = true)) ∧
    (query.isGround = false → ∃ few many, result = .ok (.solutions few) ∧ grown = .ok (.solutions many) ∧
      few.Sublist many) := by
  obtain ⟨found, _, ran, rfl⟩ := exists_run_of_unlimited before
  obtain ⟨reached, _, again, rfl⟩ := exists_run_of_unlimited after
  obtain ⟨entries, rfl, valid⟩ := exists_enumerates_of_run ran
  obtain ⟨others, rfl, enumerated⟩ := exists_enumerates_of_run again
  have below := scopesBelow_scopeAbove (Engine.goals [query])
  obtain ⟨kept, sublist, paired⟩ := valid.exists_embedded facts rules enumerated Built.nil below (Nat.le_refl _)
    (Nat.le_refl _)
  constructor
  · intro ground
    refine ⟨_, _, congrArg _ (ofPartitions_of_isGround ground _), congrArg _ (ofPartitions_of_isGround ground _), ?_⟩
    rw [Bool.not_eq_true', Bool.not_eq_true', List.isEmpty_eq_false_iff, List.isEmpty_eq_false_iff]
    intro some none
    rw [none, List.sublist_nil] at sublist
    rw [sublist, List.forall₂_nil_right_iff] at paired
    exact some paired
  · intro free
    have unbound : [query].all Atom.isGround = false := by simpa using free
    refine ⟨_, _, congrArg _ (valid.ofPartitions_eq_solutions unbound),
      congrArg _ (enumerated.ofPartitions_eq_solutions unbound), ?_⟩
    rw [map_eq_of_forall₂ paired fun _ _ agree => agree.ofQueries_eq below.goals]
    exact sublist.map _

def cats : Database where
  facts := [⟨"cat", [⟨"tom"⟩]⟩, ⟨"cat", [⟨"kit"⟩]⟩]
  rules := [⟨⟨"pet", [⟨"X"⟩]⟩, [⟨"cat", [⟨"X"⟩]⟩]⟩]

/-- One more cat between the others, and dogs are pets, too. -/
def catsAndDogs : Database where
  facts := [⟨"cat", [⟨"tom"⟩]⟩, ⟨"cat", [⟨"sam"⟩]⟩, ⟨"cat", [⟨"kit"⟩]⟩, ⟨"dog", [⟨"rex"⟩]⟩]
  rules := [⟨⟨"pet", [⟨"X"⟩]⟩, [⟨"dog", [⟨"X"⟩]⟩]⟩, ⟨⟨"pet", [⟨"X"⟩]⟩, [⟨"cat", [⟨"X"⟩]⟩]⟩]

theorem query_grows_pets : ∃ few many,
    Engine.query 20 { database := cats } ⟨"pet", [⟨"P"⟩]⟩ = some (.ok (.solutions few)) ∧
      Engine.query 20 { database := catsAndDogs } ⟨"pet", [⟨"P"⟩]⟩ = some (.ok (.solutions many)) ∧
      few.map Bindings.entries = [[("P", "tom")], [("P", "kit")]] ∧
      many.map Bindings.entries = [[("P", "rex")], [("P", "tom")], [("P", "sam")], [("P", "kit")]] ∧
      few.Sublist many := by
  have answered : Engine.query 20 { database := cats } ⟨"pet", [⟨"P"⟩]⟩ =
      some (.ok (.solutions [⟨[("P", "tom")], by simp⟩, ⟨[("P", "kit")], by simp⟩])) := by cbv
  have again : Engine.query 20 { database := catsAndDogs } ⟨"pet", [⟨"P"⟩]⟩ = some (.ok (.solutions
      [⟨[("P", "rex")], by simp⟩, ⟨[("P", "tom")], by simp⟩, ⟨[("P", "sam")], by simp⟩, ⟨[("P", "kit")], by simp⟩])) := by
    cbv
  have facts : cats.facts.Sublist catsAndDogs.facts := by decide
  have rules : cats.rules.Sublist catsAndDogs.rules := by decide
  obtain ⟨few, many, same, equal, sublist⟩ := (query_grows facts rules answered again).2 (by decide)
  cases same
  cases equal
  exact ⟨_, _, answered, again, rfl, rfl, sublist⟩

end Backchain.Proofs
