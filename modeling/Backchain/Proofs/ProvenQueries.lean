import Backchain.Proofs.QueryAnswers

/-! Provability. To ask whether a query can be proved is to count the partitions that are found, while its answer leaves
out the empty ones. Both agree: a proof of a query with a variable enters it, and no key is ever taken out. -/

namespace Backchain

/-- Whether the answer is true or has a solution. -/
def Answer.holds : Answer → Bool
  | .truth holds => holds
  | .solutions all => !all.isEmpty

namespace Proofs

variable {engine : Engine} {fuel : Nat} {queries : List Atom} {found : List Partition}

theorem isEmpty_eq_false_of_partitions (searched : engine.partitions fuel (Engine.goals queries) = some (.ok found))
    (free : queries.all Atom.isGround = false) : ∀ solution ∈ found, solution.isEmpty = false := by
  obtain ⟨⟨result, after⟩, ran, rfl⟩ := Option.map_eq_some_iff.mp searched
  obtain ⟨entries, rfl, valid⟩ := exists_enumerates_of_run ran
  exact valid.isEmpty_eq_false_of_free free

theorem conjunction_of_partitions (searched : engine.partitions fuel (Engine.goals queries) = some (.ok found)) :
    engine.conjunction fuel queries = some (.ok (Answer.ofPartitions (Engine.goals queries) found)) := by
  rw [Engine.conjunction, searched]
  rfl

theorem solve_of_partitions (directive : engine.database.hasAllDirective = true)
    (searched : engine.partitions fuel (Engine.goals queries) = some (.ok found)) :
    engine.solve fuel queries = some (.ok [Answer.ofPartitions (Engine.goals queries) found]) := by
  rw [Engine.solve, if_pos directive, conjunction_of_partitions searched]
  rfl

/-- No proof is lost between the search and the answer. -/
theorem holds_ofPartitions (searched : engine.partitions fuel (Engine.goals queries) = some (.ok found)) :
    (Answer.ofPartitions (Engine.goals queries) found).holds = !found.isEmpty := by
  cases ground : queries.all Atom.isGround with
  | true =>
    rw [ofPartitions_of_all_isGround ground]
    rfl
  | false =>
    have entered := isEmpty_eq_false_of_partitions searched ground
    rw [ofPartitions_of_not_all_isGround ground entered, Answer.holds, List.isEmpty_map]

theorem ask_eq_map_holds (engine : Engine) (fuel : Nat) (query : Atom) :
    engine.ask fuel query = (engine.query fuel query).map (·.map Answer.holds) := by
  rw [Engine.ask, Engine.query, Engine.conjunction, Option.map_map]
  refine Option.map_congr fun result searched => ?_
  cases result with
  | error error => rfl
  | ok found => exact congrArg Except.ok (holds_ofPartitions searched).symm

theorem exists_partitions {α : Type} {goals : List ScopedAtom} {read : List Partition → α} {value : α}
    (evaluated : (engine.partitions fuel goals).map (·.map read) = some (.ok value)) :
    ∃ found, engine.partitions fuel goals = some (.ok found) ∧ read found = value := by
  rw [Engine.partitions, Option.map_map] at evaluated
  obtain ⟨found, after, ran, same⟩ := exists_found evaluated
  exact ⟨found, by rw [Engine.partitions, ran]; rfl, same⟩

/-- An answer shows all proofs. Queries with a variable, a single one or more of them together, have one solution for each
partition that the search has found, and others are true if there is one. To ask a query comes to the same as to look
whether its answer holds, and ends with the same error or as little. -/
theorem answers_show_every_proof (engine : Engine) (fuel : Nat) :
    (∀ queries found, engine.partitions fuel (Engine.goals queries) = some (.ok found) → ∃ answer,
      engine.conjunction fuel queries = some (.ok answer) ∧
      (engine.database.hasAllDirective = true → engine.solve fuel queries = some (.ok [answer])) ∧
      (queries.all Atom.isGround = false → (∀ solution ∈ found, solution.isEmpty = false) ∧
        answer = .solutions (found.map (Bindings.ofQueries (Engine.goals queries)))) ∧
      (queries.all Atom.isGround = true → answer = .truth !found.isEmpty)) ∧
    ∀ query, engine.ask fuel query = (engine.query fuel query).map (·.map Answer.holds) := by
  refine ⟨fun queries found searched => ?_, ask_eq_map_holds engine fuel⟩
  refine ⟨_, conjunction_of_partitions searched, (solve_of_partitions · searched), fun free => ?_, fun ground => ?_⟩
  · have entered := isEmpty_eq_false_of_partitions searched free
    exact ⟨entered, ofPartitions_of_not_all_isGround free entered⟩
  · exact ofPartitions_of_all_isGround ground found

/-- On a sunny day every place is open, and the zoo is on any day. -/
def outing : Database where
  facts := [Database.allDirective, ⟨"sunny", []⟩]
  rules := [⟨⟨"open", [⟨"Place"⟩]⟩, [⟨"sunny", []⟩]⟩, ⟨⟨"open", [⟨"zoo"⟩]⟩, []⟩]

/-- The first of two proofs names no place, and is a solution all the same. -/
theorem answers_show_every_proof_outing :
    outing.hasAllDirective = true ∧
      (∃ found, Engine.partitions 8 { database := outing } (Engine.goals [⟨"sunny", []⟩, ⟨"open", [⟨"Where"⟩]⟩]) =
          some (.ok found) ∧ (∀ solution ∈ found, solution.isEmpty = false) ∧
        Engine.solve 8 { database := outing } [⟨"sunny", []⟩, ⟨"open", [⟨"Where"⟩]⟩] =
          some (.ok [.solutions [Bindings.empty, Bindings.ofList [("Where", "zoo")]]])) ∧
      Engine.solve 8 { database := outing } [⟨"sunny", []⟩, ⟨"open", [⟨"bay"⟩]⟩] = some (.ok [.truth true]) ∧
      Engine.ask 8 { database := outing } ⟨"open", [⟨"Where"⟩]⟩ = some (.ok true) := by
  have directive : outing.hasAllDirective = true := by decide
  obtain ⟨shows, asks⟩ := answers_show_every_proof { database := outing } 8
  refine ⟨directive, ?_, ?_, by rw [asks]; cbv⟩
  · have evaluated : (Engine.partitions 8 { database := outing }
        (Engine.goals [⟨"sunny", []⟩, ⟨"open", [⟨"Where"⟩]⟩])).map
        (·.map (List.map (Bindings.ofQueries (Engine.goals [⟨"sunny", []⟩, ⟨"open", [⟨"Where"⟩]⟩])))) =
          some (.ok [Bindings.empty, Bindings.ofList [("Where", "zoo")]]) := by cbv
    obtain ⟨found, searched, bindings⟩ := exists_partitions evaluated
    obtain ⟨_, _, solved, free, _⟩ := shows _ found searched
    obtain ⟨entered, rfl⟩ := free (by decide)
    rw [bindings] at solved
    exact ⟨found, searched, entered, solved directive⟩
  · have evaluated : (Engine.partitions 8 { database := outing }
        (Engine.goals [⟨"sunny", []⟩, ⟨"open", [⟨"bay"⟩]⟩])).map (·.map List.isEmpty) = some (.ok false) := by cbv
    obtain ⟨found, searched, proved⟩ := exists_partitions evaluated
    obtain ⟨_, _, solved, _, ground⟩ := shows _ found searched
    obtain rfl := ground (by decide)
    rw [proved] at solved
    exact solved directive

end Proofs
end Backchain
