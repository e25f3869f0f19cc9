import Backchain.Engine
import Backchain.Proofs.PartitionHistory
import Backchain.Proofs.SolutionBindings

/-! The bindings that a partition shows for several queries. Each of them is read in its own scope and by bare name. A name
stands where it was first bound and has the value it was last bound to, and a query that leaves it unbound changes neither. -/

namespace Backchain.Proofs
open Bindings

/-- The query has the variable, and the partition binds it to the constant in the query's scope. -/
def Binds (partition : Partition) (goal : ScopedAtom) (name value : String) : Prop :=
  (⟨name⟩ : Term) ∈ goal.atom.vars ∧ partition.valueOf (.var name goal.scope) = some value

/-- The variables of the query that the partition binds, in the order of their first occurrences. -/
def boundNames (partition : Partition) (goal : ScopedAtom) : List String :=
  (goal.atom.vars.filter fun term => (partition.valueOf (.var term.text goal.scope)).isSome).map Term.text

/-- What the merged bindings of the queries are. -/
structure Merges (goals : List ScopedAtom) (partition : Partition) (solution : Bindings) : Prop where
  order : solution.entries.map Prod.fst = (goals.flatMap (boundNames partition)).eraseDups
  distinct : (solution.entries.map Prod.fst).Nodup
  names : ∀ name, name ∈ solution.entries.map Prod.fst ↔ ∃ goal ∈ goals, ∃ value, Binds partition goal name value
  last : ∀ name value, solution.get? name = some value ↔ ∃ earlier goal later, goals = earlier ++ goal :: later ∧
    Binds partition goal name value ∧ ∀ other ∈ later, ∀ value, ¬ Binds partition other name value

variable {partition : Partition} {goal : ScopedAtom} {goals : List ScopedAtom} {name value : String}

/-! ### The bindings of one query -/

theorem mem_entries_ofQuery : (name, value) ∈ (ofQuery goal partition).entries ↔ Binds partition goal name value := by
  rw [entries_ofQuery_eq, valueEntries, List.mem_filterMap]
  constructor
  · intro found
    obtain ⟨term, occurs, bound⟩ := found
    obtain ⟨constant, same, equal⟩ := Option.map_eq_some_iff.mp bound
    cases equal
    exact ⟨occurs, same⟩
  · intro binds
    refine ⟨⟨name⟩, binds.1, ?_⟩
    rw [boundIn, binds.2, Option.map_some]

theorem get?_ofQuery_eq_some_iff : (ofQuery goal partition).get? name = some value ↔ Binds partition goal name value := by
  rw [get?, lookup_eq_some_iff_mem (ofQuery goal partition).distinct, mem_entries_ofQuery]

theorem get?_ofQuery_eq_none_iff :
    (ofQuery goal partition).get? name = none ↔ ∀ value, ¬ Binds partition goal name value := by
  simp only [← get?_ofQuery_eq_some_iff]
  exact Option.eq_none_iff_forall_ne_some

theorem map_fst_ofQuery (goal : ScopedAtom) (partition : Partition) :
    (ofQuery goal partition).entries.map Prod.fst = boundNames partition goal := by
  rw [entries_ofQuery_eq, map_fst_valueEntries]
  rfl

theorem mem_boundNames : name ∈ boundNames partition goal ↔ ∃ value, Binds partition goal name value := by
  rw [← map_fst_ofQuery, List.mem_map]
  constructor
  · intro found
    obtain ⟨entry, member, rfl⟩ := found
    exact ⟨entry.2, mem_entries_ofQuery.mp member⟩
  · intro found
    obtain ⟨value, binds⟩ := found
    exact ⟨(name, value), mem_entries_ofQuery.mpr binds, rfl⟩

/-! ### The bindings of all queries -/

theorem ofList_append_singleton (pairs : List (String × String)) (pair : String × String) :
    ofList (pairs ++ [pair]) = (ofList pairs).insert pair.1 pair.2 := by
  rw [ofList, List.foldl_append]
  rfl

/-- However often a name is bound, it keeps its first place. -/
theorem map_fst_ofList (pairs : List (String × String)) :
    (ofList pairs).entries.map Prod.fst = (pairs.map Prod.fst).eraseDups := by
  induction pairs using List.reverseRecOn with
  | nil => rfl
  | append_singleton pairs pair ih =>
    have inserted := map_fst_put pair.1 pair.2 (ofList pairs).entries
    rw [ih] at inserted
    rw [ofList_append_singleton, List.map_append, List.map_singleton, eraseDups_append_singleton]
    simp only [List.mem_eraseDups] at inserted
    exact inserted

theorem mergeAll_eq_ofList (each : List Bindings) : mergeAll each = ofList (each.flatMap Bindings.entries) := by
  rw [mergeAll, ofList, List.foldl_flatMap]
  rfl

theorem map_fst_ofQueries (goals : List ScopedAtom) (partition : Partition) :
    (ofQueries goals partition).entries.map Prod.fst = (goals.flatMap (boundNames partition)).eraseDups := by
  rw [ofQueries_eq_mergeAll, mergeAll_eq_ofList, map_fst_ofList, List.flatMap_map, List.map_flatMap]
  simp only [map_fst_ofQuery]

theorem merges_ofQueries (goals : List ScopedAtom) (partition : Partition) :
    Merges goals partition (ofQueries goals partition) where
  order := map_fst_ofQueries goals partition
  distinct := (ofQueries goals partition).distinct
  names name := by
    rw [map_fst_ofQueries, List.mem_eraseDups, List.mem_flatMap]
    simp only [mem_boundNames]
  last name value := by
    rw [ofQueries_eq_mergeAll, get?_mergeAll, ← List.map_reverse, List.findSome?_map, findSome?_reverse_eq_some_iff]
    simp only [Function.comp_apply, get?_ofQuery_eq_some_iff, get?_ofQuery_eq_none_iff]

/-- Queries with a variable are answered by one solution for every partition that a key has entered. It has the names that
some query binds, in the order in which the queries first bind them, each with the constant of the last query that binds it.
A query alone is shown with its own bindings. -/
theorem ofPartitions_merges (free : ∃ goal ∈ goals, goal.atom.isGround = false) (found : List Partition) :
    ∃ all, Answer.ofPartitions goals found = .solutions all ∧
      List.Forall₂ (Merges goals) (found.filter (!·.isEmpty)) all ∧
      ∀ goal, goals = [goal] → all = (found.filter (!·.isEmpty)).map (ofQuery goal) := by
  have unbound : ¬ goals.all (·.atom.isGround) = true := by
    obtain ⟨goal, member, open_⟩ := free
    intro all
    exact absurd (List.all_eq_true.mp all goal member) (by simp [open_])
  refine ⟨(found.filter (!·.isEmpty)).map (ofQueries goals), ?_, ?_, ?_⟩
  · rw [Answer.ofPartitions, if_neg unbound]
  · rw [List.forall₂_map_right_iff, List.forall₂_same]
    exact fun partition _ => merges_ofQueries goals partition
  · intro goal single
    rw [single]
    rfl

def invitations : List ScopedAtom :=
  [⟨⟨"host", [⟨"X"⟩, ⟨"Y"⟩]⟩, 0⟩, ⟨⟨"guest", [⟨"Y"⟩, ⟨"X"⟩, ⟨"Z"⟩]⟩, 1⟩]

def seated : Partition :=
  ⟨#[⟨.var "X" 0, 0, 1, some "ann"⟩, ⟨.const "ann", 0, 0, some "ann"⟩, ⟨.var "Y" 0, 2, 1, some "bob"⟩,
    ⟨.const "bob", 2, 0, some "bob"⟩, ⟨.var "Y" 1, 4, 1, some "cal"⟩, ⟨.const "cal", 4, 0, some "cal"⟩]⟩

/-- The second query overwrites `Y` in its place, and leaves `X` as the first has bound it. -/
theorem ofPartitions_merges_invitations :
    (∃ goal ∈ invitations, goal.atom.isGround = false) ∧
      Built [(.var "X" 0, .const "ann"), (.var "Y" 0, .const "bob"), (.var "Y" 1, .const "cal")] seated ∧
      ∃ solution, Answer.ofPartitions invitations [Partition.empty, seated] = .solutions [solution] ∧
        Merges invitations seated solution ∧ solution.entries = [("X", "ann"), ("Y", "cal")] := by
  have free : ∃ goal ∈ invitations, goal.atom.isGround = false := by decide
  have built : Built [(.var "X" 0, .const "ann"), (.var "Y" 0, .const "bob"), (.var "Y" 1, .const "cal")] seated := by
    simp only [Built, List.foldlM]
    cbv
  have kept : [Partition.empty, seated].filter (!·.isEmpty) = [seated] := rfl
  obtain ⟨all, answer, merged, _⟩ := ofPartitions_merges free [Partition.empty, seated]
  rw [kept] at merged
  obtain ⟨solution, rest, merges, none, rfl⟩ := List.forall₂_cons_left_iff.mp merged
  obtain rfl := List.forall₂_nil_left_iff.mp none
  have shown : Answer.ofPartitions invitations [Partition.empty, seated] =
      .solutions [ofList [("X", "ann"), ("Y", "cal")]] := by cbv
  rw [answer, Answer.solutions.injEq, List.cons.injEq] at shown
  have entries : solution.entries = [("X", "ann"), ("Y", "cal")] := by
    rw [shown.1]
    rfl
  exact ⟨free, built, solution, answer, merges, entries⟩

end Backchain.Proofs
