import Backchain.Proofs.BindingEntries
import Backchain.Proofs.LeastModel

/-! What the bindings of a solution are when the partition binds all variables of the query: one entry for each
variable, in the order of their first occurrences. -/

namespace Backchain.Proofs
open Bindings

variable {query : Atom}

theorem mem_vars {term : Term} : term ∈ query.vars ↔ term ∈ query.arguments ∧ term.isVariable = true := by
  simp [Atom.vars]

theorem nodup_vars (query : Atom) : (query.vars.map Term.text).Nodup := by
  refine (nodup_eraseDups _).map fun first second same => ?_
  cases first
  cases second
  exact congrArg Term.mk same

theorem isGround_eq_false_iff : query.isGround = false ↔ ∃ term, term ∈ query.vars := by
  simp [Atom.isGround, Term.isConstant, mem_vars]

/-- The entries that bind the variables of a query to what is assigned to them. -/
def assignedEntries (assign : String → String) (query : Atom) : List (String × String) :=
  query.vars.map fun term => (term.text, assign term.text)

/-- What the partition binds the variables of a scope to. -/
def boundIn (partition : Partition) (scope : Scope) (name : String) : Option String :=
  partition.valueOf (.var name scope)

/-- The entries of the variables of a query that have a value. -/
def valueEntries (value : String → Option String) (query : Atom) : List (String × String) :=
  query.vars.filterMap fun term => (value term.text).map (term.text, ·)

theorem valueOf_ofTerm {term : Term} (free : term.isVariable = true) (partition : Partition) (scope : Scope) :
    partition.valueOf (Key.ofTerm scope term) = boundIn partition scope term.text := by
  rw [boundIn, Key.ofTerm, if_pos free]

theorem collect_eq_foldl (partition : Partition) (bindings : Bindings) (goal : ScopedAtom) :
    collect partition bindings goal = (valueEntries (boundIn partition goal.scope) goal.atom).foldl
      (fun bindings entry => bindings.insert entry.1 entry.2) bindings := by
  rw [valueEntries, List.foldl_filterMap]
  refine List.foldl_ext _ _ _ fun bindings term member => ?_
  rw [valueOf_ofTerm (mem_vars.mp member).2]
  cases boundIn partition goal.scope term.text <;> rfl

theorem map_fst_valueEntries (value : String → Option String) (query : Atom) :
    (valueEntries value query).map Prod.fst =
      (query.vars.filter fun term => (value term.text).isSome).map Term.text := by
  rw [valueEntries]
  induction query.vars with
  | nil => rfl
  | cons term vars ih => cases bound : value term.text <;> simp [bound, ih]

theorem nodup_valueEntries (value : String → Option String) (query : Atom) :
    ((valueEntries value query).map Prod.fst).Nodup := by
  rw [map_fst_valueEntries]
  exact (nodup_vars query).sublist (List.filter_sublist.map Term.text)

theorem entries_ofQuery_eq (goal : ScopedAtom) (partition : Partition) :
    (ofQuery goal partition).entries = valueEntries (boundIn partition goal.scope) goal.atom := by
  rw [ofQuery, collect_eq_foldl, entries_foldl_insert]
  · rfl
  · simpa [empty] using nodup_valueEntries (boundIn partition goal.scope) goal.atom

/-- A query whose variables are all bound is shown with all of them. -/
theorem entries_ofQuery {assign : String → String} {scope : Scope} {solution : Partition}
    (bound : ∀ term ∈ query.vars, solution.valueOf (Key.ofTerm scope term) = some (assign term.text)) :
    (ofQuery ⟨query, scope⟩ solution).entries = assignedEntries assign query := by
  rw [entries_ofQuery_eq, valueEntries, assignedEntries, ← List.filterMap_eq_map]
  refine List.filterMap_congr fun term member => ?_
  rw [← valueOf_ofTerm (mem_vars.mp member).2, bound term member]
  rfl

/-! ### Bindings of several queries -/

/-- The second bindings are inserted into the first, one after the other. A name that has a value takes the new one. -/
def insertAll (bindings more : Bindings) : Bindings :=
  more.entries.foldl (fun bindings entry => bindings.insert entry.1 entry.2) bindings

def mergeAll (each : List Bindings) : Bindings := each.foldl insertAll empty

/-- The bindings of a conjunction are those of its queries, merged in their order. -/
theorem ofQueries_eq_mergeAll (goals : List ScopedAtom) (partition : Partition) :
    ofQueries goals partition = mergeAll (goals.map (ofQuery · partition)) := by
  rw [ofQueries, mergeAll, List.foldl_map]
  refine List.foldl_ext _ _ _ fun bindings goal _ => ?_
  rw [collect_eq_foldl, insertAll, entries_ofQuery_eq]

theorem get?_of_entries {bindings : Bindings} {assign : String → String} {query : Atom}
    (same : bindings.entries = assignedEntries assign query) {term : Term} (occurs : term ∈ query.vars) :
    bindings.get? term.text = some (assign term.text) := by
  have paired : assignedEntries assign query = (query.vars.map Term.text).map fun name => (name, assign name) := by
    rw [List.map_map]
    rfl
  rw [get?, same, paired]
  exact List.lookup_graph assign (List.mem_map_of_mem occurs)

theorem get?_insertAll (bindings more : Bindings) (name : String) :
    (insertAll bindings more).get? name = (more.get? name).or (bindings.get? name) :=
  get?_foldl_insert more.distinct bindings name

/-- The last bindings that have the name decide. -/
theorem get?_mergeAll (each : List Bindings) (name : String) :
    (mergeAll each).get? name = each.reverse.findSome? (·.get? name) := by
  induction each using List.reverseRecOn with
  | nil => rfl
  | append_singleton each last ih =>
    have merged : mergeAll (each ++ [last]) = insertAll (mergeAll each) last := by
      rw [mergeAll, List.foldl_append]
      rfl
    rw [merged, get?_insertAll, ih, List.reverse_append, List.findSome?_append]
    simp

theorem ofQuery_eq_of_boundIn {scope other : Scope} {first second : Partition}
    (same : boundIn first scope = boundIn second other) : ofQuery ⟨query, scope⟩ first = ofQuery ⟨query, other⟩ second := by
  apply eq_of_entries
  rw [entries_ofQuery_eq, entries_ofQuery_eq, same]

end Backchain.Proofs
