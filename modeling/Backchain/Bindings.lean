import Backchain.Key
import Backchain.Partition.Basic

/-! Bindings of variable names to constants, as a solution shows them. Every name is bound once, and the names
keep the order in which they were first bound. -/

namespace Backchain

structure Bindings where
  entries : List (String × String) := []
  distinct : (entries.map Prod.fst).Nodup := by simp
deriving DecidableEq

namespace Bindings

/-- Binds a name in the place it already has, and at the end if it is new. -/
def put (name value : String) : List (String × String) → List (String × String)
  | [] => [(name, value)]
  | entry :: rest => if entry.1 = name then (name, value) :: rest else entry :: put name value rest

theorem map_fst_put (name value : String) (entries : List (String × String)) :
    (put name value entries).map Prod.fst =
      if name ∈ entries.map Prod.fst then entries.map Prod.fst else entries.map Prod.fst ++ [name] := by
  induction entries with
  | nil => simp [put]
  | cons entry rest ih =>
    by_cases same : entry.1 = name
    · simp [put, same]
    · have other : name ≠ entry.1 := Ne.symm same
      by_cases later : name ∈ rest.map Prod.fst
      · simp only [put, if_neg same, List.map_cons, ih, if_pos later, if_pos (List.mem_cons_of_mem entry.1 later)]
      · have absent : name ∉ entry.1 :: rest.map Prod.fst := List.not_mem_cons_of_ne_of_not_mem other later
        simp only [put, if_neg same, List.map_cons, ih, if_neg later, if_neg absent, List.cons_append]

theorem nodup_put {entries : List (String × String)} (name value : String)
    (distinct : (entries.map Prod.fst).Nodup) : ((put name value entries).map Prod.fst).Nodup := by
  rw [map_fst_put]
  split
  next => exact distinct
  next absent =>
    refine List.nodup_append.mpr ⟨distinct, by simp, ?_⟩
    intro earlier member last single same
    exact absent (List.mem_singleton.mp single ▸ same ▸ member)

theorem lookup_put (name value other : String) (entries : List (String × String)) :
    (put name value entries).lookup other = if other = name then some value else entries.lookup other := by
  induction entries with
  | nil => by_cases same : other = name <;> simp [put, same]
  | cons entry rest ih =>
    rcases entry with ⟨first, bound⟩
    by_cases here : first = name
    · subst first
      by_cases same : other = name
      · simp [put, same]
      · have different : (other == name) = false := beq_false_of_ne same
        simp [put, List.lookup_cons, same, different]
    · by_cases same : other = first
      · subst other
        simp [put, here]
      · have different : (other == first) = false := beq_false_of_ne same
        simp [put, List.lookup_cons, here, different, ih]

def empty : Bindings := {}

def insert (bindings : Bindings) (name value : String) : Bindings :=
  ⟨put name value bindings.entries, nodup_put name value bindings.distinct⟩

def get? (bindings : Bindings) (name : String) : Option String := bindings.entries.lookup name

theorem get?_insert (bindings : Bindings) (name value other : String) :
    (bindings.insert name value).get? other = if other = name then some value else bindings.get? other :=
  lookup_put name value other bindings.entries

def ofList (pairs : List (String × String)) : Bindings :=
  pairs.foldl (fun bindings (name, value) => bindings.insert name value) empty

def agree (a b : Bindings) : Bool :=
  a.entries.length == b.entries.length && a.entries.all fun (name, value) => b.get? name == some value

/-- Adds the variables of a query that the partition binds to constants. The others are left out. -/
def collect (partition : Partition) (bindings : Bindings) (query : ScopedAtom) : Bindings :=
  query.atom.vars.foldl
    (fun bindings term =>
      match partition.valueOf (Key.ofTerm query.scope term) with
      | some value => bindings.insert term.text value
      | none => bindings)
    bindings

/-- The bindings of several queries by bare name. Where queries share a name the last one decides. -/
def ofQueries (queries : List ScopedAtom) (partition : Partition) : Bindings :=
  queries.foldl (collect partition) empty

def ofQuery (query : ScopedAtom) (partition : Partition) : Bindings := collect partition empty query

end Bindings
end Backchain
