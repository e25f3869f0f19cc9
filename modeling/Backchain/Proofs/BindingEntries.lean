import Backchain.Bindings
import Mathlib.Data.List.Nodup
import Mathlib.Data.List.Perm.Subperm

/-! Bindings as lists of entries with distinct names. -/

namespace Backchain.Proofs
open Bindings

theorem eq_of_entries {first second : Bindings} (same : first.entries = second.entries) : first = second := by
  cases first
  cases second
  cases same
  rfl

theorem put_of_not_mem {name : String} (value : String) {entries : List (String × String)}
    (absent : name ∉ entries.map Prod.fst) : put name value entries = entries ++ [(name, value)] := by
  induction entries with
  | nil => rfl
  | cons entry rest ih =>
    rw [List.map_cons, List.mem_cons, not_or] at absent
    rw [put, if_neg (Ne.symm absent.1), ih absent.2, List.cons_append]

theorem entries_foldl_insert {pairs : List (String × String)} {bindings : Bindings}
    (distinct : (bindings.entries.map Prod.fst ++ pairs.map Prod.fst).Nodup) :
    (pairs.foldl (fun bindings pair => bindings.insert pair.1 pair.2) bindings).entries = bindings.entries ++ pairs := by
  induction pairs generalizing bindings with
  | nil => exact (List.append_nil _).symm
  | cons pair pairs ih =>
    have absent : pair.1 ∉ bindings.entries.map Prod.fst :=
      fun member => (List.nodup_append.mp distinct).2.2 pair.1 member pair.1 (List.mem_cons_self ..) rfl
    have inserted : (bindings.insert pair.1 pair.2).entries = bindings.entries ++ [pair] :=
      put_of_not_mem pair.2 absent
    rw [List.foldl_cons, ih, inserted, List.append_assoc, List.singleton_append]
    simpa [inserted] using distinct

theorem lookup_eq_none_iff_not_mem {name : String} {entries : List (String × String)} :
    entries.lookup name = none ↔ name ∉ entries.map Prod.fst := by
  simp only [List.lookup_eq_none_iff, bne_iff_ne, List.mem_map, not_exists, not_and]
  exact forall₂_congr fun entry _ => not_congr eq_comm

theorem get?_foldl_insert {pairs : List (String × String)} (distinct : (pairs.map Prod.fst).Nodup) (bindings : Bindings)
    (name : String) : (pairs.foldl (fun bindings pair => bindings.insert pair.1 pair.2) bindings).get? name =
      (pairs.lookup name).or (bindings.get? name) := by
  induction pairs generalizing bindings with
  | nil => rfl
  | cons pair pairs ih =>
    rcases pair with ⟨first, value⟩
    obtain ⟨absent, others⟩ := List.nodup_cons.mp distinct
    rw [List.foldl_cons, ih others, get?_insert]
    by_cases here : name = first
    · have later : pairs.lookup first = none := lookup_eq_none_iff_not_mem.mpr absent
      simp [here, later]
    · have different : (name == first) = false := beq_false_of_ne here
      simp [List.lookup_cons, here, different]

theorem lookup_eq_some_iff_mem {entries : List (String × String)} (distinct : (entries.map Prod.fst).Nodup)
    {name value : String} : entries.lookup name = some value ↔ (name, value) ∈ entries := by
  induction entries with
  | nil => simp
  | cons entry rest ih =>
    rcases entry with ⟨first, bound⟩
    obtain ⟨absent, others⟩ := List.nodup_cons.mp distinct
    by_cases here : name = first
    · have missing : (first, value) ∉ rest := fun member => absent (List.mem_map.mpr ⟨_, member, rfl⟩)
      simp [here, missing, eq_comm]
    · have different : (name == first) = false := beq_false_of_ne here
      simp [List.lookup_cons, here, different, ih others]

/-- Bindings are equal if they have the same entries in any order. -/
theorem agree_iff_perm {first second : Bindings} : first.agree second = true ↔ first.entries.Perm second.entries := by
  have inside : (∀ entry ∈ first.entries, second.get? entry.1 = some entry.2) ↔ first.entries ⊆ second.entries :=
    forall₂_congr fun entry _ => lookup_eq_some_iff_mem second.distinct
  have unrepeated : first.entries.Nodup := List.Nodup.of_map _ first.distinct
  simp only [agree, Bool.and_eq_true, beq_iff_eq, List.all_eq_true]
  rw [inside]
  constructor
  · rintro ⟨size, subset⟩
    exact (List.subperm_of_subset unrepeated subset).perm_of_length_le (Nat.le_of_eq size.symm)
  · intro arranged
    exact ⟨arranged.length_eq, arranged.subset⟩

end Backchain.Proofs
