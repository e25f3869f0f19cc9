import Backchain.Proofs.KeyRenaming
import Mathlib.Logic.Equiv.Basic
import Mathlib.Data.List.Nodup

/-! Scopes under other numbers. A search compares scopes and never computes one, so that a permutation of scopes renames
keys, and is carried through every operation on partitions and goals. -/

namespace Backchain

def Renaming.ofPerm (exchange : Equiv.Perm Scope) : Renaming := .ofScopes exchange exchange.injective

def renamePairs (exchange : Equiv.Perm Scope) (pairs : List (Key × Key)) : List (Key × Key) :=
  pairs.map (Prod.map (Key.mapScope exchange) (Key.mapScope exchange))

namespace Key
variable (exchange : Equiv.Perm Scope)

@[simp] theorem mapScope_symm_mapScope (key : Key) : (key.mapScope exchange).mapScope exchange.symm = key := by
  cases key with
  | var name scope => rw [mapScope, mapScope, Equiv.symm_apply_apply]
  | const name => rfl

@[simp] theorem mapScope_inj {a b : Key} : a.mapScope exchange = b.mapScope exchange ↔ a = b :=
  (Renaming.ofPerm exchange).key_inj

@[simp] theorem isVar_mapScope (key : Key) : (key.mapScope exchange).isVar = key.isVar := by
  cases key <;> rfl

end Key

namespace Partition
variable (exchange : Equiv.Perm Scope) (partition : Partition)

@[simp] theorem renameKeys_ofPerm_refl : partition.renameKeys (.ofPerm (Equiv.refl Scope)) = partition :=
  renameKeys_eq_self _ partition fun key _ => by cases key <;> rfl

theorem contains_renameKeys_ofPerm (key : Key) :
    (partition.renameKeys (.ofPerm exchange)).contains (key.mapScope exchange) = partition.contains key :=
  contains_renameKeys (.ofPerm exchange) partition key

/-- Only scopes that occur matter. -/
theorem renameKeys_ofPerm_congr {first second : Equiv.Perm Scope}
    (same : ∀ name scope, partition.contains (.var name scope) = true → first scope = second scope) :
    partition.renameKeys (.ofPerm first) = partition.renameKeys (.ofPerm second) := by
  refine partition.renameKeys_congr fun key entered => ?_
  cases key with
  | var name scope => exact congrArg (Key.var name) (same name scope entered)
  | const name => rfl

end Partition

theorem unify_mapScope (exchange : Equiv.Perm Scope) (candidate goal : ScopedAtom) (partition : Partition) :
    unify (candidate.mapScope exchange) (goal.mapScope exchange) (partition.renameKeys (.ofPerm exchange)) =
      (unify candidate goal partition).map (Partition.renameKeys (.ofPerm exchange)) :=
  Proofs.unify_renameKeys (Proofs.renames_mapScope exchange exchange.injective candidate)
    (Proofs.renames_mapScope exchange exchange.injective goal) partition

/-! ### Permutations that take given items to given items -/

namespace Proofs

def FixesBelow (bound : Scope) (exchange : Equiv.Perm Scope) : Prop := ∀ scope < bound, exchange scope = scope

theorem FixesBelow.map_mapScope {bound : Scope} {exchange : Equiv.Perm Scope} {goals : List ScopedAtom}
    (fixed : FixesBelow bound exchange) (old : ∀ goal ∈ goals, goal.scope < bound) :
    goals.map (ScopedAtom.mapScope exchange) = goals := by
  refine (List.map_congr_left fun goal member => ?_).trans (List.map_id goals)
  rw [ScopedAtom.mapScope, fixed _ (old goal member), id]

/-- A permutation can be changed so that it takes the first items to the second ones, without changing what becomes of
any other item that was not taken to one of the second. -/
theorem exists_renaming_of_nodup {α : Type} [DecidableEq α] (exchange : Equiv.Perm α) {first second : List α}
    (once : first.Nodup) (single : second.Nodup) (size : first.length = second.length) :
    ∃ changed : Equiv.Perm α, first.map changed = second ∧
      ∀ item, item ∉ first → exchange item ∉ second → changed item = exchange item := by
  induction first generalizing second with
  | nil =>
    obtain rfl := List.length_eq_zero_iff.mp size.symm
    exact ⟨exchange, rfl, fun _ _ _ => rfl⟩
  | cons item first ih =>
    obtain ⟨target, second, rfl⟩ := List.exists_cons_of_length_eq_add_one size.symm
    obtain ⟨absent, once⟩ := List.nodup_cons.mp once
    obtain ⟨missing, single⟩ := List.nodup_cons.mp single
    obtain ⟨changed, taken, kept⟩ := ih once single (Nat.succ.inj size)
    -- The item that was taken to the target so far takes the place of the new one.
    have others {other : α} (different : other ≠ item) (elsewhere : changed other ≠ target) :
        (changed.trans (Equiv.swap (changed item) target)) other = changed other := by
      rw [Equiv.trans_apply]
      exact Equiv.swap_apply_of_ne_of_ne (fun same => different (changed.injective same)) elsewhere
    refine ⟨changed.trans (Equiv.swap (changed item) target), ?_, fun other outside free => ?_⟩
    · rw [List.map_cons, Equiv.trans_apply, Equiv.swap_apply_left, List.cons.injEq]
      refine ⟨rfl, ?_⟩
      rw [← taken]
      refine List.map_congr_left fun other member => others (fun same => absent (same ▸ member)) ?_
      exact fun same => missing (taken ▸ same ▸ List.mem_map_of_mem member)
    · obtain ⟨different, outside⟩ := List.ne_and_not_mem_of_not_mem_cons outside
      obtain ⟨elsewhere, free⟩ := List.ne_and_not_mem_of_not_mem_cons free
      have same := kept other outside free
      rw [others different (same ▸ elsewhere), same]

end Proofs
end Backchain
