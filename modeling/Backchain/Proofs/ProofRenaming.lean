import Backchain.Bindings
import Backchain.Proofs.ProofEnumeration
import Backchain.Proofs.ScopeRenaming

/-! Proofs of the same shape. Which scopes their rules have makes no difference: the equations of one proof are those of
the other under other scopes, and two partitions made of them agree on all keys that the rules did not bring in. -/

namespace Backchain.Proofs

/-! ### Equations under other scopes -/

section
variable {pairs more : List (Key × Key)} {a b key : Key}

@[simp] theorem renamePairs_append (exchange : Equiv.Perm Scope) (pairs more : List (Key × Key)) :
    renamePairs exchange (pairs ++ more) = renamePairs exchange pairs ++ renamePairs exchange more :=
  List.map_append

@[simp] theorem renamePairs_symm_renamePairs (exchange : Equiv.Perm Scope) (pairs : List (Key × Key)) :
    renamePairs exchange.symm (renamePairs exchange pairs) = pairs := by
  simp [renamePairs, Function.comp_def, Prod.map]

theorem Linked.rename (linked : Linked pairs a b) (exchange : Equiv.Perm Scope) :
    Linked (renamePairs exchange pairs) (a.mapScope exchange) (b.mapScope exchange) := by
  induction linked with
  | rel a b member => exact Linked.of_mem (List.mem_map_of_mem member)
  | refl a => exact Linked.refl _ _
  | symm a b _ ih => exact ih.symm
  | trans a b c _ _ first second => exact first.trans second

theorem linked_rename_iff (exchange : Equiv.Perm Scope) :
    Linked (renamePairs exchange pairs) (a.mapScope exchange) (b.mapScope exchange) ↔ Linked pairs a b := by
  refine ⟨fun linked => ?_, fun linked => linked.rename exchange⟩
  simpa only [renamePairs_symm_renamePairs, Key.mapScope_symm_mapScope] using linked.rename exchange.symm

theorem mentioned_rename_iff (exchange : Equiv.Perm Scope) :
    Mentioned (renamePairs exchange pairs) (key.mapScope exchange) ↔ Mentioned pairs key := by
  simp only [Mentioned, renamePairs, List.mem_map, exists_exists_and_eq_and, Prod.map_fst, Prod.map_snd,
    Key.mapScope_inj]

theorem consistent_rename_iff (exchange : Equiv.Perm Scope) :
    Consistent (renamePairs exchange pairs) ↔ Consistent pairs := by
  have same (x y : String) : Linked (renamePairs exchange pairs) (.const x) (.const y) ↔
      Linked pairs (.const x) (.const y) := linked_rename_iff exchange (a := .const x) (b := .const y)
  simp only [Consistent, same]

theorem Consistent.mono (consistent : Consistent pairs) (subset : more ⊆ pairs) : Consistent more :=
  fun a b linked => consistent a b (linked.mono subset)

/-- The order of equations does not matter. -/
theorem Represents.of_perm {partition : Partition} (valid : Represents partition pairs) (arranged : pairs.Perm more) :
    Represents partition more := by
  refine valid.congr (fun a b => ?_) fun key => ?_
  · exact ⟨fun linked => linked.mono arranged.subset, fun linked => linked.mono arranged.symm.subset⟩
  · simp only [Mentioned, arranged.mem_iff]

end

/-! ### Keys that were there before -/

/-- Constants, and the variables of the scopes below the bound. -/
def BelowScope (bound : Scope) : Key → Prop
  | .var _ scope => scope < bound
  | .const _ => True

/-- Nothing that can be asked of the partitions about constants and variables of the scopes below tells them apart. -/
structure AgreeBelow (bound : Scope) (first second : Partition) : Prop where
  sameClass : ∀ a b, BelowScope bound a → BelowScope bound b → first.sameClass a b = second.sameClass a b
  valueOf : ∀ key, BelowScope bound key → first.valueOf key = second.valueOf key
  contains : ∀ key, BelowScope bound key → first.contains key = second.contains key

section
variable {bound : Scope} {exchange : Equiv.Perm Scope} {pairs : List (Key × Key)} {first second : Partition}

theorem rename_of_belowScope (fixed : FixesBelow bound exchange) {key : Key} (old : BelowScope bound key) :
    key.mapScope exchange = key := by
  cases key with
  | var name scope => rw [Key.mapScope, fixed scope old]
  | const name => rfl

theorem renamePairs_of_belowScope (fixed : FixesBelow bound exchange)
    (old : ∀ key, Mentioned pairs key → BelowScope bound key) : renamePairs exchange pairs = pairs := by
  refine (List.map_congr_left fun pair member => ?_).trans (List.map_id pairs)
  have left := rename_of_belowScope fixed (old pair.1 ⟨pair, member, Or.inl rfl⟩)
  have right := rename_of_belowScope fixed (old pair.2 ⟨pair, member, Or.inr rfl⟩)
  rw [Prod.map, left, right, id]

theorem AgreeBelow.of_represents (fixed : FixesBelow bound exchange) (valid : Represents first pairs)
    (renamed : Represents second (renamePairs exchange pairs)) : AgreeBelow bound first second where
  sameClass a b oldA oldB := by
    rw [Bool.eq_iff_iff, valid.sameClass_iff, renamed.sameClass_iff, ← linked_rename_iff exchange,
      rename_of_belowScope fixed oldA, rename_of_belowScope fixed oldB]
  valueOf key old := by
    apply Option.ext
    intro name
    rw [valid.valueOf_eq_some_iff, renamed.valueOf_eq_some_iff, ← linked_rename_iff exchange,
      rename_of_belowScope fixed old, Key.mapScope]
  contains key old := by
    rw [Bool.eq_iff_iff, valid.contains_iff, renamed.contains_iff, ← mentioned_rename_iff exchange,
      rename_of_belowScope fixed old]

namespace AgreeBelow

theorem collect_eq (agree : AgreeBelow bound first second) {query : ScopedAtom} (old : query.scope < bound)
    (bindings : Bindings) : Bindings.collect first bindings query = Bindings.collect second bindings query := by
  rw [Bindings.collect, Bindings.collect]
  refine List.foldl_ext _ _ _ fun bindings term _ => ?_
  have inside : BelowScope bound (Key.ofTerm query.scope term) := by
    rw [Key.ofTerm]
    split
    · exact old
    · trivial
  rw [agree.valueOf _ inside]

/-- Partitions that agree show the same bindings for queries that were there before. -/
theorem ofQueries_eq (agree : AgreeBelow bound first second) {queries : List ScopedAtom}
    (old : ∀ query ∈ queries, query.scope < bound) :
    Bindings.ofQueries queries first = Bindings.ofQueries queries second :=
  List.foldl_ext _ _ _ fun bindings query member => agree.collect_eq (old query member) bindings

end AgreeBelow

end

/-! ### Proofs under other scopes -/

namespace ProofForest
variable {label other : Type}

def relabel (change : label → other) : ProofForest label → ProofForest other
  | .done => .done
  | .fact index rest => .fact index (rest.relabel change)
  | .rule index own premises rest => .rule index (change own) (premises.relabel change) (rest.relabel change)

theorem length_labels_eq {first second : ProofForest label} (same : first.erase = second.erase) :
    first.labels.length = second.labels.length := by
  induction first generalizing second with
  | done =>
    cases second with
    | done => rfl
    | _ => cases same
  | fact index rest ih =>
    cases second with
    | fact =>
      have shorter := ih (fact.inj same).2
      exact shorter
    | _ => cases same
  | rule index own premises rest premisesIh ih =>
    cases second with
    | rule =>
      obtain ⟨_, _, inner, outer⟩ := rule.inj same
      simp only [labels, List.length_cons, List.length_append, premisesIh inner, ih outer]
    | _ => cases same

/-- A proof is determined by its shape and the labels of its rules. -/
theorem relabel_eq {first second : ProofForest label} {change : label → label} (same : first.erase = second.erase)
    (labelled : first.labels.map change = second.labels) : first.relabel change = second := by
  induction first generalizing second with
  | done =>
    cases second with
    | done => rfl
    | _ => cases same
  | fact index rest ih =>
    cases second with
    | fact =>
      obtain ⟨rfl, rest⟩ := fact.inj same
      rw [relabel, ih rest labelled]
    | _ => cases same
  | rule index own premises rest premisesIh ih =>
    cases second with
    | rule =>
      obtain ⟨rfl, _, inner, outer⟩ := rule.inj same
      simp only [labels, List.map_cons, List.map_append, List.cons.injEq] at labelled
      obtain ⟨left, right⟩ := List.append_inj labelled.2 (by rw [List.length_map, length_labels_eq inner])
      rw [relabel, labelled.1, premisesIh inner left, ih outer right]
    | _ => cases same

end ProofForest

section
variable {database : Database} {exchange : Equiv.Perm Scope} {candidate goal : ScopedAtom} {goals : List ScopedAtom}
  {forest other : ProofForest Scope} {needed more : List (Key × Key)}

theorem equations_rename (exchange : Equiv.Perm Scope) (candidate goal : ScopedAtom) :
    equations (candidate.mapScope exchange) (goal.mapScope exchange) = renamePairs exchange (equations candidate goal) := by
  rw [equations, ScopedAtom.keys_mapScope, ScopedAtom.keys_mapScope, List.zip_map, renamePairs, equations]

theorem Matches.rename (fits : Matches candidate goal) (exchange : Equiv.Perm Scope) :
    Matches (candidate.mapScope exchange) (goal.mapScope exchange) := by
  refine ⟨fits.predicate, fits.arity, ?_⟩
  rw [equations_rename, renamePairs, List.forall_mem_map]
  intro pair member free same
  rw [Prod.map_fst, Key.isVar_mapScope] at free
  exact fits.apart pair member free ((Key.mapScope_inj exchange).mp same)

theorem Proves.rename (proves : Proves database goals forest needed) (exchange : Equiv.Perm Scope) :
    Proves database (goals.map (ScopedAtom.mapScope exchange)) (forest.relabel exchange) (renamePairs exchange needed) := by
  induction proves with
  | done => exact .done
  | fact stored fits _ ih =>
    rw [renamePairs_append, ← equations_rename]
    exact .fact stored (fits.rename exchange) ih
  | rule stored fits _ _ bodyIh ih =>
    rw [renamePairs_append, renamePairs_append, ← equations_rename]
    rw [List.map_map] at bodyIh
    exact .rule stored (fits.rename exchange) bodyIh ih

/-- What a proof needs is a function of the proof and its goals. -/
theorem Proves.needed_eq (proves : Proves database goals forest needed) (again : Proves database goals forest more) :
    needed = more := by
  induction proves generalizing more with
  | done =>
    cases again
    rfl
  | fact stored _ _ ih =>
    cases again with
    | fact known _ others =>
      obtain rfl := Option.some.inj (stored.symm.trans known)
      rw [ih others]
  | rule stored _ _ _ bodyIh ih =>
    cases again with
    | rule known _ body others =>
      obtain rfl := Option.some.inj (stored.symm.trans known)
      rw [bodyIh body, ih others]

/-- Every rule of the proof has a scope of its own, which is not one of those below the bound. -/
structure LabelsAbove (bound : Scope) (forest : ProofForest Scope) : Prop where
  once : forest.labels.Nodup
  above : ∀ scope ∈ forest.labels, bound ≤ scope

theorem Proves.exists_rename {bound : Scope} (proves : Proves database goals forest needed)
    (again : Proves database goals other more) (same : forest.erase = other.erase) (first : LabelsAbove bound forest)
    (second : LabelsAbove bound other) (old : ∀ goal ∈ goals, goal.scope < bound) :
    ∃ exchange, FixesBelow bound exchange ∧ more = renamePairs exchange needed := by
  obtain ⟨exchange, taken, kept⟩ := exists_renaming_of_nodup (Equiv.refl Scope) first.once second.once
    (ProofForest.length_labels_eq same)
  have fixed : FixesBelow bound exchange := fun scope inside => kept scope
    (fun label => Nat.not_le_of_lt inside (first.above scope label))
    (fun label => Nat.not_le_of_lt inside (second.above scope label))
  have renamed := proves.rename exchange
  rw [fixed.map_mapScope old, ProofForest.relabel_eq same taken] at renamed
  exact ⟨exchange, fixed, again.needed_eq renamed⟩

/-- Partitions made of what was there before and of two proofs of the same shape agree on what was there before. -/
theorem Proves.agreeBelow {bound : Scope} {history pairs others : List (Key × Key)} {first second : Partition}
    (proves : Proves database goals forest needed) (again : Proves database goals other more)
    (same : forest.erase = other.erase) (left : LabelsAbove bound forest) (right : LabelsAbove bound other)
    (old : ∀ goal ∈ goals, goal.scope < bound) (known : ∀ key, Mentioned history key → BelowScope bound key)
    (valid : Represents first pairs) (arranged : pairs.Perm (history ++ needed)) (renamed : Represents second others)
    (rearranged : others.Perm (history ++ more)) : AgreeBelow bound first second := by
  obtain ⟨exchange, fixed, rfl⟩ := proves.exists_rename again same left right old
  refine AgreeBelow.of_represents fixed (valid.of_perm arranged) ?_
  rw [renamePairs_append, renamePairs_of_belowScope fixed known]
  exact renamed.of_perm rearranged

end

/-! ### Solutions by the shape of their proofs -/

section
variable {database : Database} {low high depth : Nat} {bound : Scope} {goals : List ScopedAtom}
  {history needed : List (Key × Key)} {start : Partition} {forest : ProofForest Scope}
  {entries chosen : List (ProofForest Scope × Partition)} {entry : ProofForest Scope × Partition}

theorem Enumerates.labelsAbove {branch : Branch} (valid : Enumerates database low high branch entries)
    (above : bound ≤ low) (member : entry ∈ entries) : LabelsAbove bound entry.1 where
  once := valid.once entry member
  above scope label := above.trans (valid.drawn entry member scope label).1

theorem LabelsAbove.ownScopes (labels : LabelsAbove bound forest) (below : ScopesBelow bound goals start) :
    OwnScopes goals start forest where
  once := labels.once
  goals goal inside label := Nat.not_le_of_lt (below.goals goal inside) (labels.above _ label)
  partition name scope inside label := Nat.not_le_of_lt (below.partition name scope inside) (labels.above _ label)

theorem ScopesBelow.belowScope (below : ScopesBelow bound goals start) (built : Built history start) {key : Key}
    (mentioned : Mentioned history key) : BelowScope bound key := by
  cases key with
  | var name scope => exact below.partition name scope ((built.represents.contains_iff _).mpr mentioned)
  | const name => trivial

/-- Whatever proof there is, the search has found one of its shape, and has made the same equal for the keys that were
there before. -/
theorem Enumerates.exists_entry (valid : Enumerates database low high ⟨goals, start, depth⟩ entries)
    (built : Built history start) (below : ScopesBelow bound goals start) (above : bound ≤ low)
    (labels : LabelsAbove bound forest) (proves : Proves database goals forest needed)
    (consistent : Consistent (history ++ needed)) :
    ∃ entry ∈ entries, entry.1.erase = forest.erase ∧ ∀ pairs partition, Represents partition pairs →
      pairs.Perm (history ++ needed) → AgreeBelow bound partition entry.2 := by
  have present : forest.erase ∈ entries.map (·.1.erase) :=
    (valid.mem_erase_iff built (below.mono above) (labels.ownScopes below)).mpr ⟨needed, proves, consistent⟩
  obtain ⟨entry, member, same⟩ := List.mem_map.mp present
  obtain ⟨more, again, finished⟩ := valid.sound history built entry member
  refine ⟨entry, member, same, fun pairs partition represents arranged => ?_⟩
  exact proves.agreeBelow again same.symm labels (valid.labelsAbove above member) below.goals
    (fun key => below.belowScope built) represents arranged finished.represents (List.Perm.refl _)

/-- Items and entries that stand for the same shapes correspond one by one. -/
theorem forall₂_of_shapes {α : Type} {related : α → Partition → Prop} {items : List α} {shape : α → ProofForest Unit}
    (once : (entries.map (·.1.erase)).Nodup) (inside : chosen ⊆ entries)
    (same : items.map shape = chosen.map (·.1.erase))
    (each : ∀ item ∈ items, ∃ entry ∈ entries, entry.1.erase = shape item ∧ related item entry.2) :
    List.Forall₂ related items (chosen.map Prod.snd) := by
  induction items generalizing chosen with
  | nil =>
    obtain rfl := List.map_eq_nil_iff.mp same.symm
    exact .nil
  | cons item items ih =>
    cases chosen with
    | nil => cases same
    | cons entry chosen =>
      obtain ⟨here, later⟩ := List.cons_eq_cons.mp same
      obtain ⟨present, others⟩ := List.cons_subset.mp inside
      obtain ⟨found, member, equal, holds⟩ := each item (List.mem_cons_self ..)
      obtain rfl : found = entry := List.inj_on_of_nodup_map once member present (equal.trans here)
      exact .cons holds (ih others later fun other later => each other (List.mem_cons_of_mem _ later))

end
end Backchain.Proofs
