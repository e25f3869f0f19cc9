import Backchain.Partition.Basic
import Mathlib.Data.Finset.Card
import Mathlib.Data.Finset.Range

/-! The forest over the slots of a partition. Ranks rise along every link, so a climb of as many links as there
are slots ends at a root. Halving paths moves links and no root, and hanging one root below another moves the
slots of one tree to the other. -/

namespace Backchain.Proofs
open Backchain.Partition

def keys (partition : Partition) : List Key := partition.nodes.toList.map Node.key

structure WellFormed (partition : Partition) : Prop where
  distinct : (keys partition).Nodup
  inside : ∀ slot, slot < partition.size → partition.parent slot < partition.size
  rises : ∀ slot, partition.parent slot ≠ slot → partition.rank slot < partition.rank (partition.parent slot)

variable {partition after : Partition} {slot : Nat}

theorem keys_length (partition : Partition) : (keys partition).length = partition.size := by
  simp [keys, Partition.size]

theorem node_at (partition : Partition) (inside : slot < partition.size) :
    ∃ node, partition.nodes[slot]? = some node :=
  ⟨_, Array.getElem?_eq_getElem inside⟩

theorem parent_eq (partition : Partition) (slot : Nat) :
    partition.parent slot = (partition.nodes[slot]?.map Node.parent).getD slot := by
  rw [parent]
  cases partition.nodes[slot]? <;> rfl

theorem rank_eq (partition : Partition) (slot : Nat) :
    partition.rank slot = (partition.nodes[slot]?.map Node.rank).getD 0 := by
  rw [rank]
  cases partition.nodes[slot]? <;> rfl

theorem value_eq (partition : Partition) (slot : Nat) :
    partition.value slot = (partition.nodes[slot]?.map Node.value).getD none := by
  rw [value]
  cases partition.nodes[slot]? <;> rfl

theorem parent_outside (outside : partition.size ≤ slot) : partition.parent slot = slot := by
  simp [parent, Array.getElem?_eq_none outside]

theorem rank_outside (outside : partition.size ≤ slot) : partition.rank slot = 0 := by
  simp [rank, Array.getElem?_eq_none outside]

theorem lt_size_of_parent_ne (linked : partition.parent slot ≠ slot) : slot < partition.size := by
  by_contra outside
  exact linked (parent_outside (Nat.le_of_not_lt outside))

/-! ### Looking up keys -/

theorem slot?_eq_none_iff {key : Key} : partition.slot? key = none ↔ key ∉ keys partition := by
  simp [slot?, keys, Array.findIdx?_eq_none_iff]

theorem contains_iff {key : Key} : partition.contains key = true ↔ key ∈ keys partition := by
  rw [contains, Option.isSome_iff_ne_none, ne_eq, slot?_eq_none_iff, not_not]

theorem lt_size_of_slot? {key : Key} (known : partition.slot? key = some slot) : slot < partition.size :=
  (Array.findIdx?_eq_some_iff_getElem.mp known).1

theorem slot?_eq_some_iff (distinct : (keys partition).Nodup) {key : Key} :
    partition.slot? key = some slot ↔ (keys partition)[slot]? = some key := by
  have found {position} (present : partition.slot? key = some position) :
      (keys partition)[position]? = some key := by
    obtain ⟨inside, same, _⟩ := Array.findIdx?_eq_some_iff_getElem.mp present
    simpa [keys, Array.getElem?_eq_getElem inside] using same
  constructor
  · exact found
  · intro here
    cases present : partition.slot? key with
    | none => exact absurd (List.mem_of_getElem? here) (slot?_eq_none_iff.mp present)
    | some position =>
      have inside := (List.getElem?_eq_some_iff.mp here).1
      rw [(List.getElem?_inj inside distinct).mp (here.trans (found present).symm)]

/-! ### Climbing -/

/-- How many slots are of higher rank. No path upwards is longer. -/
def headroom (partition : Partition) (slot : Nat) : Nat :=
  {other ∈ Finset.range partition.size | partition.rank slot < partition.rank other}.card

theorem headroom_le_size (partition : Partition) (slot : Nat) : headroom partition slot ≤ partition.size := by
  simpa [headroom] using
    Finset.card_filter_le (Finset.range partition.size) fun other => partition.rank slot < partition.rank other

/-- A slot is not above itself. -/
theorem headroom_lt_size (inside : slot < partition.size) : headroom partition slot < partition.size := by
  have fewer : headroom partition slot < (Finset.range partition.size).card := by
    apply Finset.card_lt_card
    refine Finset.filter_ssubset.mpr ⟨slot, ?_, lt_irrefl _⟩
    exact Finset.mem_range.mpr inside
  rwa [Finset.card_range] at fewer

theorem root_eq_self (top : partition.parent slot = slot) : partition.root slot = slot := by
  rw [root]
  cases partition.size <;> simp [climb, top]

namespace WellFormed

theorem headroom_parent_lt (valid : WellFormed partition) (linked : partition.parent slot ≠ slot) :
    headroom partition (partition.parent slot) < headroom partition slot := by
  have rises := valid.rises slot linked
  have above := valid.inside slot (lt_size_of_parent_ne linked)
  apply Finset.card_lt_card
  refine Finset.ssubset_iff_of_subset ?_ |>.mpr ⟨partition.parent slot, ?_, ?_⟩
  · exact Finset.monotone_filter_right _ fun other _ higher => rises.trans higher
  · simp [above, rises]
  · simp

theorem headroom_parent_le (valid : WellFormed partition) (slot : Nat) :
    headroom partition (partition.parent slot) ≤ headroom partition slot := by
  by_cases top : partition.parent slot = slot
  · rw [top]
  · exact (valid.headroom_parent_lt top).le

theorem parent_eq_of_headroom_eq_zero (valid : WellFormed partition) (none : headroom partition slot = 0) :
    partition.parent slot = slot := by
  by_contra linked
  have shorter := valid.headroom_parent_lt linked
  omega

/-- A function that is constant along links and the identity on roots is what every long enough climb
computes. -/
theorem climb_eq (valid : WellFormed partition) {root : Nat → Nat}
    (stays : ∀ slot, partition.parent slot = slot → root slot = slot)
    (follows : ∀ slot, root (partition.parent slot) = root slot) {fuel : Nat}
    (enough : headroom partition slot ≤ fuel) : partition.climb fuel slot = root slot := by
  induction fuel generalizing slot with
  | zero =>
    have top := valid.parent_eq_of_headroom_eq_zero (Nat.le_zero.mp enough)
    exact (stays slot top).symm
  | succ fuel ih =>
    rw [climb]
    split
    next top => exact (stays slot top).symm
    next linked =>
      have shorter := valid.headroom_parent_lt linked
      rw [ih (by omega), follows]

theorem climb_stable (valid : WellFormed partition) {fuel more : Nat}
    (enough : headroom partition slot ≤ fuel) (ample : headroom partition slot ≤ more) :
    partition.climb fuel slot = partition.climb more slot := by
  induction fuel generalizing slot more with
  | zero =>
    have top := valid.parent_eq_of_headroom_eq_zero (Nat.le_zero.mp enough)
    cases more <;> simp [climb, top]
  | succ fuel ih =>
    by_cases top : partition.parent slot = slot
    · cases more <;> simp [climb, top]
    · have shorter := valid.headroom_parent_lt top
      obtain ⟨more, rfl⟩ := Nat.exists_eq_add_one_of_ne_zero (show more ≠ 0 by omega)
      simp only [climb, if_neg top]
      exact ih (by omega) (by omega)

theorem root_parent (valid : WellFormed partition) (slot : Nat) :
    partition.root (partition.parent slot) = partition.root slot := by
  by_cases top : partition.parent slot = slot
  · rw [top]
  · have shorter := valid.headroom_parent_lt top
    have bound := headroom_le_size partition slot
    have step : partition.climb (partition.size + 1) slot = partition.root (partition.parent slot) := by
      rw [climb, if_neg top, root]
    rw [← step]
    exact valid.climb_stable (by omega) bound

/-- The roots of a forest are the only function with these two properties. -/
theorem root_eq (valid : WellFormed partition) {root : Nat → Nat}
    (stays : ∀ slot, partition.parent slot = slot → root slot = slot)
    (follows : ∀ slot, root (partition.parent slot) = root slot) (slot : Nat) :
    partition.root slot = root slot :=
  valid.climb_eq stays follows (headroom_le_size partition slot)

theorem root_induction (valid : WellFormed partition) {motive : Nat → Prop}
    (top : ∀ slot, partition.parent slot = slot → motive slot)
    (below : ∀ slot, partition.parent slot ≠ slot → motive (partition.parent slot) → motive slot) (slot : Nat) :
    motive slot := by
  induction bound : headroom partition slot using Nat.strongRecOn generalizing slot with
  | ind _ ih =>
    by_cases here : partition.parent slot = slot
    · exact top slot here
    · exact below slot here (ih _ (bound ▸ valid.headroom_parent_lt here) _ rfl)

theorem parent_root (valid : WellFormed partition) (slot : Nat) :
    partition.parent (partition.root slot) = partition.root slot := by
  induction slot using valid.root_induction with
  | top slot here => rw [root_eq_self here, here]
  | below slot _ ih => rwa [valid.root_parent] at ih

theorem root_lt_size (valid : WellFormed partition) (inside : slot < partition.size) :
    partition.root slot < partition.size := by
  induction slot using valid.root_induction with
  | top slot here => rwa [root_eq_self here]
  | below slot _ ih => exact valid.root_parent slot ▸ ih (valid.inside slot inside)

theorem rank_le_parent (valid : WellFormed partition) (slot : Nat) :
    partition.rank slot ≤ partition.rank (partition.parent slot) := by
  by_cases top : partition.parent slot = slot
  · rw [top]
  · exact (valid.rises slot top).le

end WellFormed

/-! ### Halving paths -/

@[simp] theorem keys_setParent (partition : Partition) (slot above : Nat) :
    keys (partition.setParent slot above) = keys partition := by
  apply List.ext_getElem?
  intro position
  simp only [keys, setParent, List.getElem?_map, Array.getElem?_toList, Array.getElem?_modify]
  split <;> simp [Function.comp_def]

@[simp] theorem size_setParent (partition : Partition) (slot above : Nat) :
    (partition.setParent slot above).size = partition.size := by
  simp [setParent, Partition.size]

@[simp] theorem rank_setParent (partition : Partition) (slot above other : Nat) :
    (partition.setParent slot above).rank other = partition.rank other := by
  rw [rank_eq, rank_eq, setParent, Array.getElem?_modify]
  split <;> simp [Function.comp_def]

@[simp] theorem value_setParent (partition : Partition) (slot above other : Nat) :
    (partition.setParent slot above).value other = partition.value other := by
  rw [value_eq, value_eq, setParent, Array.getElem?_modify]
  split <;> simp [Function.comp_def]

theorem parent_setParent (inside : slot < partition.size) (above other : Nat) :
    (partition.setParent slot above).parent other = if other = slot then above else partition.parent other := by
  rw [parent_eq, parent_eq, setParent, Array.getElem?_modify]
  by_cases same : other = slot
  · subst other
    have present : partition.nodes[slot]? = some partition.nodes[slot] := Array.getElem?_eq_getElem inside
    simp [present]
  · simp [same, Ne.symm same]

/-- Moving links within the trees changes nothing that can be observed. -/
structure Shortened (before after : Partition) : Prop where
  wellFormed : WellFormed after
  keys : keys after = keys before
  rank : ∀ slot, after.rank slot = before.rank slot
  value : ∀ slot, after.value slot = before.value slot
  root : ∀ slot, after.root slot = before.root slot

namespace Shortened
variable {before middle : Partition}

theorem refl (valid : WellFormed before) : Shortened before before :=
  ⟨valid, rfl, fun _ => rfl, fun _ => rfl, fun _ => rfl⟩

theorem trans (first : Shortened before middle) (second : Shortened middle after) : Shortened before after :=
  ⟨second.wellFormed, second.keys.trans first.keys, fun slot => (second.rank slot).trans (first.rank slot),
    fun slot => (second.value slot).trans (first.value slot),
    fun slot => (second.root slot).trans (first.root slot)⟩

theorem size (shortened : Shortened before after) : after.size = before.size := by
  rw [← keys_length, shortened.keys, keys_length]

theorem headroom (shortened : Shortened before after) (slot : Nat) :
    headroom after slot = headroom before slot := by
  simp only [Proofs.headroom, shortened.size, shortened.rank]

end Shortened

namespace WellFormed

theorem skip_parent (valid : WellFormed partition) (linked : partition.parent slot ≠ slot) :
    Shortened partition (partition.setParent slot (partition.parent (partition.parent slot))) := by
  have inside := lt_size_of_parent_ne linked
  have parent := parent_setParent inside (partition.parent (partition.parent slot))
  have kept : WellFormed (partition.setParent slot (partition.parent (partition.parent slot))) := by
    refine ⟨?_, ?_, ?_⟩
    · simpa only [keys_setParent] using valid.distinct
    · intro other bound
      rw [size_setParent] at bound ⊢
      rw [parent]
      split
      · exact valid.inside _ (valid.inside slot inside)
      · exact valid.inside other bound
    · intro other
      rw [parent, rank_setParent, rank_setParent]
      split
      next same =>
        intro _
        rw [same]
        exact (valid.rises slot linked).trans_le (valid.rank_le_parent _)
      next => exact valid.rises other
  refine ⟨kept, keys_setParent .., rank_setParent _ _ _, value_setParent _ _ _, ?_⟩
  apply kept.root_eq
  · intro other top
    rw [parent] at top
    split at top
    next same =>
      have rises := (valid.rises slot linked).trans_le (valid.rank_le_parent _)
      rw [top, same] at rises
      exact absurd rises (lt_irrefl _)
    next => exact root_eq_self top
  · intro other
    rw [parent]
    split
    next same => rw [same, valid.root_parent, valid.root_parent]
    next => exact valid.root_parent other

/-- A turn of the loop leaves less to climb. -/
theorem headroom_skip_lt (valid : WellFormed partition) (linked : partition.parent slot ≠ slot) :
    headroom (partition.setParent slot (partition.parent (partition.parent slot)))
      (partition.parent (partition.parent slot)) < headroom partition slot := by
  rw [(valid.skip_parent linked).headroom]
  exact (valid.headroom_parent_le _).trans_lt (valid.headroom_parent_lt linked)

theorem halve_shortens (valid : WellFormed partition) {fuel : Nat} (enough : headroom partition slot ≤ fuel) :
    (halve fuel partition slot).1 = partition.root slot ∧
      Shortened partition (halve fuel partition slot).2 := by
  induction fuel generalizing partition slot with
  | zero =>
    have top := valid.parent_eq_of_headroom_eq_zero (Nat.le_zero.mp enough)
    exact ⟨(root_eq_self top).symm, Shortened.refl valid⟩
  | succ fuel ih =>
    rw [halve]
    split
    next top => exact ⟨(root_eq_self top).symm, Shortened.refl valid⟩
    next linked =>
      have skipped := valid.skip_parent linked
      have lower := valid.headroom_skip_lt linked
      obtain ⟨found, rest⟩ := ih skipped.wellFormed (Nat.le_of_lt_succ (lower.trans_le enough))
      refine ⟨?_, skipped.trans rest⟩
      rw [found, skipped.root, valid.root_parent, valid.root_parent]

theorem halvedRoot_shortens (valid : WellFormed partition) (slot : Nat) :
    (partition.halvedRoot slot).1 = partition.root slot ∧
      Shortened partition (partition.halvedRoot slot).2 :=
  valid.halve_shortens (headroom_le_size partition slot)

end WellFormed

/-! ### Entering keys -/

/-- The partition with one more slot, which is a tree of its own. -/
def enter (partition : Partition) (key : Key) (value : Option String) : Partition :=
  ⟨partition.nodes.push ⟨key, partition.size, 0, value⟩⟩

theorem intern_of_slot? {key : Key} (missing : partition.slot? key = none) :
    partition.intern key = (partition.size, enter partition key key.constant?) := by
  simp only [intern, missing]
  rfl

section
variable (partition : Partition) (key : Key) (value : Option String)

@[simp] theorem keys_enter : keys (enter partition key value) = keys partition ++ [key] := by
  simp [keys, enter]

@[simp] theorem size_enter : (enter partition key value).size = partition.size + 1 := by
  simp [Partition.size, enter]

theorem node_enter (slot : Nat) : (enter partition key value).nodes[slot]? =
    if slot = partition.size then some ⟨key, partition.size, 0, value⟩ else partition.nodes[slot]? :=
  Array.getElem?_push

@[simp] theorem parent_enter (slot : Nat) : (enter partition key value).parent slot = partition.parent slot := by
  rw [parent_eq, node_enter]
  split
  next last => rw [last, parent_outside (Nat.le_refl _)]; rfl
  next => rw [parent_eq]

@[simp] theorem rank_enter (slot : Nat) : (enter partition key value).rank slot = partition.rank slot := by
  rw [rank_eq, node_enter]
  split
  next last => rw [last, rank_outside (Nat.le_refl _)]; rfl
  next => rw [rank_eq]

theorem value_enter (slot : Nat) : (enter partition key value).value slot =
    if slot = partition.size then value else partition.value slot := by
  rw [value_eq, node_enter]
  split
  next => rfl
  next => rw [value_eq]

theorem rank_intern (slot : Nat) : (partition.intern key).2.rank slot = partition.rank slot := by
  cases known : partition.slot? key with
  | some number => rw [Partition.intern, known]
  | none => rw [intern_of_slot? known, rank_enter]

end

namespace WellFormed

theorem enter (valid : WellFormed partition) {key : Key} (absent : key ∉ keys partition) (value : Option String) :
    WellFormed (enter partition key value) where
  distinct := by
    rw [keys_enter, List.nodup_append]
    refine ⟨valid.distinct, List.nodup_singleton key, ?_⟩
    intro old member new single same
    rw [same, List.mem_singleton.mp single] at member
    exact absent member
  inside slot inside := by
    rw [size_enter] at inside ⊢
    rw [parent_enter]
    by_cases last : slot = partition.size
    · rw [last, parent_outside (Nat.le_refl _)]
      exact Nat.lt_add_one _
    · exact (valid.inside slot (by omega)).trans (Nat.lt_add_one _)
  rises slot linked := by
    rw [parent_enter] at linked ⊢
    rw [rank_enter, rank_enter]
    exact valid.rises slot linked

theorem root_enter (valid : WellFormed partition) {key : Key} (absent : key ∉ keys partition) (value : Option String)
    (slot : Nat) : (Proofs.enter partition key value).root slot = partition.root slot := by
  revert slot
  apply (valid.enter absent value).root_eq
  · intro slot top
    rw [parent_enter] at top
    exact root_eq_self top
  · intro slot
    rw [parent_enter, valid.root_parent]

end WellFormed

/-! ### Joining trees -/

section
variable (partition : Partition) (child root : Nat) (value : Option String)

@[simp] theorem keys_attach : keys (partition.attach child root value) = keys partition := by
  rw [← keys_setParent partition child root]
  apply List.ext_getElem?
  intro position
  simp only [keys, attach, List.getElem?_map, Array.getElem?_toList, Array.getElem?_modify]
  split <;> simp [Function.comp_def]

@[simp] theorem size_attach : (partition.attach child root value).size = partition.size := by
  rw [← keys_length, keys_attach, keys_length]

theorem parent_attach (inside : child < partition.size) (other : Nat) :
    (partition.attach child root value).parent other = if other = child then root else partition.parent other := by
  rw [← parent_setParent inside, parent_eq, parent_eq, attach, Array.getElem?_modify]
  split <;> simp [Function.comp_def]

theorem rank_attach (inside : root < partition.size) (other : Nat) :
    (partition.attach child root value).rank other =
      if other = root then partition.rank root + (if partition.rank child = partition.rank root then 1 else 0)
      else partition.rank other := by
  have kept := rank_setParent partition child root other
  rw [rank_eq, attach, Array.getElem?_modify]
  by_cases same : other = root
  · subst other
    obtain ⟨node, present⟩ := node_at (partition.setParent child root) (by rwa [size_setParent])
    rw [rank_eq, present] at kept
    simp [present, ← kept]
  · rw [if_neg (Ne.symm same), if_neg same, ← rank_eq, kept]

theorem value_attach (inside : root < partition.size) (other : Nat) :
    (partition.attach child root value).value other = if other = root then value else partition.value other := by
  rw [value_eq, attach, Array.getElem?_modify]
  by_cases same : other = root
  · subst other
    obtain ⟨node, present⟩ := node_at (partition.setParent child root) (by rwa [size_setParent])
    simp [present]
  · rw [if_neg (Ne.symm same), if_neg same, ← value_eq, value_setParent]

end

/-- The roots of two trees. -/
structure Roots (partition : Partition) (first second : Nat) : Prop where
  firstTop : partition.parent first = first
  secondTop : partition.parent second = second
  firstInside : first < partition.size
  secondInside : second < partition.size
  different : first ≠ second

theorem Roots.symm {first second : Nat} (roots : Roots partition first second) : Roots partition second first :=
  ⟨roots.secondTop, roots.firstTop, roots.secondInside, roots.firstInside, roots.different.symm⟩

theorem WellFormed.roots (valid : WellFormed partition) {first second : Nat} (firstInside : first < partition.size)
    (secondInside : second < partition.size) (different : partition.root first ≠ partition.root second) :
    Roots partition (partition.root first) (partition.root second) :=
  ⟨valid.parent_root first, valid.parent_root second, valid.root_lt_size firstInside, valid.root_lt_size secondInside,
    different⟩

/-- The tree of a root is taken in by another that is no lower. -/
theorem WellFormed.attach (valid : WellFormed partition) {child root : Nat} (roots : Roots partition child root)
    (lower : partition.rank child ≤ partition.rank root) (value : Option String) :
    WellFormed (partition.attach child root value) ∧
      ∀ slot, (partition.attach child root value).root slot =
        if partition.root slot = child then root else partition.root slot := by
  obtain ⟨childTop, rootTop, childInside, rootInside, different⟩ := roots
  have parent := parent_attach partition child root value childInside
  have rank := rank_attach partition child root value rootInside
  have kept : WellFormed (partition.attach child root value) := by
    refine ⟨?_, ?_, ?_⟩
    · simpa only [keys_attach] using valid.distinct
    · intro slot inside
      rw [size_attach] at inside ⊢
      rw [parent]
      split
      · exact rootInside
      · exact valid.inside slot inside
    · intro slot linked
      rw [parent] at linked ⊢
      by_cases here : slot = child
      · subst slot
        rw [if_pos rfl, rank, rank, if_neg different, if_pos rfl]
        split <;> omega
      · rw [if_neg here] at linked ⊢
        have rises := valid.rises slot linked
        rw [rank, rank, if_neg fun same : slot = root => linked (same ▸ rootTop)]
        split
        next same => rw [← same]; omega
        next => exact rises
  refine ⟨kept, kept.root_eq ?_ ?_⟩
  · intro slot top
    rw [parent] at top
    split at top
    next here => exact absurd (here.symm.trans top.symm) different
    next here => rw [root_eq_self top, if_neg here]
  · intro slot
    rw [parent]
    split
    next here => rw [here, root_eq_self rootTop, root_eq_self childTop, if_pos rfl, if_neg (Ne.symm different)]
    next => rw [valid.root_parent]

theorem WellFormed.link (valid : WellFormed partition) {first second : Nat} (roots : Roots partition first second)
    (value : Option String) :
    WellFormed (partition.link first second value) ∧
      keys (partition.link first second value) = keys partition ∧
      ∃ top, (top = first ∨ top = second) ∧
        (∀ slot, (partition.link first second value).root slot =
          if partition.root slot = first ∨ partition.root slot = second then top else partition.root slot) ∧
        ∀ slot, (partition.link first second value).value slot =
          if slot = top then value else partition.value slot := by
  rw [Partition.link]
  split
  next lower =>
    obtain ⟨kept, root⟩ := valid.attach roots lower.le value
    refine ⟨kept, keys_attach .., second, Or.inr rfl, fun slot => ?_, value_attach _ _ _ _ roots.secondInside⟩
    rw [root]
    by_cases here : partition.root slot = second <;> simp [here]
  next higher =>
    obtain ⟨kept, root⟩ := valid.attach roots.symm (Nat.le_of_not_lt higher) value
    refine ⟨kept, keys_attach .., first, Or.inl rfl, fun slot => ?_, value_attach _ _ _ _ roots.firstInside⟩
    rw [root]
    by_cases here : partition.root slot = first <;> simp [here]

end Backchain.Proofs
