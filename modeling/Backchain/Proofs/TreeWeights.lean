import Backchain.Proofs.PartitionClosure
import Mathlib.Algebra.Group.Nat.Defs

/-! Trees that are joined by rank are wide: a root of rank `r` stands above at least `2 ^ r` slots. A rank grows only when
two trees of the same rank become one, and shortening paths moves no slot to another tree. Hence no rank exceeds the
logarithm of the number of slots. -/

namespace Backchain.Proofs
open Backchain.Partition

/-- The slots below a root, itself included. -/
def tree (partition : Partition) (top : Nat) : Finset Nat :=
  {slot ∈ Finset.range partition.size | partition.root slot = top}

structure Weighted (partition : Partition) : Prop where
  wellFormed : WellFormed partition
  weight : ∀ slot, slot < partition.size →
    2 ^ partition.rank (partition.root slot) ≤ (tree partition (partition.root slot)).card

variable {partition after : Partition} {slot top : Nat} {history : List (Key × Key)} {a b : Key}

@[simp] theorem mem_tree : slot ∈ tree partition top ↔ slot < partition.size ∧ partition.root slot = top := by
  simp [tree]

theorem disjoint_tree {other : Nat} (different : top ≠ other) : Disjoint (tree partition top) (tree partition other) := by
  apply Finset.disjoint_left.mpr
  intro slot here there
  exact different ((mem_tree.mp here).2.symm.trans (mem_tree.mp there).2)

theorem card_tree_le_size (partition : Partition) (top : Nat) : (tree partition top).card ≤ partition.size := by
  simpa [tree] using Finset.card_filter_le (Finset.range partition.size) fun slot => partition.root slot = top

theorem card_tree_pos (inside : slot < partition.size) : 0 < (tree partition (partition.root slot)).card :=
  Finset.card_pos.mpr ⟨slot, mem_tree.mpr ⟨inside, rfl⟩⟩

theorem WellFormed.rank_le_root (valid : WellFormed partition) (slot : Nat) :
    partition.rank slot ≤ partition.rank (partition.root slot) := by
  induction slot using valid.root_induction with
  | top slot here => rw [root_eq_self here]
  | below slot linked ih => exact (valid.rises slot linked).le.trans (valid.root_parent slot ▸ ih)

namespace Weighted

theorem weight_of_top (weighted : Weighted partition) (inside : top < partition.size)
    (here : partition.parent top = top) : 2 ^ partition.rank top ≤ (tree partition top).card := by
  have weight := weighted.weight top inside
  rwa [root_eq_self here] at weight

/-- No rank exceeds the logarithm of the number of slots. -/
theorem two_pow_rank_le_size (weighted : Weighted partition) (inside : slot < partition.size) :
    2 ^ partition.rank slot ≤ partition.size :=
  calc 2 ^ partition.rank slot
    _ ≤ 2 ^ partition.rank (partition.root slot) :=
      Nat.pow_le_pow_right Nat.two_pos (weighted.wellFormed.rank_le_root slot)
    _ ≤ (tree partition (partition.root slot)).card := weighted.weight slot inside
    _ ≤ partition.size := card_tree_le_size partition _

theorem rank_lt (weighted : Weighted partition) (inside : slot < partition.size) {bits : Nat}
    (few : partition.size < 2 ^ bits) : partition.rank slot < bits :=
  (Nat.pow_lt_pow_iff_right Nat.one_lt_two).mp ((weighted.two_pow_rank_le_size inside).trans_lt few)

/-! ### What keeps the weights -/

theorem empty : Weighted Partition.empty :=
  ⟨Represents.empty.wellFormed, fun slot inside => absurd inside (Nat.not_lt_zero slot)⟩

theorem shortened (weighted : Weighted partition) (moved : Shortened partition after) : Weighted after where
  wellFormed := moved.wellFormed
  weight slot inside := by
    have same (top : Nat) : tree after top = tree partition top := by
      ext other
      rw [mem_tree, mem_tree, moved.size, moved.root]
    rw [moved.root, moved.rank, same]
    exact weighted.weight slot (moved.size ▸ inside)

theorem enter (weighted : Weighted partition) {key : Key} (absent : key ∉ keys partition) (value : Option String) :
    Weighted (Proofs.enter partition key value) where
  wellFormed := weighted.wellFormed.enter absent value
  weight slot inside := by
    have root := weighted.wellFormed.root_enter absent value
    rw [size_enter] at inside
    rw [rank_enter]
    rcases Nat.lt_succ_iff_lt_or_eq.mp inside with old | last
    · have grown (top : Nat) : tree partition top ⊆ tree (Proofs.enter partition key value) top := by
        intro other member
        rw [mem_tree] at member ⊢
        rw [size_enter, root]
        exact ⟨by omega, member.2⟩
      rw [root]
      exact (weighted.weight slot old).trans (Finset.card_le_card (grown _))
    · have alone : partition.rank ((Proofs.enter partition key value).root slot) = 0 := by
        rw [root, last, root_eq_self (parent_outside le_rfl), rank_outside le_rfl]
      rw [alone]
      exact card_tree_pos (by rwa [size_enter])

theorem intern (weighted : Weighted partition) (key : Key) :
    Weighted (partition.intern key).2 ∧ (partition.intern key).1 < (partition.intern key).2.size ∧
      partition.size ≤ (partition.intern key).2.size ∧ (partition.intern key).2.size ≤ partition.size + 1 := by
  cases found : partition.slot? key with
  | some slot =>
    rw [Partition.intern, found]
    exact ⟨weighted, lt_size_of_slot? found, le_rfl, Nat.le_succ _⟩
  | none =>
    rw [intern_of_slot? found, size_enter]
    exact ⟨weighted.enter (slot?_eq_none_iff.mp found) _, Nat.lt_succ_self _, Nat.le_succ _, le_rfl⟩

/-- The tree that takes another in has the slots of both. -/
theorem card_tree_attach (weighted : Weighted partition) {child root : Nat} (roots : Roots partition child root)
    (lower : partition.rank child ≤ partition.rank root) (value : Option String) :
    (tree (partition.attach child root value) root).card =
      (tree partition child).card + (tree partition root).card := by
  obtain ⟨_, above⟩ := weighted.wellFormed.attach roots lower value
  have union : tree (partition.attach child root value) root = tree partition child ∪ tree partition root := by
    ext other
    rw [Finset.mem_union, mem_tree, mem_tree, mem_tree, size_attach, above, ← and_or_left]
    split <;> simp [*]
  rw [union]
  exact Finset.card_union_of_disjoint (disjoint_tree roots.different)

theorem tree_attach_of_ne (weighted : Weighted partition) {child root : Nat} (roots : Roots partition child root)
    (lower : partition.rank child ≤ partition.rank root) (value : Option String) (notChild : top ≠ child)
    (notRoot : top ≠ root) : tree (partition.attach child root value) top = tree partition top := by
  obtain ⟨_, above⟩ := weighted.wellFormed.attach roots lower value
  ext other
  rw [mem_tree, mem_tree, size_attach, above]
  split
  next taken => rw [taken]; simp [Ne.symm notChild, Ne.symm notRoot]
  next => rfl

theorem attach (weighted : Weighted partition) {child root : Nat} (roots : Roots partition child root)
    (lower : partition.rank child ≤ partition.rank root) (value : Option String) :
    Weighted (partition.attach child root value) := by
  obtain ⟨kept, above⟩ := weighted.wellFormed.attach roots lower value
  have rank := rank_attach partition child root value roots.secondInside
  refine ⟨kept, ?_⟩
  intro slot inside
  rw [size_attach] at inside
  by_cases joined : partition.root slot = child ∨ partition.root slot = root
  · have here : (partition.attach child root value).root slot = root := by
      rw [above]
      split
      next => rfl
      next other => exact joined.resolve_left other
    have weightChild := weighted.weight_of_top roots.firstInside roots.firstTop
    have weightRoot := weighted.weight_of_top roots.secondInside roots.secondTop
    rw [here, weighted.card_tree_attach roots lower value, rank, if_pos rfl]
    -- Two trees of one rank are together as wide as the next rank asks.
    split
    next tie =>
      rw [tie] at weightChild
      rw [Nat.pow_succ]
      omega
    next =>
      rw [Nat.add_zero]
      omega
  · obtain ⟨notChild, notRoot⟩ := not_or.mp joined
    rw [above, if_neg notChild, rank, if_neg notRoot, weighted.tree_attach_of_ne roots lower value notChild notRoot]
    exact weighted.weight slot inside

theorem link (weighted : Weighted partition) {first second : Nat} (roots : Roots partition first second)
    (value : Option String) : Weighted (partition.link first second value) := by
  rw [Partition.link]
  split
  next lower => exact weighted.attach roots lower.le value
  next higher => exact weighted.attach roots.symm (Nat.le_of_not_lt higher) value

theorem intern_both (weighted : Weighted partition) (a b : Key) :
    let first := partition.intern a
    let second := first.2.intern b
    Weighted second.2 ∧ first.1 < second.2.size ∧ second.1 < second.2.size ∧ second.2.size ≤ partition.size + 2 := by
  obtain ⟨first, insideA, _, atMostA⟩ := weighted.intern a
  obtain ⟨second, insideB, atLeastB, atMostB⟩ := first.intern b
  exact ⟨second, by omega, insideB, by omega⟩

/-- What an equation finds when it has named its keys and climbed from both. -/
theorem prepare (weighted : Weighted partition) (a b : Key) :
    let named := ((partition.intern a).2.intern b).2
    let first := named.halvedRoot (partition.intern a).1
    let second := first.2.halvedRoot ((partition.intern a).2.intern b).1
    Weighted second.2 ∧ second.2.size ≤ partition.size + 2 ∧
      (first.1 ≠ second.1 → Roots second.2 first.1 second.1) := by
  intro named first second
  obtain ⟨weighted, insideA, insideB, few⟩ := weighted.intern_both a b
  obtain ⟨foundA, movedA⟩ := weighted.wellFormed.halvedRoot_shortens (partition.intern a).1
  obtain ⟨foundB, movedB⟩ := movedA.wellFormed.halvedRoot_shortens ((partition.intern a).2.intern b).1
  have moved := movedA.trans movedB
  have rootA : first.1 = second.2.root (partition.intern a).1 := by rw [moved.root, ← foundA]
  have rootB : second.1 = second.2.root ((partition.intern a).2.intern b).1 := by rw [movedB.root, ← foundB]
  rw [← moved.size] at insideA insideB few
  rw [rootA, rootB]
  exact ⟨weighted.shortened moved, few, moved.wellFormed.roots insideA insideB⟩

theorem equate (weighted : Weighted partition) (accepted : partition.equate a b = some after) : Weighted after := by
  obtain ⟨ready, _, roots⟩ := weighted.prepare a b
  simp only [Partition.equate] at accepted
  split_ifs at accepted with same
  · cases accepted
    exact ready
  · obtain ⟨merged, _, rfl⟩ := Option.map_eq_some_iff.mp accepted
    exact ready.link (roots same) merged

end Weighted

theorem Built.weighted (built : Built history partition) : Weighted partition := by
  induction history using List.reverseRecOn generalizing partition with
  | nil =>
    cases built
    exact Weighted.empty
  | append_singleton history pair ih =>
    rw [Built, List.foldlM_append, Option.bind_eq_bind, Option.bind_eq_some_iff] at built
    obtain ⟨before, earlier, last⟩ := built
    exact (ih earlier).equate (by simpa using last)

end Backchain.Proofs
