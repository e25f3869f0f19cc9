import Backchain.Proofs.ClassListing
import Mathlib.Logic.Function.Iterate

/-! Lookups that shorten the path they climb. The loop jumps from the slot it stands on to the one two links above, and
first lets the former point to the latter. It thus rewrites links that it and other lookups follow, but each time to a
slot that was above before. Hence it ends at the root that a climb without writing finds, every tree keeps its slots, and
nothing that can be asked of the partition has another answer afterwards. -/

namespace Backchain.Proofs
open Backchain.Partition

/-- The loop of a climb ends at `found`. Every link is read at a slot that is there. -/
inductive Climbs (partition : Partition) : (slot found : Nat) → Prop where
  | top {slot} (inside : slot < partition.size) (here : partition.parent slot = slot) : Climbs partition slot slot
  | up {slot found} (inside : slot < partition.size) (linked : partition.parent slot ≠ slot)
      (rest : Climbs partition (partition.parent slot) found) : Climbs partition slot found

/-- The loop of a lookup ends at `found` and leaves `after` behind. Every link is read and written at a slot that is
there, and read as the turns before have left it. -/
inductive Halves : (partition : Partition) → (slot found : Nat) → (after : Partition) → Prop where
  | top {partition slot} (inside : slot < partition.size) (here : partition.parent slot = slot) :
      Halves partition slot slot partition
  | jump {partition slot found after} (inside : slot < partition.size) (linked : partition.parent slot ≠ slot)
      (next : partition.parent slot < partition.size)
      (rest : Halves (partition.setParent slot (partition.parent (partition.parent slot)))
        (partition.parent (partition.parent slot)) found after) : Halves partition slot found after

/-- A proper ancestor. -/
def Above (partition : Partition) (slot upper : Nat) : Prop :=
  upper ≠ slot ∧ ∃ links, partition.parent^[links] slot = upper

/-- Every other slot on the way from a slot to its root. -/
def Visited (partition : Partition) (start slot : Nat) : Prop :=
  ∃ turns, partition.parent^[2 * turns] start = slot

variable {partition after : Partition} {slot found : Nat} {history : List (Key × Key)}

/-! ### Loops that end -/

theorem Halves.unique {other : Nat} {last : Partition} (first : Halves partition slot found after)
    (second : Halves partition slot other last) : found = other ∧ after = last := by
  induction first with
  | top _ here =>
    cases second with
    | top => exact ⟨rfl, rfl⟩
    | jump _ linked => exact absurd here linked
  | jump _ linked _ _ ih =>
    cases second with
    | top _ here => exact absurd here linked
    | jump _ _ _ rest => exact ih rest

namespace WellFormed

theorem climbs_iff (valid : WellFormed partition) :
    Climbs partition slot found ↔ slot < partition.size ∧ found = partition.root slot := by
  constructor
  · intro climbs
    induction climbs with
    | top inside here => exact ⟨inside, (root_eq_self here).symm⟩
    | up inside _ _ ih => exact ⟨inside, ih.2.trans (valid.root_parent _)⟩
  · rintro ⟨inside, rfl⟩
    induction slot using valid.root_induction with
    | top slot here =>
      rw [root_eq_self here]
      exact .top inside here
    | below slot linked ih =>
      rw [← valid.root_parent]
      exact .up inside linked (ih (valid.inside slot inside))

theorem halves_halve (valid : WellFormed partition) {fuel : Nat} (inside : slot < partition.size)
    (enough : headroom partition slot ≤ fuel) :
    Halves partition slot (halve fuel partition slot).1 (halve fuel partition slot).2 := by
  induction fuel generalizing partition slot with
  | zero => exact .top inside (valid.parent_eq_of_headroom_eq_zero (Nat.le_zero.mp enough))
  | succ fuel ih =>
    rw [halve]
    split
    next here => exact .top inside here
    next linked =>
      have skipped := valid.skip_parent linked
      have lower := valid.headroom_skip_lt linked
      have next := valid.inside slot inside
      have above := valid.inside (partition.parent slot) next
      exact .jump inside linked next (ih skipped.wellFormed (by rwa [skipped.size]) (by omega))

theorem halves_iff (valid : WellFormed partition) (inside : slot < partition.size) :
    Halves partition slot found after ↔ found = partition.root slot ∧ after = (partition.halvedRoot slot).2 := by
  have halves := valid.halves_halve inside (headroom_le_size partition slot)
  change Halves partition slot (partition.halvedRoot slot).1 (partition.halvedRoot slot).2 at halves
  rw [(valid.halvedRoot_shortens slot).1] at halves
  constructor
  · exact fun other => other.unique halves
  · rintro ⟨rfl, rfl⟩
    exact halves

/-! ### The links that are rewritten -/

theorem rank_le_iterate (valid : WellFormed partition) (slot links : Nat) :
    partition.rank slot ≤ partition.rank (partition.parent^[links] slot) := by
  induction links with
  | zero => exact le_rfl
  | succ links ih =>
    rw [Function.iterate_succ_apply']
    exact ih.trans (valid.rank_le_parent _)

/-- No path leads back to where it began. -/
theorem iterate_ne (valid : WellFormed partition) (linked : partition.parent slot ≠ slot) (links : Nat) :
    partition.parent^[links + 1] slot ≠ slot := by
  have rises : partition.rank slot < partition.rank (partition.parent^[links + 1] slot) :=
    (valid.rises slot linked).trans_le (valid.rank_le_iterate _ links)
  intro back
  rw [back] at rises
  exact lt_irrefl _ rises

/-- A turn writes below everything that is still to be climbed. -/
theorem iterate_skip (valid : WellFormed partition) (linked : partition.parent slot ≠ slot) (links : Nat) :
    (partition.setParent slot (partition.parent (partition.parent slot))).parent^[links]
        (partition.parent (partition.parent slot)) = partition.parent^[links + 2] slot := by
  induction links with
  | zero => rfl
  | succ links ih =>
    rw [Function.iterate_succ_apply', ih, parent_setParent (lt_size_of_parent_ne linked),
      if_neg (valid.iterate_ne linked (links + 1)), ← Function.iterate_succ_apply' partition.parent]

theorem visited_iff (valid : WellFormed partition) (linked : partition.parent slot ≠ slot) (other : Nat) :
    Visited partition slot other ↔ other = slot ∨
      Visited (partition.setParent slot (partition.parent (partition.parent slot)))
        (partition.parent (partition.parent slot)) other := by
  constructor
  · rintro ⟨turns, rfl⟩
    cases turns with
    | zero => exact Or.inl rfl
    | succ turns => exact Or.inr ⟨turns, valid.iterate_skip linked _⟩
  · rintro (rfl | ⟨turns, rfl⟩)
    · exact ⟨0, rfl⟩
    · exact ⟨turns + 1, (valid.iterate_skip linked _).symm⟩

end WellFormed

/-- What a lookup does to the links: the slots it has stood on point two links further up, and all others stay. -/
theorem Halves.parent_eq (halves : Halves partition slot found after) (valid : WellFormed partition) (other : Nat) :
    (Visited partition slot other → after.parent other = partition.parent (partition.parent other)) ∧
      (¬ Visited partition slot other → after.parent other = partition.parent other) := by
  induction halves with
  | top _ here =>
    refine ⟨?_, fun _ => rfl⟩
    rintro ⟨turns, rfl⟩
    rw [Function.iterate_fixed here, here, here]
  | @jump partition slot found after inside linked _ _ ih =>
    obtain ⟨visited, unvisited⟩ := ih (valid.skip_parent linked).wellFormed
    have parent := parent_setParent inside (partition.parent (partition.parent slot))
    rw [valid.visited_iff linked]
    -- The turn has written the first link only, and no slot of the way that is left is the first one again.
    constructor
    · intro stood
      by_cases later : Visited (partition.setParent slot (partition.parent (partition.parent slot)))
          (partition.parent (partition.parent slot)) other
      · have ⟨turns, here⟩ := later
        rw [valid.iterate_skip linked] at here
        have different : other ≠ slot := here ▸ valid.iterate_ne linked _
        have parentDifferent : partition.parent other ≠ slot := by
          rw [← here, ← Function.iterate_succ_apply' partition.parent]
          exact valid.iterate_ne linked _
        rw [visited later, parent, parent, if_neg different, if_neg parentDifferent]
      · obtain rfl := stood.resolve_right later
        rw [unvisited later, parent, if_pos rfl]
    · intro never
      obtain ⟨different, later⟩ := not_or.mp never
      rw [unvisited later, parent, if_neg different]

theorem Halves.visited_of_parent_ne (halves : Halves partition slot found after) (valid : WellFormed partition)
    {other : Nat} (changed : after.parent other ≠ partition.parent other) :
    Visited partition slot other ∧ Above partition other (after.parent other) := by
  obtain ⟨visited, unvisited⟩ := halves.parent_eq valid other
  have stood : Visited partition slot other := by
    by_contra never
    exact changed (unvisited never)
  have linked : partition.parent other ≠ other := by
    intro top
    rw [visited stood, top] at changed
    exact changed top
  rw [visited stood]
  exact ⟨stood, valid.iterate_ne linked 1, 2, rfl⟩

/-! ### What cannot be seen -/

namespace Shortened
variable {before : Partition}

theorem node (shortened : Shortened before after) (slot : Nat) :
    after.nodes[slot]? = before.nodes[slot]?.map fun node => { node with parent := after.parent slot } := by
  have key : after.nodes[slot]?.map Node.key = before.nodes[slot]?.map Node.key := by
    simpa [Proofs.keys] using congrArg (·[slot]?) shortened.keys
  have rank := shortened.rank slot
  have value := shortened.value slot
  rw [rank_eq, rank_eq] at rank
  rw [value_eq, value_eq] at value
  rw [Proofs.parent_eq]
  cases old : before.nodes[slot]? with
  | none => simpa [old] using key
  | some node =>
    cases new : after.nodes[slot]? with
    | none => simp [old, new] at key
    | some other =>
      simp only [old, new, Option.map_some, Option.getD_some, Option.some.injEq] at key rank value ⊢
      rw [← key, ← rank, ← value]

theorem distinct (shortened : Shortened before after) : (Proofs.keys before).Nodup :=
  shortened.keys ▸ shortened.wellFormed.distinct

theorem slot? (shortened : Shortened before after) (key : Key) : after.slot? key = before.slot? key := by
  apply Option.ext
  intro slot
  rw [slot?_eq_some_iff shortened.wellFormed.distinct, slot?_eq_some_iff shortened.distinct, shortened.keys]

theorem valueOf (shortened : Shortened before after) (key : Key) : after.valueOf key = before.valueOf key := by
  simp only [Partition.valueOf, shortened.slot?, shortened.root, shortened.value]

theorem sameClass (shortened : Shortened before after) (a b : Key) :
    after.sameClass a b = before.sameClass a b := by
  simp only [Partition.sameClass, shortened.slot?, shortened.root]

theorem classes (shortened : Shortened before after) : after.classes = before.classes := by
  have rootOf : rootOf after = rootOf before := by
    funext key
    rw [Proofs.rootOf, Proofs.rootOf, shortened.keys, shortened.root]
  simp only [classes_eq shortened.wellFormed.distinct, classes_eq shortened.distinct, shortened.keys, rootOf,
    shortened.value]

end Shortened

/-- Path halving is invisible. From any slot of a partition that has been built the loop ends, at the root that a climb
finds. It has changed parents alone, of every other slot on the way, each of which now points to its former grandparent.
The climb from any slot ends where it ended before, ranks still rise along every link, and all answers are the same. -/
theorem halving_invisible (built : Built history partition) (inside : slot < partition.size) :
    let after := (partition.halvedRoot slot).2
    (partition.halvedRoot slot).1 = partition.root slot ∧
    (∀ found left, Halves partition slot found left ↔ found = partition.root slot ∧ left = after) ∧
    (∀ other, after.nodes[other]? =
      partition.nodes[other]?.map fun (node : Node) => { node with parent := after.parent other }) ∧
    (∀ other, Visited partition slot other → after.parent other = partition.parent (partition.parent other)) ∧
    (∀ other, after.parent other ≠ partition.parent other →
      Visited partition slot other ∧ Above partition other (after.parent other)) ∧
    (∀ other, after.root other = partition.root other) ∧
    (∀ other top, (Climbs partition other top ↔ other < partition.size ∧ top = partition.root other) ∧
      (Climbs after other top ↔ Climbs partition other top)) ∧
    (∀ key, after.slot? key = partition.slot? key) ∧
    (∀ other, after.rank other = partition.rank other ∧ after.value other = partition.value other) ∧
    (∀ other, after.parent other ≠ other → after.rank other < after.rank (after.parent other)) ∧
    (∀ key, after.valueOf key = partition.valueOf key) ∧
    (∀ a b, after.sameClass a b = partition.sameClass a b) ∧
    after.classes = partition.classes := by
  intro after
  have valid := built.represents.wellFormed
  obtain ⟨found, shortened⟩ := valid.halvedRoot_shortens slot
  have halves : Halves partition slot (partition.root slot) after := (valid.halves_iff inside).mpr ⟨rfl, rfl⟩
  refine ⟨found, fun found left => valid.halves_iff inside, shortened.node, fun other => (halves.parent_eq valid other).1,
    fun other => halves.visited_of_parent_ne valid, shortened.root, fun other top => ⟨valid.climbs_iff, ?_⟩,
    shortened.slot?, fun other => ⟨shortened.rank other, shortened.value other⟩, shortened.wellFormed.rises,
    shortened.valueOf, shortened.sameClass, shortened.classes⟩
  rw [shortened.wellFormed.climbs_iff, valid.climbs_iff, shortened.size, shortened.root]

/-- A tree of the least size in which a path has three links. -/
def tall : Partition :=
  ⟨#[⟨.var "A" 0, 0, 3, none⟩, ⟨.var "B" 0, 0, 0, none⟩, ⟨.var "C" 0, 0, 1, none⟩, ⟨.var "D" 0, 2, 0, none⟩,
    ⟨.var "E" 0, 0, 2, none⟩, ⟨.var "F" 0, 4, 0, none⟩, ⟨.var "G" 0, 4, 1, none⟩, ⟨.var "H" 0, 6, 0, none⟩]⟩

/-- The second jump takes the root for its own grandparent. -/
theorem halving_invisible_tall :
    Built [(.var "A" 0, .var "B" 0), (.var "C" 0, .var "D" 0), (.var "A" 0, .var "C" 0), (.var "E" 0, .var "F" 0),
        (.var "G" 0, .var "H" 0), (.var "E" 0, .var "G" 0), (.var "A" 0, .var "E" 0)] tall ∧
      7 < tall.size ∧ Halves tall 7 0 (tall.setParent 7 4) ∧ Above tall 7 4 ∧
      (tall.setParent 7 4).root 7 = 0 ∧ (tall.setParent 7 4).classes = tall.classes := by
  have built : Built [(.var "A" 0, .var "B" 0), (.var "C" 0, .var "D" 0), (.var "A" 0, .var "C" 0),
      (.var "E" 0, .var "F" 0), (.var "G" 0, .var "H" 0), (.var "E" 0, .var "G" 0), (.var "A" 0, .var "E" 0)] tall := by
    simp only [Built, List.foldlM]
    cbv
  have inside : 7 < tall.size := by decide
  have found : tall.halvedRoot 7 = (0, tall.setParent 7 4) := by cbv
  have halved : (tall.halvedRoot 7).2 = tall.setParent 7 4 := congrArg Prod.snd found
  have top : tall.root 7 = 0 := by decide
  obtain ⟨_, ends, _, _, changed, root, _, _, _, _, _, _, classes⟩ := halving_invisible built inside
  rw [halved] at ends changed root classes
  exact ⟨built, inside, (ends 0 _).mpr ⟨top.symm, rfl⟩, (changed 7 (by decide)).2, (root 7).trans top, classes⟩

end Backchain.Proofs
