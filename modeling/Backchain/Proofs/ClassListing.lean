import Backchain.Partition.Classes
import Backchain.Proofs.PartitionHistory
import Backchain.Proofs.SolutionBindings

/-! The classes of a partition as they are listed. The listing follows the order in which the keys were first mentioned and
is determined by the equations alone: roots, ranks and halved paths leave no trace in it. -/

namespace Backchain.Proofs
open Backchain.Partition

/-! ### Groups of a list -/

section
variable {α β : Type} [DecidableEq β]

/-- The items with the same label together, in the order of the labels' first occurrences. -/
def groups (label : α → β) (items : List α) : List (List α) :=
  (items.map label).eraseDups.map fun shared => items.filter (label · == shared)

variable {label : α → β}

theorem groups_cons (item : α) (items : List α) : groups label (item :: items) =
    (item :: items).filter (label · == label item) :: groups label (items.filter (!label · == label item)) := by
  have others : (items.map label).filter (fun shared => !shared == label item) =
      (items.filter (!label · == label item)).map label := List.filter_map
  rw [groups, List.map_cons, List.eraseDups_cons, others, List.map_cons, groups]
  congr 1
  apply List.map_congr_left
  intro shared member
  obtain ⟨other, apart, rfl⟩ := List.mem_map.mp (List.mem_eraseDups.mp member)
  have different : label other ≠ label item := by simpa using List.of_mem_filter apart
  rw [List.filter_filter, List.filter_cons_of_neg (by simpa using different.symm)]
  apply List.filter_congr
  intro item _
  by_cases same : label item = label other <;> simp [same, different]

/-- An item and those with its label go first, and the items without it are fewer. -/
theorem groups_induction (label : α → β) {motive : List α → Prop} (nil : motive [])
    (cons : ∀ item items, motive (items.filter (!label · == label item)) → motive (item :: items)) (items : List α) :
    motive items := by
  induction size : items.length using Nat.strongRecOn generalizing items with
  | ind length ih =>
    cases items with
    | nil => exact nil
    | cons item items =>
      apply cons
      apply ih _ ?_ _ rfl
      rw [← size]
      exact Nat.lt_succ_of_le (List.length_filter_le ..)

theorem flatten_groups_perm (label : α → β) (items : List α) : (groups label items).flatten.Perm items := by
  induction items using groups_induction label with
  | nil => exact .nil
  | cons item items ih =>
    have apart : (item :: items).filter (!label · == label item) = items.filter (!label · == label item) :=
      List.filter_cons_of_neg (by simp)
    rw [groups_cons, List.flatten_cons]
    apply (ih.append_left _).trans
    rw [← apart]
    exact List.filter_append_perm ..

/-- The first items of the groups are in the order of the list. -/
theorem heads_groups_sublist (label : α → β) (items : List α) :
    ((groups label items).filterMap List.head?).Sublist items := by
  induction items using groups_induction label with
  | nil => exact .slnil
  | cons item items ih =>
    have first : ((item :: items).filter (label · == label item)).head? = some item := by
      rw [List.filter_cons_of_pos (by simp), List.head?_cons]
    rw [groups_cons, List.filterMap_cons_some first]
    exact (ih.trans List.filter_sublist).cons_cons item

end

/-! ### Listings -/

/-- What a list of the classes of some equations looks like, given the order of the keys. -/
structure Listing (pairs : List (Key × Key)) (order : List Key) (classes : List Class) : Prop where
  once : (classes.flatMap Class.members).Perm order
  inhabited : ∀ listed ∈ classes, listed.members ≠ []
  linked : ∀ listed ∈ classes, ∀ a ∈ listed.members, ∀ b ∈ order, b ∈ listed.members ↔ Linked pairs a b
  members : ∀ listed ∈ classes, listed.members.Sublist order
  firsts : (classes.filterMap (·.members.head?)).Sublist order
  value : ∀ listed ∈ classes, ∀ name, listed.value = some name ↔ .const name ∈ listed.members

theorem constant?_eq_some_iff {key : Key} {name : String} : key.constant? = some name ↔ key = .const name := by
  cases key <;> simp [Key.constant?]

namespace Listing
open scoped Classical in
/-- The class of a key, read off the order of the keys. -/
noncomputable def classOf (pairs : List (Key × Key)) (order : List Key) (key : Key) : Class :=
  let members := order.filter (Linked pairs key ·)
  ⟨members, members.findSome? Key.constant?⟩

variable {pairs : List (Key × Key)} {order : List Key} {classes : List Class} {listed : Class} {key : Key}

theorem mem_order (valid : Listing pairs order classes) :
    key ∈ order ↔ ∃ listed ∈ classes, key ∈ listed.members := by
  rw [← valid.once.mem_iff, List.mem_flatMap]

theorem value_eq_findSome? (valid : Listing pairs order classes) (member : listed ∈ classes) :
    listed.value = listed.members.findSome? Key.constant? := by
  have value := valid.value listed member
  cases found : listed.members.findSome? Key.constant? with
  | none =>
    have unbound := List.findSome?_eq_none_iff.mp found
    cases own : listed.value with
    | none => rfl
    | some name => cases unbound _ ((value name).mp own)
  | some name =>
    obtain ⟨key, inside, bound⟩ := List.exists_of_findSome?_eq_some found
    exact (value name).mpr (constant?_eq_some_iff.mp bound ▸ inside)

theorem eq_classOf (valid : Listing pairs order classes) (distinct : order.Nodup) (member : listed ∈ classes)
    (inside : key ∈ listed.members) : listed = classOf pairs order key := by
  have linked := valid.linked listed member key inside
  have members : listed.members = (classOf pairs order key).members :=
    eq_filter_of_sublist (valid.members listed member) distinct (by simpa using linked)
  have value : listed.value = (classOf pairs order key).value := by
    rw [valid.value_eq_findSome? member, members]
    rfl
  cases listed
  cases members
  cases value
  rfl

theorem mem_firsts (valid : Listing pairs order classes) (distinct : order.Nodup) (known : key ∈ order) :
    key ∈ classes.filterMap (·.members.head?) ↔ (classOf pairs order key).members.head? = some key := by
  rw [List.mem_filterMap]
  constructor
  · intro found
    obtain ⟨listed, member, first⟩ := found
    rw [← valid.eq_classOf distinct member (List.mem_of_mem_head? first)]
    exact first
  · intro first
    obtain ⟨listed, member, inside⟩ := valid.mem_order.mp known
    refine ⟨listed, member, ?_⟩
    rw [valid.eq_classOf distinct member inside]
    exact first

/-- The listing that the equations and the order of the keys determine. -/
theorem eq_map_classOf (valid : Listing pairs order classes) (distinct : order.Nodup) :
    classes = (order.filter fun key => (classOf pairs order key).members.head? == some key).map
      (classOf pairs order) := by
  have firsts : classes.filterMap (·.members.head?) =
      order.filter fun key => (classOf pairs order key).members.head? == some key := by
    apply eq_filter_of_sublist valid.firsts distinct
    intro key known
    rw [valid.mem_firsts distinct known, beq_iff_eq]
  have each : classes.filterMap (fun listed => listed.members.head?.map (classOf pairs order)) =
      classes.filterMap some := by
    apply List.filterMap_congr
    intro listed member
    obtain ⟨first, rest, shape⟩ := List.exists_cons_of_ne_nil (valid.inhabited listed member)
    have inside : first ∈ listed.members := shape ▸ List.mem_cons_self ..
    rw [shape, List.head?_cons, Option.map_some, ← valid.eq_classOf distinct member inside]
  rw [← firsts, List.map_filterMap, each, List.filterMap_some]

theorem unique {other : List Class} (valid : Listing pairs order classes) (again : Listing pairs order other)
    (distinct : order.Nodup) : other = classes := by
  rw [valid.eq_map_classOf distinct, ← again.eq_map_classOf distinct]

end Listing

/-! ### The classes of a partition -/

/-- The root above a key. -/
def rootOf (partition : Partition) (key : Key) : Nat := partition.root ((keys partition).idxOf key)

variable {partition : Partition} {pairs : List (Key × Key)}

theorem rooted_eq (distinct : (keys partition).Nodup) :
    partition.rooted = (keys partition).map fun key => (rootOf partition key, key) := by
  apply List.ext_getElem?
  intro slot
  simp only [rooted, keys, List.getElem?_map, List.getElem?_zipIdx, Option.map_map]
  cases found : partition.nodes.toList[slot]? with
  | none => rfl
  | some node =>
    have here : (keys partition)[slot]? = some node.key := by simp [keys, found]
    obtain ⟨inside, same⟩ := List.getElem?_eq_some_iff.mp here
    have position : (keys partition).idxOf node.key = slot := same ▸ distinct.idxOf_getElem slot inside
    simp [rootOf, position]

theorem classes_eq (distinct : (keys partition).Nodup) : partition.classes =
    ((keys partition).map (rootOf partition)).eraseDups.map fun root =>
      ⟨(keys partition).filter (rootOf partition · == root), partition.value root⟩ := by
  have roots : partition.rooted.map Prod.fst = (keys partition).map (rootOf partition) := by
    rw [rooted_eq distinct, List.map_map]
    rfl
  have members (root : Nat) : (partition.rooted.filter (·.1 == root)).map Prod.snd =
      (keys partition).filter (rootOf partition · == root) := by
    rw [rooted_eq distinct, List.filter_map, List.map_map]
    exact List.map_id _
  simp only [classes, roots, members]

theorem map_members_classes (distinct : (keys partition).Nodup) :
    partition.classes.map Class.members = groups (rootOf partition) (keys partition) := by
  rw [classes_eq distinct, List.map_map]
  rfl

theorem mem_classes (distinct : (keys partition).Nodup) {listed : Class} : listed ∈ partition.classes ↔
    ∃ key ∈ keys partition, ⟨(keys partition).filter (rootOf partition · == rootOf partition key),
      partition.value (rootOf partition key)⟩ = listed := by
  rw [classes_eq distinct]
  simp

namespace Represents

theorem getElem?_idxOf {key : Key} (known : key ∈ keys partition) :
    (keys partition)[(keys partition).idxOf key]? = some key := by
  rw [List.getElem?_eq_getElem (List.idxOf_lt_length_of_mem known), List.getElem_idxOf]

theorem rootOf_eq_iff (valid : Represents partition pairs) {a b : Key} (knownA : a ∈ keys partition)
    (knownB : b ∈ keys partition) : rootOf partition a = rootOf partition b ↔ Linked pairs a b :=
  valid.linked _ _ a b (getElem?_idxOf knownA) (getElem?_idxOf knownB)

theorem value_rootOf (valid : Represents partition pairs) {key : Key} (known : key ∈ keys partition) (name : String) :
    partition.value (rootOf partition key) = some name ↔ Linked pairs key (.const name) :=
  valid.value _ key name (getElem?_idxOf known)

/-- A constant that is linked to a key that has entered has entered too. -/
theorem known_of_linked (valid : Represents partition pairs) {a b : Key} (known : a ∈ keys partition)
    (linked : Linked pairs a b) : b ∈ keys partition := by
  rcases linked.eq_or_mentioned with same | ⟨_, mentioned⟩
  · exact same ▸ known
  · exact (valid.entered b).mpr mentioned

theorem listing (valid : Represents partition pairs) : Listing pairs (keys partition) partition.classes := by
  have distinct := valid.wellFormed.distinct
  have shape (listed : Class) (member : listed ∈ partition.classes) := (mem_classes distinct).mp member
  refine ⟨?_, ?_, ?_, ?_, ?_, ?_⟩
  · rw [List.flatMap_def, map_members_classes distinct]
    exact flatten_groups_perm ..
  · intro listed member
    obtain ⟨key, known, rfl⟩ := shape listed member
    apply List.ne_nil_of_mem (a := key)
    exact List.mem_filter.mpr ⟨known, beq_self_eq_true _⟩
  · intro listed member a inside b known
    obtain ⟨key, _, rfl⟩ := shape listed member
    obtain ⟨knownA, same⟩ := List.mem_filter.mp inside
    rw [← valid.rootOf_eq_iff knownA known, eq_of_beq same, List.mem_filter, beq_iff_eq]
    exact ⟨fun found => found.2.symm, fun same => ⟨known, same.symm⟩⟩
  · intro listed member
    obtain ⟨key, _, rfl⟩ := shape listed member
    exact List.filter_sublist
  · have heads := heads_groups_sublist (rootOf partition) (keys partition)
    rwa [← map_members_classes distinct, List.filterMap_map] at heads
  · intro listed member name
    obtain ⟨key, known, rfl⟩ := shape listed member
    rw [valid.value_rootOf known, List.mem_filter, beq_iff_eq]
    constructor
    · intro linked
      have entered := valid.known_of_linked known linked
      exact ⟨entered, (valid.rootOf_eq_iff entered known).mpr linked.symm⟩
    · intro found
      exact ((valid.rootOf_eq_iff found.1 known).mp found.2).symm

end Represents

/-- The classes of a partition built by trial are the listing of the accepted equations, in which the keys stand in the order
of their first mention. There is no other such listing, and every forest for these equations has this one, whichever keys
are its roots and however short its paths are. -/
theorem attempts_classes (tried : List (Key × Key)) :
    let history := History.ofAttempts tried
    let order := (mentionedKeys history.accepted).eraseDups
    Listing history.accepted order history.partition.classes ∧
    (∀ other, Listing history.accepted order other → other = history.partition.classes) ∧
    ∀ forest, Represents forest history.accepted → keys forest = order → forest.classes = history.partition.classes := by
  intro history order
  have built := History.built_ofAttempts tried
  have listing : Listing history.accepted order history.partition.classes := by
    have listed := built.represents.listing
    rwa [built.keys_eq] at listed
  have unique (other : List Class) (again : Listing history.accepted order other) : other = history.partition.classes :=
    listing.unique again (nodup_eraseDups _)
  refine ⟨listing, unique, ?_⟩
  intro forest represents entered
  apply unique
  rw [← entered]
  exact represents.listing

example : (History.ofAttempts [(.var "X" 0, .const "tom"), (.var "Y" 0, .var "Z" 0), (.var "U" 1, .var "Z" 0),
      (.const "bob", .var "X" 0), (.var "V" 1, .var "X" 0)]).partition.classes =
    [⟨[.var "X" 0, .const "tom", .var "V" 1], some "tom"⟩, ⟨[.var "Y" 0, .var "Z" 0, .var "U" 1], none⟩] := by cbv

end Backchain.Proofs
