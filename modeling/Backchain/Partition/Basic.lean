import Backchain.Key

/-! The equalities of one search branch: a partition of keys into classes, each bound to at most one constant.

Keys enter in the order in which they are first named and keep their slot for good. The classes are the trees of a
forest over the slots, joined by rank and shortened on the way to a root. A class has its value at the root. -/

namespace Backchain

structure Node where
  key : Key
  parent : Nat
  rank : Nat
  value : Option String
deriving DecidableEq

structure Partition where
  nodes : Array Node := #[]

namespace Partition

def empty : Partition := {}

def size (partition : Partition) : Nat := partition.nodes.size

def isEmpty (partition : Partition) : Bool := partition.size == 0

/-! ### The forest -/

/-- The slot above. Roots are above themselves, as is every number that is not a slot. -/
def parent (partition : Partition) (slot : Nat) : Nat :=
  match partition.nodes[slot]? with
  | some node => node.parent
  | none => slot

def rank (partition : Partition) (slot : Nat) : Nat :=
  match partition.nodes[slot]? with
  | some node => node.rank
  | none => 0

/-- The constant kept at a slot. It speaks for the class only at the root. -/
def value (partition : Partition) (slot : Nat) : Option String :=
  match partition.nodes[slot]? with
  | some node => node.value
  | none => none

def setParent (partition : Partition) (slot above : Nat) : Partition :=
  ⟨partition.nodes.modify slot fun node => { node with parent := above }⟩

def climb (partition : Partition) : (fuel slot : Nat) → Nat
  | 0, slot => slot
  | fuel + 1, slot =>
    if partition.parent slot = slot then slot else partition.climb fuel (partition.parent slot)

/-- The root of a slot's tree. No path is longer than there are slots. -/
def root (partition : Partition) (slot : Nat) : Nat := partition.climb partition.size slot

/-- Climbs two links at a time, and lets every slot it stands on point to where it goes next. -/
def halve : (fuel : Nat) → Partition → (slot : Nat) → Nat × Partition
  | 0, partition, slot => (slot, partition)
  | fuel + 1, partition, slot =>
    if partition.parent slot = slot then (slot, partition)
    else
      let above := partition.parent (partition.parent slot)
      halve fuel (partition.setParent slot above) above

def halvedRoot (partition : Partition) (slot : Nat) : Nat × Partition := halve partition.size partition slot

/-- Hangs one root below another. A tree grows in rank only when it takes in one of its own rank. -/
def attach (partition : Partition) (child root : Nat) (value : Option String) : Partition :=
  let growth := if partition.rank child = partition.rank root then 1 else 0
  ⟨(partition.setParent child root).nodes.modify root fun node =>
    { node with rank := node.rank + growth, value := value }⟩

/-- Joins the trees of two roots. The lower rank goes below, and of two equal ranks the second. -/
def link (partition : Partition) (first second : Nat) (value : Option String) : Partition :=
  if partition.rank first < partition.rank second then partition.attach first second value
  else partition.attach second first value

/-! ### Keys -/

def slot? (partition : Partition) (key : Key) : Option Nat :=
  partition.nodes.findIdx? fun node => node.key == key

def contains (partition : Partition) (key : Key) : Bool := (partition.slot? key).isSome

/-- The slot of a key, which enters as a class of its own if it is new. A constant enters bound to itself. -/
def intern (partition : Partition) (key : Key) : Nat × Partition :=
  match partition.slot? key with
  | some slot => (slot, partition)
  | none => (partition.size, ⟨partition.nodes.push ⟨key, partition.size, 0, key.constant?⟩⟩)

def mergeValues : Option String → Option String → Option (Option String)
  | some a, some b => if a = b then some (some a) else none
  | some a, none => some (some a)
  | none, b => some b

/-- Adds the equality of two keys. There is no such partition when their classes are bound to different
constants. -/
def equate (partition : Partition) (a b : Key) : Option Partition :=
  let (slotA, partition) := partition.intern a
  let (slotB, partition) := partition.intern b
  let (rootA, partition) := partition.halvedRoot slotA
  let (rootB, partition) := partition.halvedRoot slotB
  if rootA = rootB then some partition
  else (mergeValues (partition.value rootA) (partition.value rootB)).map (partition.link rootA rootB)

/-- The constant that a key is bound to. A constant is bound to itself, whether it has entered or not. -/
def valueOf (partition : Partition) (key : Key) : Option String :=
  match partition.slot? key with
  | some slot => partition.value (partition.root slot)
  | none => key.constant?

def sameClass (partition : Partition) (a b : Key) : Bool :=
  a == b ||
    match partition.slot? a, partition.slot? b with
    | some slotA, some slotB => partition.root slotA == partition.root slotB
    | _, _ => false

end Partition
end Backchain
