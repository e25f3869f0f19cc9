import Backchain.Partition.Classes

/-! A partition in tables. Keys are numbered in the order in which they are first named. The parent, the rank and the
value that belong to a number are kept in a table each, which have to grow together.

Nothing is taken for granted: a table is read and written at an index that must be inside, ranks are counters of eight
bits, and paths are climbed by loops that nothing but a root ends. -/

namespace Backchain

inductive Fault where
  /-- An index at which a table has no entry. -/
  | outside (slot : Nat)
  /-- A rank that does not fit its counter. -/
  | overflow (slot : Nat)
  /-- A loop that has looked at as many slots as there are, and at no root. -/
  | endless
deriving DecidableEq

structure Tables where
  /-- The numbers of the keys, in the order of entry. -/
  slots : List (Key × Nat) := []
  parent : Array Nat := #[]
  rank : Array UInt8 := #[]
  /-- Constants, which speak for their classes only at the roots. -/
  value : Array (Option String) := #[]

namespace Tables

def read {α : Type} (table : Array α) (slot : Nat) : Except Fault α :=
  match table[slot]? with
  | some entry => .ok entry
  | none => .error (.outside slot)

def write {α : Type} (table : Array α) (slot : Nat) (entry : α) : Except Fault (Array α) :=
  if slot < table.size then .ok (table.setIfInBounds slot entry) else .error (.outside slot)

/-- The number of a key. If it is new, it takes the next number, and an entry is added to every table. -/
def slot (tables : Tables) (key : Key) : Nat × Tables :=
  match tables.slots.lookup key with
  | some slot => (slot, tables)
  | none =>
    let slot := tables.parent.size
    (slot, {
      slots := tables.slots ++ [(key, slot)]
      parent := tables.parent.push slot
      rank := tables.rank.push 0
      value := tables.value.push key.constant? })

/-! ### Climbing -/

def climb (tables : Tables) : (fuel slot : Nat) → Except Fault Nat
  | 0, _ => .error .endless
  | fuel + 1, slot => do
    let above ← read tables.parent slot
    if above = slot then return slot else climb tables fuel above

def find (tables : Tables) (slot : Nat) : Except Fault Nat := tables.climb tables.parent.size slot

def halve : (fuel : Nat) → Tables → (slot : Nat) → Except Fault (Nat × Tables)
  | 0, _, _ => .error .endless
  | fuel + 1, tables, slot => do
    let above ← read tables.parent slot
    if above = slot then return (slot, tables)
    else
      let grandparent ← read tables.parent above
      let parent ← write tables.parent slot grandparent
      halve fuel { tables with parent } grandparent

def findCompress (tables : Tables) (slot : Nat) : Except Fault (Nat × Tables) :=
  halve tables.parent.size tables slot

/-! ### Joining -/

def increment (ranks : Array UInt8) (slot : Nat) : Except Fault (Array UInt8) := do
  let rank ← read ranks slot
  if rank = 255 then throw (.overflow slot) else write ranks slot (rank + 1)

/-- The rank of a root grows if it takes in another of its own rank. -/
def grow (ranks : Array UInt8) (child root : Nat) : Except Fault (Array UInt8) := do
  let lower ← read ranks child
  let upper ← read ranks root
  if lower = upper then increment ranks root else return ranks

def attach (tables : Tables) (child root : Nat) (value : Option String) : Except Fault Tables := do
  let rank ← grow tables.rank child root
  let parent ← write tables.parent child root
  let value ← write tables.value root value
  return { tables with parent, rank, value }

def link (tables : Tables) (first second : Nat) (value : Option String) : Except Fault Tables := do
  let left ← read tables.rank first
  let right ← read tables.rank second
  if left < right then tables.attach first second value else tables.attach second first value

/-- Adds the equality of two keys. If it is refused, the tables are left as they have become by then. -/
def addEqual (tables : Tables) (a b : Key) : Except Fault (Bool × Tables) := do
  let (slotA, tables) := tables.slot a
  let (slotB, tables) := tables.slot b
  let (rootA, tables) ← tables.findCompress slotA
  let (rootB, tables) ← tables.findCompress slotB
  if rootA = rootB then return (true, tables)
  else
    let valueA ← read tables.value rootA
    let valueB ← read tables.value rootB
    match Partition.mergeValues valueA valueB with
    | none => return (false, tables)
    | some merged => return (true, ← tables.link rootA rootB merged)

/-! ### Answers -/

def valueOf (tables : Tables) (key : Key) : Except Fault (Option String) :=
  match tables.slots.lookup key with
  | some slot => do read tables.value (← tables.find slot)
  | none => return key.constant?

def sameClass (tables : Tables) (a b : Key) : Except Fault Bool :=
  if a = b then return true
  else
    match tables.slots.lookup a, tables.slots.lookup b with
    | some slotA, some slotB => return (← tables.find slotA) == (← tables.find slotB)
    | _, _ => return false

def classes (tables : Tables) : Except Fault (List Class) := do
  let rooted ← tables.slots.mapM fun (key, slot) => return (← tables.find slot, key)
  (rooted.map Prod.fst).eraseDups.mapM fun root => do
    let value ← read tables.value root
    return ⟨(rooted.filter (·.1 == root)).map Prod.snd, value⟩

end Tables
end Backchain
