import Backchain.Partition.Basic

/-! The classes of a partition as a list. Members stand in the order in which they entered the partition, and
classes in the order of their first members. -/

namespace Backchain

structure Class where
  members : List Key
  value : Option String
deriving DecidableEq

/-- Every key under the root of its class, in the order of entry. -/
def Partition.rooted (partition : Partition) : List (Nat × Key) :=
  partition.nodes.toList.zipIdx.map fun (node, slot) => (partition.root slot, node.key)

def Partition.classes (partition : Partition) : List Class :=
  let rooted := partition.rooted
  (rooted.map Prod.fst).eraseDups.map fun root =>
    ⟨(rooted.filter (·.1 == root)).map Prod.snd, partition.value root⟩

end Backchain
