import Backchain.Partition.Classes
import Backchain.Unification
import Mathlib.Logic.Function.Basic

/-! Keys under other names. A partition compares keys and reads off the constants, and does nothing else with them, so
that an injective map of keys that keeps constants is carried through every operation on partitions. -/

namespace Backchain

/-- Constants stand for themselves, and different variables stay different variables. -/
structure Renaming where
  key : Key → Key
  injective : Function.Injective key
  constant?_key : ∀ name, (key name).constant? = name.constant?

instance : CoeFun Renaming fun _ => Key → Key := ⟨Renaming.key⟩

/-- Another scope for the variable. -/
def Key.mapScope (change : Scope → Scope) : Key → Key
  | .var name scope => .var name (change scope)
  | .const name => .const name

def ScopedAtom.mapScope (change : Scope → Scope) (goal : ScopedAtom) : ScopedAtom := ⟨goal.atom, change goal.scope⟩

theorem Key.mapScope_ofTerm (change : Scope → Scope) (scope : Scope) (term : Term) :
    (ofTerm scope term).mapScope change = ofTerm (change scope) term := by
  rw [ofTerm, ofTerm]
  split <;> rfl

theorem ScopedAtom.keys_mapScope (change : Scope → Scope) (goal : ScopedAtom) :
    (goal.mapScope change).keys = goal.keys.map (Key.mapScope change) := by
  rw [keys, keys, List.map_map]
  exact List.map_congr_left fun term _ => (Key.mapScope_ofTerm change goal.scope term).symm

def Renaming.ofScopes (change : Scope → Scope) (injective : Function.Injective change) : Renaming where
  key := Key.mapScope change
  injective a b same := by
    cases a with
    | const name =>
      cases b with
      | const other => exact same
      | var other scope => cases same
    | var name scope =>
      cases b with
      | const other => cases same
      | var other scope' =>
        obtain ⟨rfl, moved⟩ := Key.var.inj same
        rw [injective moved]
  constant?_key name := by cases name <;> rfl

def Renaming.refl : Renaming := ⟨id, Function.injective_id, fun _ => rfl⟩

def Partition.renameKeys (naming : Renaming) (partition : Partition) : Partition :=
  ⟨partition.nodes.map fun node => { node with key := naming node.key }⟩

def Class.renameKeys (naming : Renaming) (members : Class) : Class :=
  { members with members := members.members.map naming }

namespace Renaming
variable (naming : Renaming) {a b : Key}

@[simp] theorem key_inj : naming a = naming b ↔ a = b := naming.injective.eq_iff

@[simp] theorem key_const (name : String) : naming (.const name) = .const name := by
  have same := naming.constant?_key (.const name)
  cases kept : naming (.const name) with
  | var other scope =>
    rw [kept] at same
    cases same
  | const other =>
    rw [kept] at same
    exact congrArg Key.const (Option.some.inj same)

theorem exists_key_var (name : String) (scope : Scope) :
    ∃ other inside, naming (.var name scope) = .var other inside := by
  have same := naming.constant?_key (.var name scope)
  cases moved : naming (.var name scope) with
  | var other inside => exact ⟨other, inside, rfl⟩
  | const other =>
    rw [moved] at same
    cases same

theorem compatible_key (a b : Key) : (naming a).compatible (naming b) = a.compatible b := by
  cases a with
  | const name =>
    cases b with
    | const other => rw [key_const, key_const]
    | var other scope =>
      obtain ⟨moved, inside, same⟩ := naming.exists_key_var other scope
      rw [key_const, same]
      rfl
  | var name scope =>
    obtain ⟨moved, inside, same⟩ := naming.exists_key_var name scope
    cases b with
    | const other =>
      rw [key_const, same]
      rfl
    | var other scope' =>
      obtain ⟨moved', inside', same'⟩ := naming.exists_key_var other scope'
      have equal : (Key.var moved inside = .var moved' inside') ↔ (Key.var name scope = .var other scope') := by
        rw [← same, ← same', key_inj]
      rw [Key.var.injEq, Key.var.injEq] at equal
      rw [same, same', Bool.eq_iff_iff]
      simp only [Key.compatible, Bool.not_eq_true', Bool.and_eq_false_iff, beq_eq_false_iff_ne, ← not_and_or, equal]

end Renaming

/-! ### Partitions -/

namespace Partition
variable (naming : Renaming) (partition : Partition)

theorem getElem?_renameKeys (slot : Nat) : (partition.renameKeys naming).nodes[slot]? =
    partition.nodes[slot]?.map fun node => { node with key := naming node.key } :=
  Array.getElem?_map

@[simp] theorem renameKeys_empty : empty.renameKeys naming = empty := by
  simp [renameKeys, empty]

@[simp] theorem size_renameKeys : (partition.renameKeys naming).size = partition.size :=
  Array.size_map

@[simp] theorem isEmpty_renameKeys : (partition.renameKeys naming).isEmpty = partition.isEmpty := by
  rw [isEmpty, isEmpty, size_renameKeys]

@[simp] theorem parent_renameKeys (slot : Nat) : (partition.renameKeys naming).parent slot = partition.parent slot := by
  rw [parent, parent, getElem?_renameKeys]
  cases partition.nodes[slot]? <;> rfl

@[simp] theorem rank_renameKeys (slot : Nat) : (partition.renameKeys naming).rank slot = partition.rank slot := by
  rw [rank, rank, getElem?_renameKeys]
  cases partition.nodes[slot]? <;> rfl

@[simp] theorem value_renameKeys (slot : Nat) : (partition.renameKeys naming).value slot = partition.value slot := by
  rw [value, value, getElem?_renameKeys]
  cases partition.nodes[slot]? <;> rfl

theorem modify_renameKeys (slot : Nat) {update : Node → Node}
    (commutes : ∀ node : Node, update { node with key := naming node.key } =
      { update node with key := naming (update node).key }) :
    (⟨(partition.renameKeys naming).nodes.modify slot update⟩ : Partition) =
      renameKeys naming ⟨partition.nodes.modify slot update⟩ := by
  rw [renameKeys, mk.injEq]
  apply Array.ext_getElem?
  intro position
  simp only [Array.getElem?_modify, Array.getElem?_map, getElem?_renameKeys]
  split
  · cases partition.nodes[position]? with
    | none => rfl
    | some node => simp only [Option.map_some, commutes]
  · rfl

theorem setParent_renameKeys (slot above : Nat) :
    (partition.renameKeys naming).setParent slot above = (partition.setParent slot above).renameKeys naming :=
  modify_renameKeys naming partition slot fun _ => rfl

theorem climb_renameKeys (fuel slot : Nat) : (partition.renameKeys naming).climb fuel slot = partition.climb fuel slot := by
  induction fuel generalizing slot with
  | zero => rfl
  | succ fuel ih => simp only [climb, parent_renameKeys, ih]

@[simp] theorem root_renameKeys (slot : Nat) : (partition.renameKeys naming).root slot = partition.root slot := by
  rw [root, root, size_renameKeys, climb_renameKeys]

theorem halve_renameKeys (fuel slot : Nat) : halve fuel (partition.renameKeys naming) slot =
    ((halve fuel partition slot).1, (halve fuel partition slot).2.renameKeys naming) := by
  induction fuel generalizing partition slot with
  | zero => rfl
  | succ fuel ih =>
    rw [halve, halve]
    simp only [parent_renameKeys, setParent_renameKeys, ih]
    split <;> rfl

theorem halvedRoot_renameKeys (slot : Nat) : (partition.renameKeys naming).halvedRoot slot =
    ((partition.halvedRoot slot).1, (partition.halvedRoot slot).2.renameKeys naming) := by
  rw [halvedRoot, halvedRoot, size_renameKeys, halve_renameKeys]

theorem attach_renameKeys (child root : Nat) (value : Option String) :
    (partition.renameKeys naming).attach child root value = (partition.attach child root value).renameKeys naming := by
  simp only [attach, rank_renameKeys, setParent_renameKeys]
  exact modify_renameKeys naming (partition.setParent child root) root fun _ => rfl

theorem link_renameKeys (first second : Nat) (value : Option String) :
    (partition.renameKeys naming).link first second value = (partition.link first second value).renameKeys naming := by
  simp only [link, rank_renameKeys, attach_renameKeys]
  split <;> rfl

@[simp] theorem slot?_renameKeys (key : Key) :
    (partition.renameKeys naming).slot? (naming key) = partition.slot? key := by
  have same (node : Node) : (naming node.key == naming key) = (node.key == key) := by
    rw [Bool.eq_iff_iff, beq_iff_eq, beq_iff_eq, Renaming.key_inj]
  simp only [slot?, renameKeys, Array.findIdx?_map, Function.comp_def, same]

theorem intern_renameKeys (key : Key) : (partition.renameKeys naming).intern (naming key) =
    ((partition.intern key).1, (partition.intern key).2.renameKeys naming) := by
  rw [intern, intern, slot?_renameKeys]
  cases partition.slot? key with
  | some slot => rfl
  | none => simp [renameKeys, size, naming.constant?_key]

theorem equate_renameKeys (a b : Key) : (partition.renameKeys naming).equate (naming a) (naming b) =
    (partition.equate a b).map (renameKeys naming) := by
  simp only [equate, intern_renameKeys, halvedRoot_renameKeys, value_renameKeys]
  split
  · rfl
  · rw [Option.map_map]
    exact Option.map_congr fun value _ => link_renameKeys ..

@[simp] theorem contains_renameKeys (key : Key) :
    (partition.renameKeys naming).contains (naming key) = partition.contains key := by
  rw [contains, contains, slot?_renameKeys]

@[simp] theorem valueOf_renameKeys (key : Key) :
    (partition.renameKeys naming).valueOf (naming key) = partition.valueOf key := by
  simp only [valueOf, slot?_renameKeys, root_renameKeys, value_renameKeys, naming.constant?_key]

theorem rooted_renameKeys :
    (partition.renameKeys naming).rooted = partition.rooted.map (Prod.map id naming) := by
  simp only [rooted, root_renameKeys]
  simp [renameKeys, List.zipIdx_map, Function.comp_def, Prod.map]

theorem classes_renameKeys :
    (partition.renameKeys naming).classes = partition.classes.map (Class.renameKeys naming) := by
  simp [classes, rooted_renameKeys, List.filter_map, Function.comp_def, Class.renameKeys]

/-- Only keys that have entered matter. -/
theorem renameKeys_congr {first second : Renaming}
    (same : ∀ key, partition.contains key = true → first key = second key) :
    partition.renameKeys first = partition.renameKeys second := by
  rw [renameKeys, renameKeys, mk.injEq]
  refine Array.map_congr_left fun node member => ?_
  have entered : partition.contains node.key = true := by
    rw [contains, slot?, Array.findIdx?_isSome, Array.any_eq_true']
    exact ⟨node, member, beq_self_eq_true _⟩
  rw [same node.key entered]

theorem renameKeys_eq_self (fixed : ∀ key, partition.contains key = true → naming key = key) :
    partition.renameKeys naming = partition := by
  have same : partition.renameKeys naming = partition.renameKeys .refl := partition.renameKeys_congr fixed
  rw [same]
  simp [renameKeys, Renaming.refl]

end Partition

/-! ### Unification -/

namespace Proofs
variable {naming : Renaming} {candidate goal candidate' goal' : ScopedAtom}

/-- The second atom is the first one with its keys renamed. -/
structure Renames (naming : Renaming) (goal copy : ScopedAtom) : Prop where
  predicate : copy.atom.predicate = goal.atom.predicate
  keys : copy.keys = goal.keys.map naming

theorem Renames.arity (renames : Renames naming goal goal') : goal'.atom.arity = goal.atom.arity := by
  have size := congrArg List.length renames.keys
  simpa only [ScopedAtom.keys, List.length_map, Atom.arity] using size

theorem renames_mapScope (change : Scope → Scope) (injective : Function.Injective change) (goal : ScopedAtom) :
    Renames (.ofScopes change injective) goal (goal.mapScope change) where
  predicate := rfl
  keys := goal.keys_mapScope change

theorem unifyPairs_renameKeys (naming : Renaming) (pairs : List (Key × Key)) (partition : Partition) :
    Partition.unifyPairs (pairs.map (Prod.map naming naming)) (partition.renameKeys naming) =
      (Partition.unifyPairs pairs partition).map (Partition.renameKeys naming) := by
  induction pairs generalizing partition with
  | nil => rfl
  | cons pair pairs ih =>
    simp only [List.map_cons, Prod.map, Partition.unifyPairs, Renaming.compatible_key, Partition.equate_renameKeys]
    split
    · cases partition.equate pair.1 pair.2 with
      | none => rfl
      | some after => exact ih after
    · rfl

theorem unify_renameKeys (first : Renames naming candidate candidate') (second : Renames naming goal goal')
    (partition : Partition) : unify candidate' goal' (partition.renameKeys naming) =
      (unify candidate goal partition).map (Partition.renameKeys naming) := by
  simp only [unify, first.predicate, second.predicate, first.arity, second.arity, first.keys, second.keys,
    List.zip_map, unifyPairs_renameKeys]
  split <;> rfl

end Proofs
end Backchain
