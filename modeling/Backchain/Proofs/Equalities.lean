import Backchain.Key
import Mathlib.Logic.Relation

/-! Equations between keys without any data structure: the equivalence they generate, and the valuations that
satisfy them. A list of equations equates no two constants exactly when some valuation satisfies it. -/

namespace Backchain.Proofs

/-- The least equivalence of keys that contains the pairs. -/
def Linked (pairs : List (Key × Key)) : Key → Key → Prop :=
  Relation.EqvGen fun a b => (a, b) ∈ pairs

def Consistent (pairs : List (Key × Key)) : Prop :=
  ∀ a b, Linked pairs (.const a) (.const b) → a = b

def Mentioned (pairs : List (Key × Key)) (key : Key) : Prop :=
  ∃ pair ∈ pairs, key = pair.1 ∨ key = pair.2

variable {pairs more : List (Key × Key)} {a b c x y : Key}

namespace Linked

theorem of_mem (member : (a, b) ∈ pairs) : Linked pairs a b := .rel a b member

theorem refl (pairs : List (Key × Key)) (a : Key) : Linked pairs a a := Relation.EqvGen.refl a

theorem symm (linked : Linked pairs a b) : Linked pairs b a := Relation.EqvGen.symm a b linked

theorem trans (first : Linked pairs a b) (second : Linked pairs b c) : Linked pairs a c :=
  Relation.EqvGen.trans a b c first second

theorem of_forall_linked (linked : Linked pairs a b) (entailed : ∀ pair ∈ pairs, Linked more pair.1 pair.2) :
    Linked more a b := by
  induction linked with
  | rel a b member => exact entailed (a, b) member
  | refl a => exact refl more a
  | symm a b _ ih => exact ih.symm
  | trans a b c _ _ first second => exact first.trans second

theorem mono (linked : Linked pairs a b) (subset : pairs ⊆ more) : Linked more a b :=
  linked.of_forall_linked fun _ member => of_mem (subset member)

theorem eq_or_mentioned (linked : Linked pairs a b) : a = b ∨ Mentioned pairs a ∧ Mentioned pairs b := by
  induction linked with
  | rel a b member => exact Or.inr ⟨⟨(a, b), member, Or.inl rfl⟩, ⟨(a, b), member, Or.inr rfl⟩⟩
  | refl a => exact Or.inl rfl
  | symm a b _ ih => exact ih.imp Eq.symm And.symm
  | trans a b c _ _ first second =>
    rcases first with rfl | ⟨left, middle⟩
    · exact second
    · rcases second with rfl | ⟨_, right⟩
      · exact Or.inr ⟨left, middle⟩
      · exact Or.inr ⟨left, right⟩

/-- One more equation joins the classes of its two sides and leaves all others apart. -/
theorem append_singleton_iff : Linked (pairs ++ [(a, b)]) x y ↔
    Linked pairs x y ∨ (Linked pairs x a ∧ Linked pairs b y) ∨ (Linked pairs x b ∧ Linked pairs a y) := by
  constructor
  · intro linked
    induction linked with
    | rel x y member =>
      rcases List.mem_append.mp member with old | new
      · exact Or.inl (of_mem old)
      · cases List.mem_singleton.mp new
        exact Or.inr (Or.inl ⟨refl pairs a, refl pairs b⟩)
    | refl x => exact Or.inl (refl pairs x)
    | symm x y _ ih =>
      rcases ih with same | ⟨left, right⟩ | ⟨left, right⟩
      · exact Or.inl same.symm
      · exact Or.inr (Or.inr ⟨right.symm, left.symm⟩)
      · exact Or.inr (Or.inl ⟨right.symm, left.symm⟩)
    | trans x y z _ _ first second =>
      -- A chain that takes the new pair forth and back can do without it.
      rcases first with same | ⟨left, right⟩ | ⟨left, right⟩
      · exact second.imp same.trans (Or.imp (And.imp_left same.trans) (And.imp_left same.trans))
      · rcases second with same | ⟨_, last⟩ | ⟨_, last⟩
        · exact Or.inr (Or.inl ⟨left, right.trans same⟩)
        · exact Or.inr (Or.inl ⟨left, last⟩)
        · exact Or.inl (left.trans last)
      · rcases second with same | ⟨_, last⟩ | ⟨_, last⟩
        · exact Or.inr (Or.inr ⟨left, right.trans same⟩)
        · exact Or.inl (left.trans last)
        · exact Or.inr (Or.inr ⟨left, last⟩)
  · have old {x y} (linked : Linked pairs x y) : Linked (pairs ++ [(a, b)]) x y :=
      linked.mono (List.subset_append_left _ _)
    have new : Linked (pairs ++ [(a, b)]) a b := of_mem (by simp)
    rintro (same | ⟨left, right⟩ | ⟨left, right⟩)
    · exact old same
    · exact (old left).trans (new.trans (old right))
    · exact (old left).trans (new.symm.trans (old right))

theorem append_self_iff : Linked (pairs ++ [(a, a)]) x y ↔ Linked pairs x y := by
  rw [append_singleton_iff]
  constructor
  · rintro (same | ⟨left, right⟩ | ⟨left, right⟩)
    · exact same
    · exact left.trans right
    · exact left.trans right
  · exact Or.inl

end Linked

theorem Consistent.of_append (consistent : Consistent (pairs ++ more)) : Consistent pairs :=
  fun a b linked => consistent a b (linked.mono (List.subset_append_left _ _))

@[simp] theorem mentioned_append {key : Key} :
    Mentioned (pairs ++ more) key ↔ Mentioned pairs key ∨ Mentioned more key := by
  simp only [Mentioned, List.mem_append, or_and_right, exists_or]

@[simp] theorem mentioned_nil {key : Key} : ¬ Mentioned [] key := by
  simp [Mentioned]

@[simp] theorem mentioned_singleton {key : Key} : Mentioned [(a, b)] key ↔ key = a ∨ key = b := by
  simp [Mentioned]

/-- A constant for every key. A constant stands for itself. -/
structure Valuation where
  value : Key → String
  constant : ∀ name, value (.const name) = name

instance : CoeFun Valuation fun _ => Key → String := ⟨Valuation.value⟩

def Valuation.Satisfies (valuation : Valuation) (pairs : List (Key × Key)) : Prop :=
  ∀ pair ∈ pairs, valuation pair.1 = valuation pair.2

namespace Valuation.Satisfies
variable {valuation : Valuation}

theorem same_value (satisfied : valuation.Satisfies pairs) (linked : Linked pairs a b) :
    valuation a = valuation b := by
  induction linked with
  | rel a b member => exact satisfied (a, b) member
  | refl a => rfl
  | symm a b _ ih => exact ih.symm
  | trans a b c _ _ first second => exact first.trans second

theorem consistent (satisfied : valuation.Satisfies pairs) : Consistent pairs := by
  intro a b linked
  simpa only [valuation.constant] using satisfied.same_value linked

theorem append_iff : valuation.Satisfies (pairs ++ more) ↔ valuation.Satisfies pairs ∧ valuation.Satisfies more :=
  List.forall_mem_append

theorem congr {other : Valuation} (satisfied : valuation.Satisfies pairs)
    (agree : ∀ key, Mentioned pairs key → other key = valuation key) : other.Satisfies pairs := by
  intro pair member
  rw [agree pair.1 ⟨pair, member, Or.inl rfl⟩, agree pair.2 ⟨pair, member, Or.inr rfl⟩]
  exact satisfied pair member

end Valuation.Satisfies

/-- The valuation that gives every class its constant, and the others one in common. -/
theorem Consistent.satisfiable (consistent : Consistent pairs) (fallback : String) :
    ∃ valuation : Valuation, valuation.Satisfies pairs ∧
      ∀ key, (∀ name, ¬ Linked pairs key (.const name)) → valuation key = fallback := by
  classical
  let value key := if bound : ∃ name, Linked pairs key (.const name) then bound.choose else fallback
  have bound {key name} (linked : Linked pairs key (.const name)) : value key = name := by
    have found : ∃ name, Linked pairs key (.const name) := ⟨name, linked⟩
    simp only [value, dif_pos found]
    exact consistent _ _ (found.choose_spec.symm.trans linked)
  have free {key} (unbound : ∀ name, ¬ Linked pairs key (.const name)) : value key = fallback := by
    simp only [value, dif_neg (not_exists.mpr unbound)]
  refine ⟨⟨value, fun name => bound (Linked.refl pairs _)⟩, ?_, fun key => free⟩
  intro pair member
  have linked : Linked pairs pair.1 pair.2 := Linked.of_mem member
  change value pair.1 = value pair.2
  by_cases found : ∃ name, Linked pairs pair.1 (.const name)
  · obtain ⟨name, reached⟩ := found
    rw [bound reached, bound (linked.symm.trans reached)]
  · have unbound := not_exists.mp found
    rw [free unbound, free fun name reached => unbound name (linked.trans reached)]

theorem consistent_iff_satisfiable :
    Consistent pairs ↔ ∃ valuation : Valuation, valuation.Satisfies pairs := by
  constructor
  · intro consistent
    obtain ⟨valuation, satisfied, _⟩ := consistent.satisfiable ""
    exact ⟨valuation, satisfied⟩
  · rintro ⟨valuation, satisfied⟩
    exact satisfied.consistent

end Backchain.Proofs
