import Backchain.Json.Basic
import Backchain.Proofs.Lists

/-! JSON values that are the same except for the order in which objects list their members. Nothing that is read from a
JSON value depends on that order. -/

namespace Backchain.Json

/-- The values are the same up to the order of the members of objects, at any depth. Where a name is given twice the
order decides which member counts, so only members with distinct names may change places. -/
inductive Alike : Json → Json → Prop where
  | refl (json : Json) : Alike json json
  | trans {a b c : Json} : Alike a b → Alike b c → Alike a c
  | order {members more : List (String × Json)} : (members.map Prod.fst).Nodup → members.Perm more →
    Alike (.object members) (.object more)
  | item {a b : Json} (before after : List Json) : Alike a b →
    Alike (.array (before ++ a :: after)) (.array (before ++ b :: after))
  | member {a b : Json} (before : List (String × Json)) (name : String) (after : List (String × Json)) : Alike a b →
    Alike (.object (before ++ (name, a) :: after)) (.object (before ++ (name, b) :: after))

variable {a b : Json} {items others : List Json} {members more : List (String × Json)} {name : String} {names : List String}

theorem Alike.array (each : List.Forall₂ Alike items others) : Alike (.array items) (.array others) := by
  suffices ∀ before, Alike (.array (before ++ items)) (.array (before ++ others)) from this []
  induction each with
  | nil => exact fun before => .refl _
  | @cons first second rest remaining alike _ ih =>
    intro before
    refine (Alike.item before rest alike).trans ?_
    simpa using ih (before ++ [second])

/-! ### Members -/

theorem foldl_member? (members : List (String × Json)) (start : Option Json) :
    members.foldl (fun value? member => if member.1 = name then some member.2 else value?) start =
      (member? members name).or start := by
  induction members generalizing start with
  | nil => rfl
  | cons member rest ih =>
    rw [member?, List.foldl_cons, List.foldl_cons, ih, ih, Option.or_assoc]
    split <;> rfl

theorem member?_append : member? (members ++ more) name = (member? more name).or (member? members name) := by
  rw [member?, List.foldl_append, foldl_member?]
  rfl

theorem member?_cons (member : String × Json) :
    member? (member :: more) name = (member? more name).or (if member.1 = name then some member.2 else none) := by
  rw [member?, List.foldl_cons, foldl_member?]

theorem member?_eq_some_iff (distinct : (members.map Prod.fst).Nodup) {value : Json} :
    member? members name = some value ↔ (name, value) ∈ members := by
  induction members generalizing value with
  | nil => simp [member?]
  | cons member rest ih =>
    obtain ⟨absent, remaining⟩ := List.nodup_cons.mp distinct
    rw [member?_cons, List.mem_cons, Option.or_eq_some_iff, ih remaining]
    by_cases same : member.1 = name
    · have missing (value : Json) : (name, value) ∉ rest :=
        fun present => absent (List.mem_map.mpr ⟨_, present, same.symm⟩)
      have empty : member? rest name = none := Option.eq_none_iff_forall_ne_some.mpr fun value found =>
        missing value ((ih remaining).mp found)
      simp [missing, empty, Prod.ext_iff, same, eq_comm]
    · simp [same, Prod.ext_iff, Ne.symm same]

theorem member?_perm (distinct : (members.map Prod.fst).Nodup) (arranged : members.Perm more) :
    member? members name = member? more name := by
  apply Option.ext
  intro value
  rw [member?_eq_some_iff distinct, member?_eq_some_iff ((arranged.map Prod.fst).nodup_iff.mp distinct),
    arranged.mem_iff]

/-! ### Reading -/

def bool? : Json → Option Bool
  | .bool value => some value
  | _ => none

def items? : Json → Option (List Json)
  | .array items => some items
  | _ => none

/-- The member of an object that has only one. -/
def single? : Json → Option (String × Json)
  | .object [member] => some member
  | _ => none

theorem Alike.string?_eq (alike : Alike a b) : a.string? = b.string? := by
  induction alike with
  | trans _ _ first second => exact first.trans second
  | _ => rfl

theorem Alike.bool?_eq (alike : Alike a b) : a.bool? = b.bool? := by
  induction alike with
  | trans _ _ first second => exact first.trans second
  | _ => rfl

theorem Alike.items? (alike : Alike a b) : Option.Rel (List.Forall₂ Alike) a.items? b.items? := by
  induction alike with
  | refl json => exact rel_refl (fun items => List.forall₂_same.mpr fun a _ => .refl a) _
  | trans _ _ first second => exact rel_trans (fun _ _ _ => forall₂_trans fun _ _ _ => .trans) first second
  | item before after alike => exact .some (forall₂_around .refl alike before after)
  | order => exact .none
  | member => exact .none

theorem Alike.single? (alike : Alike a b) :
    Option.Rel (fun first second => first.1 = second.1 ∧ Alike first.2 second.2) a.single? b.single? := by
  induction alike with
  | refl json => exact rel_refl (fun _ => ⟨rfl, .refl _⟩) _
  | trans _ _ first second =>
    exact rel_trans (fun _ _ _ left right => ⟨left.1.trans right.1, left.2.trans right.2⟩) first second
  | item => exact .none
  | @order members more _ arranged =>
    -- An object with one member has only one order.
    match members, more, arranged.length_eq with
    | [], [], _ => exact .none
    | [first], [second], _ =>
      obtain rfl := List.singleton_perm_singleton.mp arranged
      exact .some ⟨rfl, .refl _⟩
    | _ :: _ :: _, _ :: _ :: _, _ => exact .none
  | member before name after alike =>
    match before, after with
    | [], [] => exact .some ⟨rfl, alike⟩
    | [], _ :: _ => exact .none
    | [_], _ => exact .none
    | _ :: _ :: _, _ => exact .none

theorem fields?_array (each : List.Forall₂ Alike items others) :
    Option.Rel (List.Forall₂ (Option.Rel Alike)) (fields? names (.array items)) (fields? names (.array others)) := by
  rw [fields?, fields?, each.length_eq]
  split
  · refine .some (List.rel_append ?_ (List.forall₂_same.mpr fun _ _ => rel_refl .refl _))
    simpa [List.forall₂_map_left_iff, List.forall₂_map_right_iff] using each
  · exact .none

theorem member?_member (alike : Alike a b) (before after : List (String × Json)) (changed : String) :
    Option.Rel Alike (member? (before ++ (changed, a) :: after) name) (member? (before ++ (changed, b) :: after) name) := by
  rw [member?_append, member?_append, member?_cons, member?_cons]
  cases member? after name with
  | some value => exact .some (.refl value)
  | none =>
    by_cases same : changed = name
    · simpa [same] using alike
    · simpa [same] using rel_refl .refl _

/-- The fields of a record are the same again, as far as they are there. -/
theorem Alike.fields? (alike : Alike a b) :
    Option.Rel (List.Forall₂ (Option.Rel Alike)) (a.fields? names) (b.fields? names) := by
  have same (fields : List (Option Json)) : List.Forall₂ (Option.Rel Alike) fields fields :=
    List.forall₂_same.mpr fun _ _ => rel_refl .refl _
  induction alike with
  | refl json => exact rel_refl same _
  | trans _ _ first second =>
    exact rel_trans (fun _ _ _ => forall₂_trans fun _ _ _ => rel_trans fun _ _ _ => .trans) first second
  | item before after alike => exact fields?_array (forall₂_around .refl alike before after)
  | order distinct arranged =>
    have equal : member? _ = member? _ := funext fun name => member?_perm distinct arranged
    rw [Json.fields?, Json.fields?, equal]
    exact .some (same _)
  | member before name after alike =>
    refine .some ?_
    rw [List.forall₂_map_left_iff, List.forall₂_map_right_iff]
    exact List.forall₂_same.mpr fun name _ => member?_member alike before after _

end Backchain.Json
