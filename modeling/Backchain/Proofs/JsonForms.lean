import Backchain.Proofs.JsonReordering
import Mathlib.Data.Sum.Basic
import Mathlib.Logic.Equiv.Defs

/-! JSON forms of types, and what it takes for one to lose nothing. Lists, records and tagged values take this over from the
forms of their parts. -/

namespace Backchain

/-- How the values of a type are written as JSON and read from it. -/
structure Form (α : Type) where
  write : α → Json
  read : Json → Option α
  /-- The shape of what is written. -/
  Normal : Json → Prop
  /-- The values that the type has room for. -/
  Valid : α → Prop
  Equal : α → α → Prop

namespace Form

variable {α β : Type}

def normalize (form : Form α) (json : Json) : Option Json := (form.read json).map form.write

structure Lawful (form : Form α) : Prop where
  read_write : ∀ value, form.Valid value → form.read (form.write value) = some value
  valid : ∀ json value, form.read json = some value → form.Valid value
  normal_iff : ∀ json, form.Normal json ↔ ∃ value, form.Valid value ∧ form.write value = json
  refl : ∀ value, form.Equal value value
  respects : ∀ a b, Json.Alike a b → Option.Rel form.Equal (form.read a) (form.read b)
  alike : ∀ value copy, form.Equal value copy → Json.Alike (form.write value) (form.write copy)

/-- Nothing is lost on the way to JSON and back, and everything that can be read has one way to be written. -/
structure RoundTrips (form : Form α) : Prop where
  /-- What is written is read as an equal value, in whatever order the members of its objects arrive. -/
  written : ∀ value, form.Valid value → form.read (form.write value) = some value ∧
    ∀ json, Json.Alike (form.write value) json → ∃ copy, form.read json = some copy ∧ form.Equal value copy
  /-- What is read can be written, and is read again as the same value. -/
  accepted : ∀ json value, form.read json = some value →
    form.Valid value ∧ form.Normal (form.write value) ∧ form.read (form.write value) = some value
  normalize_normalize : ∀ json normal, form.normalize json = some normal → form.normalize normal = some normal ∧
    ∀ arranged, Json.Alike normal arranged → ∃ again, form.normalize arranged = some again ∧ Json.Alike normal again
  normal_iff : ∀ json, form.Normal json ↔ form.normalize json = some json

theorem Lawful.roundTrips {form : Form α} (lawful : form.Lawful) : form.RoundTrips := by
  have reordered {value : α} {json : Json} (valid : form.Valid value) (alike : Json.Alike (form.write value) json) :
      ∃ copy, form.read json = some copy ∧ form.Equal value copy := by
    have related := lawful.respects _ _ alike
    rw [lawful.read_write value valid] at related
    generalize form.read json = copy? at related
    obtain @⟨_, copy, equal⟩ := related
    exact ⟨copy, rfl, equal⟩
  refine ⟨fun value valid => ⟨lawful.read_write value valid, fun json => reordered valid⟩, ?_, ?_, ?_⟩
  · intro json value found
    have valid := lawful.valid json value found
    exact ⟨valid, (lawful.normal_iff _).mpr ⟨value, valid, rfl⟩, lawful.read_write value valid⟩
  · intro json normal found
    obtain ⟨value, accepted, rfl⟩ := Option.map_eq_some_iff.mp found
    have valid := lawful.valid json value accepted
    refine ⟨by rw [normalize, lawful.read_write value valid, Option.map_some], fun arranged alike => ?_⟩
    obtain ⟨copy, again, equal⟩ := reordered valid alike
    exact ⟨form.write copy, by rw [normalize, again, Option.map_some], lawful.alike value copy equal⟩
  · intro json
    rw [lawful.normal_iff]
    constructor
    · rintro ⟨value, valid, rfl⟩
      rw [normalize, lawful.read_write value valid, Option.map_some]
    · intro fixed
      obtain ⟨value, accepted, same⟩ := Option.map_eq_some_iff.mp fixed
      exact ⟨value, lawful.valid json value accepted, same⟩

/-- A type that is another one by a different name has the same form. -/
theorem Lawful.transport {form : Form α} (lawful : form.Lawful) {other : Form β} (same : β ≃ α)
    (write : ∀ value, other.write value = form.write (same value))
    (read : ∀ json, (other.read json).map same = form.read json)
    (normal : ∀ json, other.Normal json ↔ form.Normal json)
    (valid : ∀ value, other.Valid value ↔ form.Valid (same value))
    (equal : ∀ value copy, other.Equal value copy ↔ form.Equal (same value) (same copy)) : other.Lawful where
  read_write value isValid := by
    have back := lawful.read_write (same value) ((valid value).mp isValid)
    rw [← read, ← write] at back
    obtain ⟨copy, found, equal⟩ := Option.map_eq_some_iff.mp back
    rw [found, same.injective equal]
  valid json value found := by
    refine (valid value).mpr (lawful.valid json _ ?_)
    rw [← read, found, Option.map_some]
  normal_iff json := by
    rw [normal, lawful.normal_iff, same.exists_congr_left]
    simp only [write, valid, Equiv.apply_symm_apply]
  refl value := (equal value value).mpr (lawful.refl _)
  respects a b alike := by
    have related := lawful.respects a b alike
    rw [← read, ← read] at related
    generalize other.read a = first at related ⊢
    generalize other.read b = second at related ⊢
    cases first <;> cases second <;> cases related
    · exact .none
    · exact .some ((equal _ _).mpr ‹_›)
  alike value copy isEqual := by
    rw [write, write]
    exact lawful.alike _ _ ((equal value copy).mp isEqual)

end Form

/-! ### Texts and truth values -/

namespace Json

inductive IsText : Json → Prop where
  | string (text : String) : IsText (.string text)

inductive IsTruth : Json → Prop where
  | bool (holds : Bool) : IsTruth (.bool holds)

end Json

namespace Form

variable {α β : Type}

def text : Form String where
  write := .string
  read := Json.string?
  Normal := Json.IsText
  Valid _ := True
  Equal := Eq

theorem text_lawful : text.Lawful where
  read_write _ _ := rfl
  valid _ _ _ := trivial
  normal_iff json := ⟨fun ⟨value⟩ => ⟨value, trivial, rfl⟩, fun ⟨value, _, same⟩ => same ▸ .string value⟩
  refl _ := rfl
  respects a b alike := by
    simp only [text, alike.string?_eq]
    exact rel_refl (fun _ => rfl) _
  alike _ _ same := same ▸ .refl _

def truth : Form Bool where
  write := .bool
  read := Json.bool?
  Normal := Json.IsTruth
  Valid _ := True
  Equal := Eq

theorem truth_lawful : truth.Lawful where
  read_write _ _ := rfl
  valid _ _ _ := trivial
  normal_iff json := ⟨fun ⟨value⟩ => ⟨value, trivial, rfl⟩, fun ⟨value, _, same⟩ => same ▸ .bool value⟩
  refl _ := rfl
  respects a b alike := by
    simp only [truth, alike.bool?_eq]
    exact rel_refl (fun _ => rfl) _
  alike _ _ same := same ▸ .refl _

end Form

/-! ### Lists -/

namespace Json

inductive IsListOf (Normal : Json → Prop) : Json → Prop where
  | array {items : List Json} : (∀ item ∈ items, Normal item) → IsListOf Normal (.array items)

end Json

namespace Form

variable {α β : Type}

def listOf (form : Form α) : Form (List α) where
  write values := .array (values.map form.write)
  read json := json.items?.bind fun items => items.mapM form.read
  Normal := Json.IsListOf form.Normal
  Valid values := ∀ value ∈ values, form.Valid value
  Equal := List.Forall₂ form.Equal

theorem Lawful.listOf {form : Form α} (lawful : form.Lawful) : form.listOf.Lawful where
  read_write values valid := by
    refine mapM_eq_some_iff.mpr ?_
    rw [List.forall₂_map_left_iff, List.forall₂_same]
    exact fun value member => lawful.read_write value (valid value member)
  valid json values found := by
    obtain ⟨items, _, accepted⟩ := Option.bind_eq_some_iff.mp found
    have each := (mapM_eq_some_iff.mp accepted).flip
    exact (List.forall₂_and_left _ _).mp (each.imp fun value item here => ⟨lawful.valid item value here, here⟩) |>.1
  normal_iff json := by
    constructor
    · rintro ⟨each⟩
      obtain ⟨values, valid, rfl⟩ := exists_map_eq fun item member => (lawful.normal_iff item).mp (each item member)
      exact ⟨values, valid, rfl⟩
    · rintro ⟨values, valid, rfl⟩
      refine .array (List.forall_mem_map.mpr fun value member => ?_)
      exact (lawful.normal_iff _).mpr ⟨value, valid value member, rfl⟩
  refl values := List.forall₂_same.mpr fun value _ => lawful.refl value
  respects a b alike := rel_bind alike.items? fun _ _ each => rel_mapM each lawful.respects
  alike values copies equal := by
    refine .array ?_
    rw [List.forall₂_map_left_iff, List.forall₂_map_right_iff]
    exact equal.imp fun value copy => lawful.alike value copy

end Form

/-! ### Records -/

namespace Json

inductive IsRecordOf (first : String) (Normal : Json → Prop) (second : String) (Other : Json → Prop) : Json → Prop where
  | object {a b : Json} : Normal a → Other b → IsRecordOf first Normal second Other (.object [(first, a), (second, b)])

variable {a b : Json} {first second : String} {members : List (String × Json)}

theorem fields?_object (different : first ≠ second) (a b : Json) :
    fields? [first, second] (.object [(first, a), (second, b)]) = some [some a, some b] := by
  simp [fields?, member?, different, different.symm]

theorem fields?_two (json : Json) (first second : String) : json.fields? [first, second] = none ∨
    ∃ one other, json.fields? [first, second] = some [one, other] := by
  cases json with
  | object members => exact .inr ⟨_, _, rfl⟩
  | array items =>
    match items with
    | [] => exact .inr ⟨_, _, rfl⟩
    | [_] => exact .inr ⟨_, _, rfl⟩
    | [_, _] => exact .inr ⟨_, _, rfl⟩
    | _ :: _ :: _ :: rest => exact .inl (by simp [fields?])
  | _ => exact .inl rfl

/-- The fields in their order are as good as an object that gives them by name, among others perhaps. -/
theorem fields?_positional (left : member? members first = some a) (right : member? members second = some b) :
    fields? [first, second] (.array [a, b]) = fields? [first, second] (.object members) := by
  simp [fields?, left, right]

end Json

/-- A field of a record. -/
structure Field (α : Type) where
  name : String
  form : Form α
  /-- The value when the field is not there, if it may be left out. -/
  absent : Option α := none

namespace Field

variable {α β : Type}

def read? (field : Field α) : Option Json → Option α
  | some json => field.form.read json
  | none => field.absent

structure Lawful (field : Field α) : Prop where
  form : field.form.Lawful
  absent : ∀ value, field.absent = some value → field.form.Valid value

theorem Lawful.valid {field : Field α} (lawful : field.Lawful) {json? : Option Json} {value : α}
    (found : field.read? json? = some value) : field.form.Valid value := by
  cases json? with
  | none => exact lawful.absent value found
  | some json => exact lawful.form.valid json value found

theorem Lawful.respects {field : Field α} (lawful : field.Lawful) {a b : Option Json} (alike : Option.Rel Json.Alike a b) :
    Option.Rel field.form.Equal (field.read? a) (field.read? b) := by
  cases alike with
  | none => exact rel_refl lawful.form.refl _
  | some alike => exact lawful.form.respects _ _ alike

end Field

namespace Form

variable {α β : Type}

def record (first : Field α) (second : Field β) : Form (α × β) where
  write value := .object [(first.name, first.form.write value.1), (second.name, second.form.write value.2)]
  read json := (json.fields? [first.name, second.name]).bind fun
    | [one, other] => (first.read? one).bind fun a => (second.read? other).bind fun b => some (a, b)
    | _ => none
  Normal := Json.IsRecordOf first.name first.form.Normal second.name second.form.Normal
  Valid value := first.form.Valid value.1 ∧ second.form.Valid value.2
  Equal value copy := first.form.Equal value.1 copy.1 ∧ second.form.Equal value.2 copy.2

theorem Lawful.record {first : Field α} {second : Field β} (left : first.Lawful) (right : second.Lawful)
    (different : first.name ≠ second.name) : (record first second).Lawful where
  read_write value valid := by
    simp only [Form.record, Json.fields?_object different, Option.bind_some, Field.read?,
      left.form.read_write _ valid.1, right.form.read_write _ valid.2]
  valid json value found := by
    obtain ⟨fields, _, read⟩ := Option.bind_eq_some_iff.mp found
    split at read
    · obtain ⟨a, here, rest⟩ := Option.bind_eq_some_iff.mp read
      obtain ⟨b, there, same⟩ := Option.bind_eq_some_iff.mp rest
      cases same
      exact ⟨left.valid here, right.valid there⟩
    · cases read
  normal_iff json := by
    constructor
    · rintro ⟨here, there⟩
      obtain ⟨a, valid, rfl⟩ := (left.form.normal_iff _).mp here
      obtain ⟨b, other, rfl⟩ := (right.form.normal_iff _).mp there
      exact ⟨(a, b), ⟨valid, other⟩, rfl⟩
    · rintro ⟨value, valid, rfl⟩
      exact .object ((left.form.normal_iff _).mpr ⟨_, valid.1, rfl⟩) ((right.form.normal_iff _).mpr ⟨_, valid.2, rfl⟩)
  refl value := ⟨left.form.refl _, right.form.refl _⟩
  respects a b alike := by
    refine rel_bind alike.fields? fun fields others each => ?_
    -- Both lists have the same length, and only two fields are a record.
    match fields, others, each with
    | [_, _], [_, _], .cons here (.cons there .nil) =>
      exact rel_bind (left.respects here) fun _ _ equal => rel_bind (right.respects there) fun _ _ same =>
        .some ⟨equal, same⟩
    | [], [], _ => exact .none
    | [_], [_], _ => exact .none
    | _ :: _ :: _ :: _, _ :: _ :: _ :: _, _ => exact .none
  alike value copy equal :=
    (Json.Alike.member [] _ _ (left.form.alike _ _ equal.1)).trans
      (Json.Alike.member [_] _ [] (right.form.alike _ _ equal.2))

end Form

/-! ### Tagged values -/

namespace Json

inductive IsEither (first : String) (Normal : Json → Prop) (second : String) (Other : Json → Prop) : Json → Prop where
  | left {json : Json} : Normal json → IsEither first Normal second Other (.object [(first, json)])
  | right {json : Json} : Other json → IsEither first Normal second Other (.object [(second, json)])

end Json

namespace Form

variable {α β : Type}

def tagged (first : String) (left : Form α) (second : String) (right : Form β) : Form (α ⊕ β) where
  write
    | .inl value => .object [(first, left.write value)]
    | .inr value => .object [(second, right.write value)]
  read json := json.single?.bind fun member =>
    if member.1 = first then (left.read member.2).bind fun value => some (.inl value)
    else if member.1 = second then (right.read member.2).bind fun value => some (.inr value)
    else none
  Normal := Json.IsEither first left.Normal second right.Normal
  Valid := Sum.elim left.Valid right.Valid
  Equal := Sum.LiftRel left.Equal right.Equal

theorem Lawful.tagged {left : Form α} {right : Form β} (leftLawful : left.Lawful) (rightLawful : right.Lawful)
    {first second : String} (different : first ≠ second) : (tagged first left second right).Lawful where
  read_write value valid := by
    cases value with
    | inl value => simp [Form.tagged, Json.single?, leftLawful.read_write value valid]
    | inr value => simp [Form.tagged, Json.single?, different.symm, rightLawful.read_write value valid]
  valid json value found := by
    obtain ⟨⟨tag, inner⟩, _, read⟩ := Option.bind_eq_some_iff.mp found
    split at read
    · obtain ⟨content, here, same⟩ := Option.bind_eq_some_iff.mp read
      cases same
      exact leftLawful.valid _ _ here
    · split at read
      · obtain ⟨content, here, same⟩ := Option.bind_eq_some_iff.mp read
        cases same
        exact rightLawful.valid _ _ here
      · cases read
  normal_iff json := by
    constructor
    · rintro (here | there)
      · obtain ⟨value, valid, rfl⟩ := (leftLawful.normal_iff _).mp here
        exact ⟨.inl value, valid, rfl⟩
      · obtain ⟨value, valid, rfl⟩ := (rightLawful.normal_iff _).mp there
        exact ⟨.inr value, valid, rfl⟩
    · rintro ⟨value | value, valid, rfl⟩
      · exact .left ((leftLawful.normal_iff _).mpr ⟨value, valid, rfl⟩)
      · exact .right ((rightLawful.normal_iff _).mpr ⟨value, valid, rfl⟩)
  refl value := by
    cases value with
    | inl value => exact .inl (leftLawful.refl value)
    | inr value => exact .inr (rightLawful.refl value)
  respects a b alike := by
    refine rel_bind alike.single? ?_
    rintro ⟨tag, inner⟩ ⟨_, other⟩ ⟨rfl, same⟩
    dsimp only
    split
    · exact rel_bind (leftLawful.respects _ _ same) fun _ _ equal => .some (.inl equal)
    · split
      · exact rel_bind (rightLawful.respects _ _ same) fun _ _ equal => .some (.inr equal)
      · exact .none
  alike value copy equal := by
    cases equal with
    | inl equal => exact .member [] _ [] (leftLawful.alike _ _ equal)
    | inr equal => exact .member [] _ [] (rightLawful.alike _ _ equal)

end Form
end Backchain
