import Backchain.Json.Forms
import Backchain.Proofs.BindingEntries
import Backchain.Proofs.JsonForms

/-! Terms, atoms, rules, bindings, answers and limits go to JSON and back without loss. What can be read at all, whether from
objects or from arrays, with fields besides or without the fields that may be missing, is written as an object in one way. -/

namespace Backchain
open Proofs

/-! ### Terms, atoms and rules -/

def Term.form : Form Term where
  write := Term.toJson
  read := Term.ofJson?
  Normal := Json.IsText
  Valid _ := True
  Equal := Eq

def Term.equivText : Term ≃ String where
  toFun := Term.text
  invFun := Term.mk
  left_inv _ := rfl
  right_inv _ := rfl

theorem Term.form_lawful : Term.form.Lawful :=
  Form.text_lawful.transport Term.equivText (fun _ => rfl)
    (fun json => by simp [Term.form, Term.ofJson?, Form.text, Term.equivText, Function.comp_def])
    (fun _ => Iff.rfl) (fun _ => Iff.rfl) (fun _ _ => Term.equivText.injective.eq_iff.symm)

def Atom.form : Form Atom where
  write := Atom.toJson
  read := Atom.ofJson?
  Normal := Json.IsRecordOf "name" Json.IsText "args" (Json.IsListOf Json.IsText)
  Valid _ := True
  Equal := Eq

def Atom.equivFields : Atom ≃ String × List Term where
  toFun atom := (atom.predicate, atom.arguments)
  invFun fields := ⟨fields.1, fields.2⟩
  left_inv _ := rfl
  right_inv _ := rfl

theorem Atom.read_form (json : Json) : (Atom.ofJson? json).map Atom.equivFields =
    (Form.record ⟨"name", Form.text, none⟩ ⟨"args", Term.form.listOf, none⟩).read json := by
  dsimp only [Atom.ofJson?, Form.record]
  rcases json.fields?_two "name" "args" with missing | ⟨name, arguments, fields⟩
  · rw [missing]
    rfl
  rw [fields]
  cases name with
  | none => rfl
  | some name =>
    cases name with
    | string predicate =>
      cases arguments with
      | none => rfl
      | some arguments =>
        cases arguments with
        | array items =>
          dsimp only [Field.read?, Form.text, Form.listOf, Json.string?, Json.items?, Option.bind_some, Term.form]
          cases items.mapM Term.ofJson? <;> rfl
        | _ => rfl
    | _ => rfl

theorem Atom.form_lawful : Atom.form.Lawful := by
  have lawful : (Form.record ⟨"name", Form.text, none⟩ ⟨"args", Term.form.listOf, none⟩).Lawful :=
    .record ⟨Form.text_lawful, nofun⟩ ⟨Term.form_lawful.listOf, nofun⟩ (by decide)
  refine lawful.transport Atom.equivFields (fun _ => rfl) Atom.read_form (fun _ => Iff.rfl) (fun atom => ?_) fun atom copy => ?_
  · simp [Atom.form, Form.record, Form.text, Form.listOf, Term.form]
  · change atom = copy ↔ _
    rw [← Atom.equivFields.injective.eq_iff, Prod.ext_iff]
    simp [Form.record, Form.text, Form.listOf, Term.form]

def Rule.form : Form Rule where
  write := Rule.toJson
  read := Rule.ofJson?
  Normal := Json.IsRecordOf "head" Atom.form.Normal "body" (Json.IsListOf Atom.form.Normal)
  Valid _ := True
  Equal := Eq

def Rule.equivFields : Rule ≃ Atom × List Atom where
  toFun rule := (rule.head, rule.body)
  invFun fields := ⟨fields.1, fields.2⟩
  left_inv _ := rfl
  right_inv _ := rfl

theorem Rule.read_form (json : Json) : (Rule.ofJson? json).map Rule.equivFields =
    (Form.record ⟨"head", Atom.form, none⟩ ⟨"body", Atom.form.listOf, none⟩).read json := by
  dsimp only [Rule.ofJson?, Form.record]
  rcases json.fields?_two "head" "body" with missing | ⟨head, body, fields⟩
  · rw [missing]
    rfl
  rw [fields]
  cases head with
  | none => rfl
  | some head =>
    dsimp only [Field.read?, Atom.form, Form.listOf, Option.bind_some]
    cases body with
    | none => cases Atom.ofJson? head <;> rfl
    | some body =>
      cases body with
      | array items =>
        dsimp only [Json.items?, Option.bind_some]
        cases Atom.ofJson? head with
        | none => rfl
        | some head => cases items.mapM Atom.ofJson? <;> rfl
      | _ => cases Atom.ofJson? head <;> rfl

theorem Rule.form_lawful : Rule.form.Lawful := by
  have lawful : (Form.record ⟨"head", Atom.form, none⟩ ⟨"body", Atom.form.listOf, none⟩).Lawful :=
    .record ⟨Atom.form_lawful, nofun⟩ ⟨Atom.form_lawful.listOf, nofun⟩ (by decide)
  refine lawful.transport Rule.equivFields (fun _ => rfl) Rule.read_form (fun _ => Iff.rfl) (fun rule => ?_) fun rule copy => ?_
  · simp [Rule.form, Form.record, Form.listOf, Atom.form]
  · change rule = copy ↔ _
    rw [← Rule.equivFields.injective.eq_iff, Prod.ext_iff]
    simp [Form.record, Form.listOf, Atom.form]

/-! ### Limits -/

inductive Json.IsLimit : Json → Prop where
  | null : IsLimit .null
  | integer (value : Nat) : value < UInt64.size → IsLimit (.integer value)

def Limits.limitForm : Form (Option Nat) where
  write := Limits.limitToJson
  read json := Limits.limitOfJson? (some json)
  Normal := Json.IsLimit
  Valid limit := ∀ value, limit = some value → value < UInt64.size
  Equal := Eq

theorem Limits.limitForm_lawful : Limits.limitForm.Lawful where
  read_write limit valid := by
    cases limit with
    | none => rfl
    | some value => exact if_pos (valid value rfl)
  valid json limit found := by
    rintro value rfl
    change Limits.limitOfJson? (some json) = some (some value) at found
    unfold Limits.limitOfJson? at found
    split at found
    next => cases found
    next => cases found
    next =>
      split at found
      next small =>
        cases found
        exact small
      next => cases found
    next => cases found
  normal_iff json := by
    constructor
    · rintro (_ | ⟨value, small⟩)
      · exact ⟨none, nofun, rfl⟩
      · exact ⟨some value, fun other same => Option.some.inj same ▸ small, rfl⟩
    · rintro ⟨_ | value, valid, rfl⟩
      · exact .null
      · exact .integer value (valid value rfl)
  refl _ := rfl
  respects a b alike := by
    suffices Limits.limitOfJson? (some a) = Limits.limitOfJson? (some b) by
      simp only [Limits.limitForm, this]
      exact rel_refl (fun _ => rfl) _
    induction alike with
    | trans _ _ first second => exact first.trans second
    | _ => rfl
  alike _ _ same := same ▸ .refl _

def Limits.form : Form Limits where
  write := Limits.toJson
  read := Limits.ofJson?
  Normal := Json.IsRecordOf "max_depth" Json.IsLimit "max_steps" Json.IsLimit
  Valid limits := (∀ limit, limits.maxDepth = some limit → limit < UInt64.size) ∧
    ∀ limit, limits.maxSteps = some limit → limit < UInt64.size
  Equal := Eq

def Limits.equivFields : Limits ≃ Option Nat × Option Nat where
  toFun limits := (limits.maxDepth, limits.maxSteps)
  invFun fields := ⟨fields.1, fields.2⟩
  left_inv _ := rfl
  right_inv _ := rfl

theorem Limits.read_form (json : Json) : (Limits.ofJson? json).map Limits.equivFields =
    (Form.record ⟨"max_depth", Limits.limitForm, some none⟩ ⟨"max_steps", Limits.limitForm, some none⟩).read json := by
  have read (name : String) (json? : Option Json) :
      Field.read? ⟨name, Limits.limitForm, some none⟩ json? = Limits.limitOfJson? json? := by
    cases json? <;> rfl
  dsimp only [Limits.ofJson?, Form.record]
  rcases json.fields?_two "max_depth" "max_steps" with missing | ⟨depth, steps, fields⟩
  · rw [missing]
    rfl
  · rw [fields, Option.bind_some]
    dsimp only
    rw [read, read]
    cases Limits.limitOfJson? depth with
    | none => rfl
    | some depth => cases Limits.limitOfJson? steps <;> rfl

theorem Limits.form_lawful : Limits.form.Lawful := by
  have absent (name : String) : Field.Lawful ⟨name, Limits.limitForm, some none⟩ :=
    ⟨Limits.limitForm_lawful, fun limit same => Option.some.inj same ▸ nofun⟩
  have lawful := Form.Lawful.record (absent "max_depth") (absent "max_steps") (by decide)
  refine lawful.transport Limits.equivFields (fun _ => rfl) Limits.read_form (fun _ => Iff.rfl) (fun _ => Iff.rfl)
    fun limits copy => ?_
  change limits = copy ↔ _
  rw [← Limits.equivFields.injective.eq_iff, Prod.ext_iff]
  rfl

/-- A limit that is not given is none. -/
theorem Limits.ofJson?_null_cons {members : List (String × Json)} {name : String}
    (absent : Json.member? members name = none) :
    Limits.ofJson? (.object ((name, .null) :: members)) = Limits.ofJson? (.object members) := by
  have same (field : String) : Limits.limitOfJson? (Json.member? ((name, .null) :: members) field) =
      Limits.limitOfJson? (Json.member? members field) := by
    rw [Json.member?_cons]
    by_cases here : name = field
    · subst here
      rw [absent, if_pos rfl]
      rfl
    · rw [if_neg here, Option.or_none]
  simp only [Limits.ofJson?, Json.fields?, List.map_cons, List.map_nil, same]

theorem Limits.ofJson?_append_null {items : List Json} (short : items.length < 2) :
    Limits.ofJson? (.array (items ++ [.null])) = Limits.ofJson? (.array items) := by
  match items, short with
  | [], _ => rfl
  | [_], _ => rfl

/-! ### Bindings and answers -/

inductive Json.IsMapOf (Normal : Json → Prop) : Json → Prop where
  | object {members : List (String × Json)} : (members.map Prod.fst).Nodup → (∀ member ∈ members, Normal member.2) →
    IsMapOf Normal (.object members)

namespace Bindings

def form : Form Bindings where
  write := toJson
  read := ofJson?
  Normal := Json.IsMapOf Json.IsText
  Valid _ := True
  Equal first second := first.agree second = true

/-- An entry of bindings as a member of an object. -/
def written (entry : String × String) : String × Json := (entry.1, .string entry.2)

def binding? (member : String × Json) : Option (String × String) := member.2.string?.map (member.1, ·)

theorem binding?_eq_some_iff {member : String × Json} {entry : String × String} :
    binding? member = some entry ↔ written entry = member := by
  obtain ⟨name, json⟩ := member
  obtain ⟨first, value⟩ := entry
  cases json <;> simp [binding?, written, Json.string?, and_comm, eq_comm]

theorem mapM_binding?_eq_some_iff {members : List (String × Json)} {entries : List (String × String)} :
    members.mapM binding? = some entries ↔ entries.map written = members := by
  rw [mapM_eq_some_iff, ← List.forall₂_eq_eq_eq, List.forall₂_map_left_iff]
  simp only [binding?_eq_some_iff]
  exact ⟨List.Forall₂.flip, List.Forall₂.flip⟩

theorem map_fst_written (entries : List (String × String)) :
    (entries.map written).map Prod.fst = entries.map Prod.fst := by
  rw [List.map_map]
  rfl

theorem entries_ofList {entries : List (String × String)} (distinct : (entries.map Prod.fst).Nodup) :
    (ofList entries).entries = entries :=
  entries_foldl_insert distinct

theorem nodup_written (bindings : Bindings) : ((bindings.entries.map written).map Prod.fst).Nodup := by
  rw [map_fst_written]
  exact bindings.distinct

theorem exists_ofJson?_of_perm {members more : List (String × Json)} (distinct : (members.map Prod.fst).Nodup)
    (arranged : members.Perm more) {bindings : Bindings} (found : ofJson? (.object members) = some bindings) :
    ∃ copy, ofJson? (.object more) = some copy ∧ bindings.agree copy = true := by
  obtain ⟨entries, read, rfl⟩ := Option.map_eq_some_iff.mp found
  obtain ⟨others, again, moved⟩ := exists_mapM_of_perm arranged read
  have names : (entries.map Prod.fst).Nodup := by
    rwa [← map_fst_written, mapM_binding?_eq_some_iff.mp read]
  refine ⟨ofList others, Option.map_eq_some_iff.mpr ⟨others, again, rfl⟩, agree_iff_perm.mpr ?_⟩
  rwa [entries_ofList names, entries_ofList ((moved.map Prod.fst).nodup_iff.mp names)]

/-- The members of an object in another order are the same bindings. -/
theorem rel_ofJson?_perm {members more : List (String × Json)} (distinct : (members.map Prod.fst).Nodup)
    (arranged : members.Perm more) : Option.Rel form.Equal (ofJson? (.object members)) (ofJson? (.object more)) := by
  cases first : ofJson? (.object members) with
  | some bindings =>
    obtain ⟨copy, again, equal⟩ := exists_ofJson?_of_perm distinct arranged first
    rw [again]
    exact .some equal
  | none =>
    cases second : ofJson? (.object more) with
    | none => exact .none
    | some bindings =>
      have others := (arranged.map Prod.fst).nodup_iff.mp distinct
      obtain ⟨copy, again, _⟩ := exists_ofJson?_of_perm others arranged.symm second
      cases first.symm.trans again

theorem form_lawful : form.Lawful where
  read_write bindings _ := by
    have read : (bindings.entries.map written).mapM binding? = some bindings.entries := mapM_binding?_eq_some_iff.mpr rfl
    have same : ofList bindings.entries = bindings := eq_of_entries (entries_ofList bindings.distinct)
    change ((bindings.entries.map written).mapM binding?).map ofList = some bindings
    rw [read, Option.map_some, same]
  valid _ _ _ := trivial
  normal_iff json := by
    constructor
    · rintro ⟨distinct, each⟩
      have single (member : String × Json) (text : Json.IsText member.2) :
          ∃ entry : String × String, True ∧ written entry = member := by
        obtain ⟨name, _⟩ := member
        obtain ⟨value⟩ := text
        exact ⟨(name, value), trivial, rfl⟩
      obtain ⟨entries, _, rfl⟩ := exists_map_eq fun member inside => single member (each member inside)
      rw [map_fst_written] at distinct
      exact ⟨⟨entries, distinct⟩, trivial, rfl⟩
    · rintro ⟨bindings, _, rfl⟩
      exact .object (nodup_written bindings) (List.forall_mem_map.mpr fun entry _ => .string entry.2)
  refl bindings := agree_iff_perm.mpr (.refl _)
  respects a b alike := by
    have refl (bindings : Bindings) : bindings.agree bindings = true := agree_iff_perm.mpr (.refl _)
    induction alike with
    | refl json => exact rel_refl refl _
    | trans _ _ first second =>
      refine rel_trans (fun _ _ _ left right => agree_iff_perm.mpr ?_) first second
      exact (agree_iff_perm.mp left).trans (agree_iff_perm.mp right)
    | item => exact .none
    | order distinct arranged => exact rel_ofJson?_perm distinct arranged
    | @member a b before name after alike =>
      have same : binding? (name, a) = binding? (name, b) := by simp only [binding?, alike.string?_eq]
      have equal : (before ++ (name, a) :: after).mapM binding? = (before ++ (name, b) :: after).mapM binding? := by
        simp only [List.mapM_append, List.mapM_cons, same]
      change Option.Rel form.Equal (((before ++ (name, a) :: after).mapM binding?).map ofList)
        (((before ++ (name, b) :: after).mapM binding?).map ofList)
      rw [equal]
      exact rel_refl refl _
  alike bindings copy equal := .order (nodup_written bindings) ((agree_iff_perm.mp equal).map written)

end Bindings

namespace Answer

/-- Answers are equal if they have equal solutions in the same order. -/
inductive Agree : Answer → Answer → Prop where
  | truth (holds : Bool) : Agree (.truth holds) (.truth holds)
  | solutions {all others : List Bindings} : List.Forall₂ (fun first second => first.agree second = true) all others →
    Agree (.solutions all) (.solutions others)

def form : Form Answer where
  write := toJson
  read := ofJson?
  Normal := Json.IsEither "Truth" Json.IsTruth "Solutions" (Json.IsListOf Bindings.form.Normal)
  Valid _ := True
  Equal := Agree

def equivSum : Answer ≃ Bool ⊕ List Bindings where
  toFun
    | .truth holds => .inl holds
    | .solutions all => .inr all
  invFun := Sum.elim .truth .solutions
  left_inv answer := by cases answer <;> rfl
  right_inv value := by cases value <;> rfl

theorem ofJson?_of_unknown {members : List (String × Json)}
    (unknown : ∀ tag json, members = [(tag, json)] → tag ≠ "Truth" ∧ tag ≠ "Solutions") :
    ofJson? (.object members) = none := by
  unfold ofJson?
  split
  next same => exact absurd rfl (unknown _ _ (Json.object.inj same)).1
  next same => exact absurd rfl (unknown _ _ (Json.object.inj same)).2
  next => rfl

theorem read_form (json : Json) : (ofJson? json).map equivSum =
    (Form.tagged "Truth" Form.truth "Solutions" Bindings.form.listOf).read json := by
  cases json with
  | object members =>
    match members with
    | [] => rfl
    | [(tag, json)] =>
      by_cases first : tag = "Truth"
      · subst first
        cases json <;> rfl
      by_cases second : tag = "Solutions"
      · subst second
        cases json with
        | array items =>
          change ((items.mapM Bindings.ofJson?).map Answer.solutions).map equivSum =
            (items.mapM Bindings.ofJson?).bind fun value => some (.inr value)
          cases items.mapM Bindings.ofJson? <;> rfl
        | _ => rfl
      rw [ofJson?_of_unknown fun tag json same => by cases same; exact ⟨first, second⟩]
      simp [Form.tagged, Json.single?, first, second]
    | _ :: _ :: _ =>
      rw [ofJson?_of_unknown fun tag json same => by cases same]
      rfl
  | _ => rfl

theorem form_lawful : form.Lawful := by
  have lawful := Form.Lawful.tagged Form.truth_lawful Bindings.form_lawful.listOf
    (show "Truth" ≠ "Solutions" by decide)
  refine lawful.transport equivSum (fun answer => ?_) read_form (fun _ => Iff.rfl) (fun answer => ?_) fun answer copy => ?_
  · cases answer <;> rfl
  · cases answer <;> simp [form, equivSum, Form.tagged, Form.truth, Form.listOf, Bindings.form]
  · constructor
    · rintro (holds | each)
      · exact .inl rfl
      · exact .inr each
    · intro equal
      cases answer <;> cases copy <;> cases equal
      case truth.truth.inl same => exact same ▸ .truth _
      case solutions.solutions.inr each => exact .solutions each

end Answer

namespace Proofs

/-- Every value survives the way to JSON and back, whatever order the members of objects arrive in. Whatever is accepted is
written in the one normal shape, which is accepted again as the same value. A record may as well be given as an array of
its fields, and limits may be left out. -/
theorem json_round_trip :
    (Term.form.RoundTrips ∧ Atom.form.RoundTrips ∧ Rule.form.RoundTrips ∧ Bindings.form.RoundTrips ∧
      Answer.form.RoundTrips ∧ Limits.form.RoundTrips) ∧
    (∀ members name arguments, Json.member? members "name" = some name → Json.member? members "args" = some arguments →
      Atom.ofJson? (.array [name, arguments]) = Atom.ofJson? (.object members)) ∧
    (∀ members head body, Json.member? members "head" = some head → Json.member? members "body" = some body →
      Rule.ofJson? (.array [head, body]) = Rule.ofJson? (.object members)) ∧
    (∀ members depth steps, Json.member? members "max_depth" = some depth → Json.member? members "max_steps" = some steps →
      Limits.ofJson? (.array [depth, steps]) = Limits.ofJson? (.object members)) ∧
    (∀ members name, Json.member? members name = none →
      Limits.ofJson? (.object ((name, .null) :: members)) = Limits.ofJson? (.object members)) ∧
    ∀ items : List Json, items.length < 2 →
      Limits.ofJson? (.array (items ++ [.null])) = Limits.ofJson? (.array items) := by
  refine ⟨⟨Term.form_lawful.roundTrips, Atom.form_lawful.roundTrips, Rule.form_lawful.roundTrips,
    Bindings.form_lawful.roundTrips, Answer.form_lawful.roundTrips, Limits.form_lawful.roundTrips⟩, ?_, ?_, ?_,
    fun _ _ => Limits.ofJson?_null_cons, fun _ => Limits.ofJson?_append_null⟩
  · intro members name arguments first second
    rw [Atom.ofJson?, Atom.ofJson?, Json.fields?_positional first second]
  · intro members head body first second
    rw [Rule.ofJson?, Rule.ofJson?, Json.fields?_positional first second]
  · intro members depth steps first second
    rw [Limits.ofJson?, Limits.ofJson?, Json.fields?_positional first second]

example : Rule.form.normalize (.array [.object [("args", .array []), ("note", .null), ("name", .string "wet")], .array []]) =
    some (.object [("head", .object [("name", .string "wet"), ("args", .array [])]), ("body", .array [])]) := by rfl

end Proofs
end Backchain
