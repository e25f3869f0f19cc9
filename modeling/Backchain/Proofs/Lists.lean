import Mathlib.Data.List.Forall2
import Mathlib.Data.List.Perm.Basic

/-! Facts about lists and optional values that are about no program: duplicates, lists that correspond item by item, places
in a list, and functions that may fail. -/

namespace Backchain

variable {α β γ δ : Type}

/-! ### Duplicates -/

theorem nodup_eraseDups [BEq α] [LawfulBEq α] (items : List α) : items.eraseDups.Nodup := by
  induction size : items.length using Nat.strongRecOn generalizing items with
  | ind length ih =>
    cases items with
    | nil => exact List.nodup_nil
    | cons item items =>
      rw [List.eraseDups_cons]
      refine List.nodup_cons.mpr ⟨?_, ih _ ?_ _ rfl⟩
      · simp
      · rw [← size]
        exact Nat.lt_succ_of_le (List.length_filter_le ..)

theorem eraseDups_of_nodup [BEq α] [LawfulBEq α] {items : List α} (distinct : items.Nodup) :
    items.eraseDups = items := by
  induction items with
  | nil => rfl
  | cons item items ih =>
    obtain ⟨absent, rest⟩ := List.nodup_cons.mp distinct
    have kept : items.filter (fun other => !other == item) = items :=
      List.filter_eq_self.mpr fun other member => by simpa using fun same : other = item => absent (same ▸ member)
    rw [List.eraseDups_cons, kept, ih rest]

theorem eraseDups_append_singleton [DecidableEq α] (items : List α) (item : α) :
    (items ++ [item]).eraseDups = if item ∈ items then items.eraseDups else items.eraseDups ++ [item] := by
  rw [List.eraseDups_append]
  by_cases known : item ∈ items
  · simp [List.removeAll, known]
  · simp [List.removeAll, known, List.eraseDups_cons]

theorem eraseDups_map [BEq α] [LawfulBEq α] [BEq β] [LawfulBEq β] {image : α → β} {items : List α}
    (injective : ∀ first ∈ items, ∀ second ∈ items, image first = image second → first = second) :
    (items.map image).eraseDups = items.eraseDups.map image := by
  induction size : items.length using Nat.strongRecOn generalizing items with
  | ind length ih =>
    cases items with
    | nil => rfl
    | cons item items =>
      have others : (items.map image).filter (fun other => !other == image item) =
          (items.filter fun other => !other == item).map image := by
        rw [List.filter_map]
        congr 1
        apply List.filter_congr
        intro other member
        have same : image other = image item ↔ other = item :=
          ⟨injective other (List.mem_cons_of_mem _ member) item (List.mem_cons_self ..), congrArg image⟩
        rw [Function.comp_apply, beq_eq_beq.mpr same]
      have shorter : (items.filter fun other => !other == item).length < length := by
        rw [← size]
        exact Nat.lt_succ_of_le (List.length_filter_le ..)
      rw [List.map_cons, List.eraseDups_cons, List.eraseDups_cons, List.map_cons, others, ih _ shorter _ rfl]
      intro first left second right
      exact injective first (List.mem_cons_of_mem _ (List.mem_of_mem_filter left)) second
        (List.mem_cons_of_mem _ (List.mem_of_mem_filter right))

/-- A part of a list without duplicates is known by its members. -/
theorem eq_filter_of_sublist {part items : List α} (sublist : part.Sublist items) (distinct : items.Nodup)
    {keep : α → Bool} (same : ∀ item ∈ items, item ∈ part ↔ keep item = true) : part = items.filter keep := by
  induction sublist with
  | slnil => rfl
  | @cons part items item sublist ih =>
    obtain ⟨absent, distinct⟩ := List.nodup_cons.mp distinct
    obtain ⟨here, later⟩ := List.forall_mem_cons.mp same
    have dropped : ¬ keep item = true := fun kept => absent (sublist.subset (here.mpr kept))
    rw [List.filter_cons_of_neg dropped, ← ih distinct later]
  | @cons_cons part items item sublist ih =>
    obtain ⟨absent, distinct⟩ := List.nodup_cons.mp distinct
    obtain ⟨here, later⟩ := List.forall_mem_cons.mp same
    have kept : keep item = true := here.mp (List.mem_cons_self ..)
    rw [List.filter_cons_of_pos kept, ← ih distinct]
    intro other member
    have different : other ≠ item := fun equal => absent (equal ▸ member)
    rw [← later other member, List.mem_cons, or_iff_right different]

/-! ### Lists that correspond -/

theorem forall₂_trans {related : α → α → Prop} (trans : ∀ a b c, related a b → related b c → related a c)
    {first second third : List α} (left : List.Forall₂ related first second)
    (right : List.Forall₂ related second third) : List.Forall₂ related first third := by
  induction left generalizing third with
  | nil => exact right
  | cons here _ ih =>
    obtain ⟨there, rest⟩ | _ := right
    exact .cons (trans _ _ _ here ‹_›) (ih ‹_›)

theorem forall₂_around {related : α → α → Prop} (refl : ∀ a, related a a) {a b : α} (here : related a b)
    (before after : List α) : List.Forall₂ related (before ++ a :: after) (before ++ b :: after) := by
  have same (items : List α) : List.Forall₂ related items items := List.forall₂_same.mpr fun a _ => refl a
  exact List.rel_append (same before) (.cons here (same after))

theorem forall_mem_of_forall₂ {related : α → β → Prop} {holds : α → Prop} {first : List α} {second : List β}
    (paired : List.Forall₂ related first second) (implies : ∀ a b, related a b → holds a) : ∀ a ∈ first, holds a :=
  ((List.forall₂_and_left first second).mp (paired.imp fun a b here => ⟨implies a b here, here⟩)).1

theorem exists_append_of_forall₂ {related : α → β → Prop} {first second : List α} {others : List β}
    (paired : List.Forall₂ related (first ++ second) others) :
    ∃ left right, others = left ++ right ∧ List.Forall₂ related first left ∧ List.Forall₂ related second right := by
  induction first generalizing others with
  | nil => exact ⟨[], others, rfl, .nil, paired⟩
  | cons item first ih =>
    cases paired with
    | @cons _ other _ others here paired =>
      obtain ⟨left, right, rfl, front, back⟩ := ih paired
      exact ⟨other :: left, right, rfl, .cons here front, back⟩

theorem map_eq_of_forall₂ {related : α → α → Prop} {read : α → β} {first second : List α}
    (paired : List.Forall₂ related first second) (same : ∀ a b, related a b → read a = read b) :
    first.map read = second.map read := by
  rw [← List.forall₂_eq_eq_eq, List.forall₂_map_left_iff, List.forall₂_map_right_iff]
  exact paired.imp same

theorem map_eq_map_of_forall {f : α → γ} {g : β → γ} {f' : α → δ} {g' : β → δ} {left : List α}
    {right : List β} (same : left.map f = right.map g)
    (imp : ∀ x ∈ left, ∀ y ∈ right, f x = g y → f' x = g' y) : left.map f' = right.map g' := by
  induction left generalizing right with
  | nil =>
    obtain rfl := List.map_eq_nil_iff.mp same.symm
    rfl
  | cons x left ih =>
    cases right with
    | nil => cases same
    | cons y right =>
      obtain ⟨here, later⟩ := List.cons_eq_cons.mp same
      have others := ih later fun x inside y present =>
        imp x (List.mem_cons_of_mem _ inside) y (List.mem_cons_of_mem _ present)
      rw [List.map_cons, List.map_cons, others, imp x (List.mem_cons_self ..) y (List.mem_cons_self ..) here]

theorem map_eq_map_iff_zip (f : α → β) (left right : List α) :
    left.map f = right.map f ↔ left.length = right.length ∧ ∀ pair ∈ left.zip right, f pair.1 = f pair.2 := by
  induction left generalizing right with
  | nil => cases right <;> simp
  | cons x left ih =>
    cases right with
    | nil => simp
    | cons y right => simp [ih, and_left_comm]

/-- Items in another order can be arranged like those whose marks they have. -/
theorem exists_arranged {items : List α} {others : List β} {mark : α → γ} {read : β → γ}
    (same : (items.map mark).Perm (others.map read)) :
    ∃ arranged : List β, items.map mark = arranged.map read ∧ arranged.Perm others := by
  have paired : List.Forall₂ (fun value other => value = read other) (others.map read) others :=
    List.forall₂_map_left_iff.mpr (List.forall₂_same.mpr fun _ _ => rfl)
  obtain ⟨arranged, equal, order⟩ := List.perm_comp_forall₂ same paired
  refine ⟨arranged, ?_, order⟩
  rwa [← List.forall₂_eq_eq_eq, List.forall₂_map_right_iff]

theorem exists_map_eq {f : α → β} {holds : α → Prop} {results : List β}
    (each : ∀ result ∈ results, ∃ item, holds item ∧ f item = result) :
    ∃ items : List α, (∀ item ∈ items, holds item) ∧ items.map f = results := by
  induction results with
  | nil => exact ⟨[], by simp, rfl⟩
  | cons result rest ih =>
    obtain ⟨item, here, rfl⟩ := each result (List.mem_cons_self ..)
    obtain ⟨items, all, rfl⟩ := ih fun result member => each result (List.mem_cons_of_mem _ member)
    exact ⟨item :: items, List.forall_mem_cons.mpr ⟨here, all⟩, rfl⟩

/-! ### Places and order -/

theorem take_zipIdx (items : List α) (count : Nat) : items.zipIdx.take count = (items.take count).zipIdx := by
  apply List.ext_getElem?
  intro index
  rw [List.getElem?_take, List.getElem?_zipIdx, List.getElem?_zipIdx, List.getElem?_take]
  split <;> rfl

theorem findSome?_reverse_eq_some_iff {f : α → Option β} {items : List α} {result : β} :
    items.reverse.findSome? f = some result ↔ ∃ earlier item later, items = earlier ++ item :: later ∧
      f item = some result ∧ ∀ other ∈ later, f other = none := by
  rw [List.findSome?_eq_some_iff]
  constructor
  · intro found
    obtain ⟨front, item, back, split, here, none⟩ := found
    refine ⟨back.reverse, item, front.reverse, ?_, here, fun other member => none other (List.mem_reverse.mp member)⟩
    simpa using congrArg List.reverse split
  · intro found
    obtain ⟨earlier, item, later, rfl, here, none⟩ := found
    refine ⟨later.reverse, item, earlier.reverse, ?_, here, fun other member => none other (List.mem_reverse.mp member)⟩
    simp

theorem lex_map {before : α → α → Prop} {after : β → β → Prop} {change : α → β} {first second : List α}
    (ordered : List.Lex before first second) (kept : ∀ a b, before a b → after (change a) (change b)) :
    List.Lex after (first.map change) (second.map change) := by
  induction ordered with
  | nil => exact .nil
  | cons _ ih => exact .cons ih
  | rel here => exact .rel (kept _ _ here)

theorem lex_append_or_eq_append {relation : α → α → Prop} {left right : List α}
    (less : List.Lex relation left right) :
    (∀ after later, List.Lex relation (left ++ after) (right ++ later)) ∨ ∃ more, right = left ++ more := by
  induction less with
  | nil => exact Or.inr ⟨_, rfl⟩
  | rel smaller => exact Or.inl fun _ _ => .rel smaller
  | cons _ ih =>
    refine ih.imp (fun less after later => .cons (less after later)) ?_
    rintro ⟨more, rfl⟩
    exact ⟨more, rfl⟩

/-! ### Optional values -/

section

theorem rel_refl {related : α → α → Prop} (refl : ∀ a, related a a) (value? : Option α) :
    Option.Rel related value? value? := by
  cases value? with
  | none => exact .none
  | some value => exact .some (refl value)

theorem rel_trans {related : α → α → Prop} (trans : ∀ a b c, related a b → related b c → related a c)
    {first second third : Option α} (left : Option.Rel related first second) (right : Option.Rel related second third) :
    Option.Rel related first third := by
  cases left with
  | none => exact right
  | some here =>
    cases right with
    | some there => exact .some (trans _ _ _ here there)

variable {related : α → β → Prop} {first : Option α} {second : Option β}

theorem rel_mono {weaker : α → β → Prop} (rel : Option.Rel related first second)
    (implies : ∀ a b, related a b → weaker a b) : Option.Rel weaker first second := by
  cases rel with
  | none => exact .none
  | some here => exact .some (implies _ _ here)

theorem rel_map {images : γ → δ → Prop} {f : α → γ} {g : β → δ} (rel : Option.Rel related first second)
    (implies : ∀ a b, related a b → images (f a) (g b)) : Option.Rel images (first.map f) (second.map g) := by
  cases rel with
  | none => exact .none
  | some here => exact .some (implies _ _ here)

theorem rel_flip (rel : Option.Rel related first second) : Option.Rel (flip related) second first := by
  cases rel with
  | none => exact .none
  | some here => exact .some here

theorem rel_bind {images : γ → δ → Prop} {f : α → Option γ} {g : β → Option δ} (here : Option.Rel related first second)
    (step : ∀ a b, related a b → Option.Rel images (f a) (g b)) : Option.Rel images (first.bind f) (second.bind g) := by
  cases here with
  | none => exact .none
  | some pair => exact step _ _ pair

end

/-! ### Functions that may fail -/

theorem ok_bind {ε : Type} (value : α) (next : α → Except ε β) : Except.ok value >>= next = next value := rfl

theorem bind_eq_ok {ε : Type} {first : Except ε α} {next : α → Except ε β} {result : β} :
    first >>= next = .ok result ↔ ∃ middle, first = .ok middle ∧ next middle = .ok result := by
  cases first with
  | error fault => simp [bind, Except.bind]
  | ok middle => simp [bind, Except.bind]

theorem mapM_eq_pure {m : Type → Type} [Monad m] [LawfulMonad m] {f : α → m β} {g : α → β} {items : List α}
    (all : ∀ item ∈ items, f item = pure (g item)) : items.mapM f = pure (items.map g) := by
  induction items with
  | nil => rfl
  | cons item items ih =>
    obtain ⟨here, later⟩ := List.forall_mem_cons.mp all
    rw [List.mapM_cons, here, ih later, pure_bind, pure_bind]
    rfl

theorem mapM_eq_some_iff {f : α → Option β} {items : List α} {results : List β} :
    items.mapM f = some results ↔ List.Forall₂ (fun item result => f item = some result) items results := by
  induction items generalizing results with
  | nil => simp [eq_comm]
  | cons item rest ih =>
    rw [List.mapM_cons, List.forall₂_cons_left_iff]
    simp only [Option.bind_eq_bind, Option.bind_eq_some_iff, Option.pure_def, Option.some.injEq, ih]
    exact ⟨fun ⟨result, found, more, each, same⟩ => ⟨result, more, found, each, same.symm⟩,
      fun ⟨result, more, found, each, same⟩ => ⟨result, found, more, each, same.symm⟩⟩

theorem rel_mapM {related : α → β → Prop} {images : γ → δ → Prop} {f : α → Option γ} {g : β → Option δ}
    {first : List α} {second : List β} (each : List.Forall₂ related first second)
    (step : ∀ a b, related a b → Option.Rel images (f a) (g b)) :
    Option.Rel (List.Forall₂ images) (first.mapM f) (second.mapM g) := by
  induction each with
  | nil => exact .some .nil
  | cons here _ ih =>
    rw [List.mapM_cons, List.mapM_cons]
    exact rel_bind (step _ _ here) fun _ _ image => rel_bind ih fun _ _ images => .some (.cons image images)

theorem exists_mapM_of_perm {f : α → Option β} {first second : List α} {results : List β} (arranged : first.Perm second)
    (mapped : first.mapM f = some results) : ∃ others, second.mapM f = some others ∧ results.Perm others := by
  obtain ⟨others, each, moved⟩ := List.perm_comp_forall₂ arranged.symm (mapM_eq_some_iff.mp mapped)
  exact ⟨others, mapM_eq_some_iff.mpr each, moved.symm⟩

end Backchain
