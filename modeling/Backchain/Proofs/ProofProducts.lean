import Backchain.Proofs.ProofInstances
import Mathlib.Data.List.Lex
import Mathlib.Data.List.Sort

/-! Proofs of several queries that share no variables. They are the proofs of the single queries, one after the other, in
all combinations, and their order by choices is the order of the combinations. -/

namespace Backchain.Proofs

/-- All ways to take one item from each list. What is taken from the first list changes last, unlike in Mathlib's
`List.sections`. -/
def selections {α : Type} : List (List α) → List (List α)
  | [] => [[]]
  | items :: others => items.flatMap fun item => (selections others).map (item :: ·)

theorem selections_map {α β : Type} (f : α → β) (lists : List (List α)) :
    selections (lists.map (List.map f)) = (selections lists).map (List.map f) := by
  induction lists with
  | nil => rfl
  | cons items others ih =>
    simp only [selections, List.map_cons, ih, List.flatMap_map, List.map_flatMap, List.map_map, Function.comp_def]

theorem mem_selections {α : Type} {lists : List (List α)} {chosen : List α} :
    chosen ∈ selections lists ↔ List.Forall₂ (fun item items => item ∈ items) chosen lists := by
  induction lists generalizing chosen with
  | nil => simp [selections]
  | cons items others ih =>
    simp only [selections, List.mem_flatMap, List.mem_map, ih, List.forall₂_cons_right_iff]
    constructor
    · rintro ⟨item, member, rest, all, rfl⟩
      exact ⟨item, rest, member, all, rfl⟩
    · rintro ⟨item, rest, member, all, rfl⟩
      exact ⟨item, member, rest, all, rfl⟩

example : selections [["a", "b"], ["x", "y"]] = [["a", "x"], ["a", "y"], ["b", "x"], ["b", "y"]] := rfl

theorem selections_eq_nil_iff {α : Type} {lists : List (List α)} : selections lists = [] ↔ [] ∈ lists := by
  induction lists with
  | nil => simp [selections]
  | cons items others ih =>
    cases items with
    | nil => simp [selections]
    | cons item items =>
      simp only [selections, List.flatMap_eq_nil_iff, List.map_eq_nil_iff, ih, List.mem_cons, reduceCtorEq, false_or]
      exact ⟨fun all => all item (Or.inl rfl), fun none _ _ => none⟩

/-! ### Proofs side by side -/

def ProofForest.join {label : Type} (forests : List (ProofForest label)) : ProofForest label :=
  forests.foldr ProofForest.append .done

variable {database : Database} {first second goals others : List (Atom × (String → String))}
  {forest other : ProofForest Unit}

theorem Solved.split (solved : Solved database (first ++ second) forest) :
    Solved database first (forest.take first.length) ∧ Solved database second (forest.drop first.length) := by
  induction first generalizing forest with
  | nil => exact ⟨.done, solved⟩
  | cons goal first ih =>
    cases solved with
    | fact stored apart same others =>
      obtain ⟨front, back⟩ := ih others
      exact ⟨.fact stored apart same front, back⟩
    | rule stored own same body others =>
      obtain ⟨front, back⟩ := ih others
      exact ⟨.rule stored own same body front, back⟩

/-- The choices of a proof tell where it ends: the database says how many premises each choice of a rule has. -/
theorem Solved.eq_of_choices (solved : Solved database goals forest) (again : Solved database others other)
    (atoms : goals.map Prod.fst = others.map Prod.fst) {after later : List Choice}
    (same : forest.choices ++ after = other.choices ++ later) : forest = other ∧ after = later := by
  induction solved generalizing others other after later with
  | done =>
    obtain rfl := List.map_eq_nil_iff.mp atoms.symm
    cases again
    exact ⟨rfl, same⟩
  | fact stored _ _ _ ih =>
    obtain ⟨goal, others, rfl, atom, rest⟩ := List.map_eq_cons_iff.mp atoms.symm
    cases again with
    | fact _ _ _ remaining =>
      simp only [ProofForest.choices, List.cons_append, List.cons.injEq, Choice.fact.injEq] at same
      obtain ⟨rfl, equal⟩ := ih remaining rest.symm same.2
      exact ⟨by rw [same.1], equal⟩
    | rule => simp [ProofForest.choices] at same
  | rule stored own _ body _ bodyIh ih =>
    obtain ⟨goal, others, rfl, atom, rest⟩ := List.map_eq_cons_iff.mp atoms.symm
    cases again with
    | fact => simp [ProofForest.choices] at same
    | rule known another _ premises remaining =>
      simp only [ProofForest.choices, List.cons_append, List.append_assoc, List.cons.injEq, Choice.rule.injEq] at same
      obtain ⟨rfl, choices⟩ := same
      obtain rfl := Option.some.inj (stored.symm.trans known)
      obtain ⟨rfl, equal⟩ := bodyIh premises (by simp [Function.comp_def]) choices
      obtain ⟨rfl, left⟩ := ih remaining rest.symm equal
      exact ⟨rfl, left⟩

/-- What follows the proofs of the same atoms does not change their order. -/
theorem Solved.before_append (solved : Solved database goals forest) (again : Solved database others other)
    (atoms : goals.map Prod.fst = others.map Prod.fst) (before : forest.Before other) (after later : ProofForest Unit) :
    (forest.append after).Before (other.append later) := by
  rw [ProofForest.Before, ProofForest.choices_append, ProofForest.choices_append]
  rcases lex_append_or_eq_append before with less | ⟨more, longer⟩
  · exact less after.choices later.choices
  · have same : forest.choices ++ more = other.choices ++ [] := by rw [longer, List.append_nil]
    obtain ⟨rfl, _⟩ := solved.eq_of_choices again atoms same
    exact absurd before forest.before_irrefl

theorem ProofForest.before_append_left {label : Type} {after later : ProofForest label} (before : after.Before later)
    (forest : ProofForest label) : (forest.append after).Before (forest.append later) := by
  rw [ProofForest.Before, ProofForest.choices_append, ProofForest.choices_append]
  exact List.Lex.append_left _ before forest.choices

instance : Std.Asymm Choice.Before where
  asymm first second before after := by
    cases first <;> cases second <;> simp only [Choice.Before] at before after <;> omega

instance {label : Type} : Std.Asymm fun first second : ProofForest label => first.Before second where
  asymm first second before after := by
    unfold ProofForest.Before at before after
    exact asymm before after

/-! ### The list of all proofs -/

/-- The list has the proofs of the queries under any constants, in the order of their choices. -/
structure ListsProofs (database : Database) (queries : List Atom) (forests : List (ProofForest Unit)) : Prop where
  ordered : forests.Pairwise ProofForest.Before
  complete : ∀ forest, forest ∈ forests ↔
    ∃ assigns : List (String → String), assigns.length = queries.length ∧ Solved database (queries.zip assigns) forest

namespace ListsProofs
variable {queries : List Atom} {query : Atom} {forests rest : List (ProofForest Unit)}

theorem eq (lists : ListsProofs database queries forests) (again : ListsProofs database queries rest) :
    forests = rest :=
  List.Pairwise.eq_of_mem_iff lists.ordered again.ordered fun forest =>
    (lists.complete forest).trans (again.complete forest).symm

theorem exists_solved (lists : ListsProofs database [query] forests) (member : forest ∈ forests) :
    ∃ assign, Solved database [(query, assign)] forest := by
  obtain ⟨assigns, size, solved⟩ := (lists.complete forest).mp member
  obtain ⟨assign, rfl⟩ := List.length_eq_one_iff.mp size
  exact ⟨assign, solved⟩

theorem nil (database : Database) : ListsProofs database [] [.done] where
  ordered := List.pairwise_singleton ..
  complete forest := by
    rw [List.mem_singleton]
    constructor
    · rintro rfl
      exact ⟨[], rfl, .done⟩
    · rintro ⟨assigns, _, solved⟩
      cases solved
      rfl

theorem cons (first : ListsProofs database [query] forests) (others : ListsProofs database queries rest) :
    ListsProofs database (query :: queries) (forests.flatMap fun forest => rest.map forest.append) where
  ordered := by
    refine List.pairwise_flatMap.mpr ⟨fun forest _ => ?_, first.ordered.imp_of_mem ?_⟩
    · exact List.pairwise_map.mpr (others.ordered.imp fun before => ProofForest.before_append_left before forest)
    · intro forest other inside present before left fromFirst right fromSecond
      obtain ⟨after, _, rfl⟩ := List.mem_map.mp fromFirst
      obtain ⟨later, _, rfl⟩ := List.mem_map.mp fromSecond
      obtain ⟨_, solved⟩ := first.exists_solved inside
      obtain ⟨_, again⟩ := first.exists_solved present
      exact solved.before_append again rfl before after later
  complete forest := by
    simp only [List.mem_flatMap, List.mem_map]
    constructor
    · rintro ⟨front, inside, back, present, rfl⟩
      obtain ⟨assign, solved⟩ := first.exists_solved inside
      obtain ⟨assigns, size, remaining⟩ := (others.complete back).mp present
      exact ⟨assign :: assigns, congrArg (· + 1) size, solved.append remaining⟩
    · rintro ⟨assigns, size, solved⟩
      obtain ⟨assign, assigns, rfl⟩ := List.exists_cons_of_length_eq_add_one size
      change Solved database ([(query, assign)] ++ queries.zip assigns) forest at solved
      obtain ⟨front, back⟩ := solved.split
      refine ⟨forest.take 1, ?_, forest.drop 1, ?_, forest.append_take_drop 1⟩
      · exact (first.complete _).mpr ⟨[assign], rfl, front⟩
      · exact (others.complete _).mpr ⟨assigns, Nat.succ.inj size, back⟩

/-- The proofs of several queries are the combinations of the proofs of each. -/
theorem join {lists : List (List (ProofForest Unit))}
    (each : List.Forall₂ (fun query forests => ListsProofs database [query] forests) queries lists) :
    ListsProofs database queries ((selections lists).map ProofForest.join) := by
  induction each with
  | nil => exact nil database
  | @cons query forests queries lists first _ ih =>
    have combined := first.cons ih
    simpa only [selections, List.map_flatMap, List.map_map, Function.comp_def, ProofForest.join, List.foldr_cons]
      using combined

end ListsProofs
end Backchain.Proofs
