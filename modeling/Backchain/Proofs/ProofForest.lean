import Backchain.Proofs.UnificationClosure

/-! Proofs as trees, without a search. A proof of a goal is a stored fact, or a rule with proofs of its premises;
what it needs to be valid are equations between keys, in no particular order of discovery. -/

namespace Backchain.Proofs

/-- Proofs for a list of goals, from the first goal on. A rule stands before the proofs of its premises, and those
before the proofs of the other goals. -/
inductive ProofForest (label : Type) where
  | done
  | fact (index : Nat) (rest : ProofForest label)
  | rule (index : Nat) (own : label) (premises rest : ProofForest label)
deriving DecidableEq

inductive Choice where
  | fact (index : Nat)
  | rule (index : Nat)
deriving DecidableEq

/-- Facts come before rules, and each kind in the order of the database. -/
def Choice.Before : Choice → Choice → Prop
  | .fact first, .fact second => first < second
  | .fact _, .rule _ => True
  | .rule _, .fact _ => False
  | .rule first, .rule second => first < second

theorem Choice.before_irrefl (choice : Choice) : ¬ choice.Before choice := by
  cases choice <;> exact Nat.lt_irrefl _

namespace ProofForest
variable {label : Type}

def size : ProofForest label → Nat
  | .done => 0
  | .fact _ rest => rest.size + 1
  | .rule _ _ _ rest => rest.size + 1

def erase : ProofForest label → ProofForest Unit
  | .done => .done
  | .fact index rest => .fact index rest.erase
  | .rule index _ premises rest => .rule index () premises.erase rest.erase

/-- The choices from left to right, every goal before its premises. -/
def choices : ProofForest label → List Choice
  | .done => []
  | .fact index rest => .fact index :: rest.choices
  | .rule index _ premises rest => .rule index :: (premises.choices ++ rest.choices)

def labels : ProofForest label → List label
  | .done => []
  | .fact _ rest => rest.labels
  | .rule _ own premises rest => own :: (premises.labels ++ rest.labels)

def Before (first second : ProofForest label) : Prop :=
  List.Lex Choice.Before first.choices second.choices

theorem before_irrefl (forest : ProofForest label) : ¬ forest.Before forest :=
  List.lex_irrefl Choice.before_irrefl forest.choices

def append : ProofForest label → ProofForest label → ProofForest label
  | .done, second => second
  | .fact index rest, second => .fact index (rest.append second)
  | .rule index own premises rest, second => .rule index own premises (rest.append second)

def take : Nat → ProofForest label → ProofForest label
  | 0, _ => .done
  | _ + 1, .done => .done
  | count + 1, .fact index rest => .fact index (rest.take count)
  | count + 1, .rule index own premises rest => .rule index own premises (rest.take count)

def drop : Nat → ProofForest label → ProofForest label
  | 0, forest => forest
  | _ + 1, .done => .done
  | count + 1, .fact _ rest => rest.drop count
  | count + 1, .rule _ _ _ rest => rest.drop count

theorem append_take_drop (count : Nat) (forest : ProofForest label) :
    (forest.take count).append (forest.drop count) = forest := by
  induction count generalizing forest with
  | zero => rfl
  | succ count ih => cases forest <;> simp [take, drop, append, ih]

theorem take_append (first second : ProofForest label) : (first.append second).take first.size = first := by
  induction first with
  | done => rfl
  | fact index rest ih => simp [append, size, take, ih]
  | rule index own premises rest _ ih => simp [append, size, take, ih]

theorem drop_append (first second : ProofForest label) : (first.append second).drop first.size = second := by
  induction first with
  | done => rfl
  | fact index rest ih => simp [append, size, drop, ih]
  | rule index own premises rest _ ih => simp [append, size, drop, ih]

theorem append_done (forest : ProofForest label) : forest.append .done = forest := by
  induction forest with
  | done => rfl
  | fact index rest ih => simp [append, ih]
  | rule index own premises rest _ ih => simp [append, ih]

theorem choices_append (first second : ProofForest label) :
    (first.append second).choices = first.choices ++ second.choices := by
  induction first with
  | done => rfl
  | fact index rest ih => simp [append, choices, ih]
  | rule index own premises rest _ ih => simp [append, choices, ih]

theorem labels_append (first second : ProofForest label) :
    (first.append second).labels = first.labels ++ second.labels := by
  induction first with
  | done => rfl
  | fact index rest ih => simp [append, labels, ih]
  | rule index own premises rest _ ih => simp [append, labels, ih]

theorem erase_take (count : Nat) (forest : ProofForest label) : (forest.take count).erase = forest.erase.take count := by
  induction count generalizing forest with
  | zero => rfl
  | succ count ih => cases forest <;> simp [take, erase, ih]

theorem erase_drop (count : Nat) (forest : ProofForest label) : (forest.drop count).erase = forest.erase.drop count := by
  induction count generalizing forest with
  | zero => rfl
  | succ count ih => cases forest <;> simp [drop, erase, ih]

@[simp] theorem choices_erase (forest : ProofForest label) : forest.erase.choices = forest.choices := by
  induction forest with
  | done => rfl
  | fact index rest ih => simp [erase, choices, ih]
  | rule index own premises rest first second => simp [erase, choices, first, second]

end ProofForest

/-- The forest proves the goals up to the equations. Facts are read in the scope of the goal, and a rule in the
scope it is labelled with. -/
inductive Proves (database : Database) : List ScopedAtom → ProofForest Scope → List (Key × Key) → Prop where
  | done : Proves database [] .done []
  | fact {goal : ScopedAtom} {goals : List ScopedAtom} {index : Nat} {fact : Atom} {rest : ProofForest Scope}
      {needed : List (Key × Key)} (stored : database.facts[index]? = some fact)
      (fits : Matches ⟨fact, goal.scope⟩ goal) (others : Proves database goals rest needed) :
      Proves database (goal :: goals) (.fact index rest) (equations ⟨fact, goal.scope⟩ goal ++ needed)
  | rule {goal : ScopedAtom} {goals : List ScopedAtom} {index : Nat} {rule : Rule} {own : Scope}
      {premises rest : ProofForest Scope} {inner needed : List (Key × Key)}
      (stored : database.rules[index]? = some rule) (fits : Matches ⟨rule.head, own⟩ goal)
      (body : Proves database (rule.body.map (⟨·, own⟩)) premises inner)
      (others : Proves database goals rest needed) :
      Proves database (goal :: goals) (.rule index own premises rest)
        (equations ⟨rule.head, own⟩ goal ++ (inner ++ needed))

variable {database : Database} {first second goals : List ScopedAtom} {forest : ProofForest Scope}
  {needed : List (Key × Key)}

theorem Proves.split (proves : Proves database (first ++ second) forest needed) :
    ∃ left right, needed = left ++ right ∧ Proves database first (forest.take first.length) left ∧
      Proves database second (forest.drop first.length) right := by
  induction first generalizing forest needed with
  | nil => exact ⟨[], needed, rfl, .done, proves⟩
  | cons goal first ih =>
    cases proves with
    | fact stored fits others =>
      obtain ⟨left, right, rfl, front, back⟩ := ih others
      exact ⟨_ ++ left, right, (List.append_assoc ..).symm, .fact stored fits front, back⟩
    | rule stored fits body others =>
      obtain ⟨left, right, rfl, front, back⟩ := ih others
      exact ⟨_ ++ (_ ++ left), right, by simp only [List.append_assoc], .rule stored fits body front, back⟩

theorem scope_of_mem_keys {atom : ScopedAtom} {name : String} {scope : Scope}
    (member : Key.var name scope ∈ atom.keys) : scope = atom.scope := by
  obtain ⟨term, _, same⟩ := List.mem_map.mp member
  rw [Key.ofTerm] at same
  split at same <;> cases same
  rfl

theorem scope_of_mentioned_equations {candidate goal : ScopedAtom} {name : String} {scope : Scope}
    (mentioned : Mentioned (equations candidate goal) (.var name scope)) :
    scope = candidate.scope ∨ scope = goal.scope := by
  obtain ⟨pair, member, same | same⟩ := mentioned
  · exact Or.inl (scope_of_mem_keys (same ▸ (List.of_mem_zip member).1))
  · exact Or.inr (scope_of_mem_keys (same ▸ (List.of_mem_zip member).2))

/-- A proof says something about all arguments of its goals. -/
theorem Proves.mentioned (proves : Proves database goals forest needed) {goal : ScopedAtom} (member : goal ∈ goals)
    {key : Key} (argument : key ∈ goal.keys) : Mentioned needed key := by
  induction proves with
  | done => exact absurd member List.not_mem_nil
  | fact _ fits _ ih =>
    rw [mentioned_append]
    rcases List.mem_cons.mp member with rfl | later
    · exact Or.inl (fits.mentioned_iff.mpr (Or.inr argument))
    · exact Or.inr (ih later)
  | rule _ fits _ _ _ ih =>
    rw [mentioned_append, mentioned_append]
    rcases List.mem_cons.mp member with rfl | later
    · exact Or.inl (fits.mentioned_iff.mpr (Or.inr argument))
    · exact Or.inr (Or.inr (ih later))

theorem Proves.scope_of_mentioned (proves : Proves database goals forest needed) {name : String} {scope : Scope}
    (mentioned : Mentioned needed (.var name scope)) : scope ∈ forest.labels ∨ ∃ goal ∈ goals, scope = goal.scope := by
  induction proves with
  | done => exact absurd mentioned mentioned_nil
  | @fact goal goals index fact rest needed stored fits others ih =>
    rcases mentioned_append.mp mentioned with here | later
    · have same := (scope_of_mentioned_equations here).elim id id
      exact Or.inr ⟨goal, List.mem_cons_self .., same⟩
    · rcases ih later with label | ⟨other, member, same⟩
      · exact Or.inl label
      · exact Or.inr ⟨other, List.mem_cons_of_mem _ member, same⟩
  | @rule goal goals index rule own premises rest inner needed stored fits body others bodyIh ih =>
    rcases mentioned_append.mp mentioned with here | later
    · rcases scope_of_mentioned_equations here with same | same
      · exact Or.inl (same ▸ List.mem_cons_self ..)
      · exact Or.inr ⟨goal, List.mem_cons_self .., same⟩
    · rcases mentioned_append.mp later with within | outside
      · rcases bodyIh within with label | ⟨premise, member, same⟩
        · exact Or.inl (List.mem_cons_of_mem _ (List.mem_append_left _ label))
        · obtain ⟨atom, _, rfl⟩ := List.mem_map.mp member
          exact Or.inl (same ▸ List.mem_cons_self ..)
      · rcases ih outside with label | ⟨other, member, same⟩
        · exact Or.inl (List.mem_cons_of_mem _ (List.mem_append_right _ label))
        · exact Or.inr ⟨other, List.mem_cons_of_mem _ member, same⟩

end Backchain.Proofs
