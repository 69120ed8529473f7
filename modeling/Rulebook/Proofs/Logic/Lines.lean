import Rulebook.Proofs.Logic.Legal
import Rulebook.Proofs.Lowering.Name

/-!
# Clauses on one line

Between the marks of the logic language, clauses are written with texts of the document: `verbatim`
collects the names, numbers and strings that are copied as they are. Everything else that is written
is on one line, so a clause is on one line exactly if these texts are (`Clause.oneLine_text`).
-/

namespace Rulebook

/-- The text has no line break. -/
def OneLine (text : String) : Prop := '\n' ∉ text.toList

instance : DecidablePred OneLine := fun text => inferInstanceAs (Decidable ('\n' ∉ text.toList))

/-! ## Texts on one line -/

@[simp] theorem oneLine_append {a b : String} : OneLine (a ++ b) ↔ OneLine a ∧ OneLine b := by
  simp [OneLine]

theorem oneLine_intercalate {separator : String} (between : OneLine separator)
    (texts : List String) :
    OneLine (separator.intercalate texts) ↔ ∀ text ∈ texts, OneLine text := by
  rw [OneLine, String.toList_intercalate, mem_intercalate between]
  simp [OneLine]

/-- A text of characters of a class that line breaks are not in. -/
theorem oneLine_of_forall {p : Char → Bool} {text : String} (all : ∀ c ∈ text.toList, p c = true)
    (breaks : p '\n' = false) : OneLine text := by
  intro here
  rw [all _ here] at breaks
  cases breaks

theorem oneLine_toString_nat (n : Nat) : OneLine (toString n) :=
  oneLine_of_forall (digits_toString n).all (by decide)

theorem oneLine_toString_int (n : Int) : OneLine (toString n) := by
  cases n with
  | ofNat n => exact oneLine_toString_nat n
  | negSucc n =>
    have written : toString (Int.negSucc n) = "-" ++ toString (n + 1) := rfl
    rw [written, oneLine_append]
    exact ⟨by decide, oneLine_toString_nat (n + 1)⟩

/-- A plain variable has plain parts only, the first one included. -/
theorem Logic.isPlainPart_of_isPlainVariable {chars : List Char}
    (plain : Text.isPlainVariable chars = true) : ∀ c ∈ chars, Text.isPlainPart c = true := by
  cases chars with
  | nil => cases plain
  | cons c cs =>
    simp only [Text.isPlainVariable, Bool.and_eq_true, List.all_eq_true] at plain
    rw [List.forall_mem_cons]
    refine ⟨?_, plain.2⟩
    rcases Bool.or_eq_true_iff.mp plain.1 with upper | underscore
    · simp [Text.isPlainPart, Char.isAlphanum, Char.isAlpha, upper]
    · simp [Text.isPlainPart, underscore]

namespace Naming

variable {naming : Naming}

theorem oneLine_object (valid : naming.validate = .ok ()) (i : Nat) :
    OneLine (naming.object i) := by
  obtain ⟨plain, _⟩ := validate_eq_ok_iff.mp valid
  rw [object, oneLine_append]
  refine ⟨oneLine_of_forall (Logic.isPlainPart_of_isPlainAtom plain) (by decide), ?_⟩
  exact oneLine_toString_nat i

theorem oneLine_fresh (valid : naming.validate = .ok ()) (i : Nat) : OneLine (naming.fresh i) := by
  obtain ⟨_, plain⟩ := validate_eq_ok_iff.mp valid
  rw [fresh, oneLine_append]
  refine ⟨oneLine_of_forall (Logic.isPlainPart_of_isPlainVariable plain) (by decide), ?_⟩
  exact oneLine_toString_nat i

theorem oneLine_accessor (valid : naming.validate = .ok ()) (i : Nat) (field : String) :
    OneLine (naming.accessor i field) ↔ OneLine field := by
  rw [accessor, oneLine_append, oneLine_append]
  simp only [oneLine_object valid i, true_and, and_iff_right_iff_imp]
  exact fun _ => by decide

end Naming

namespace Logic

/-- Quotes keep a line break as it is. -/
@[simp] theorem oneLine_quoted (text : String) : OneLine (quoted text) ↔ OneLine text := by
  have char (c : Char) : '\n' ∈ quoteChar c ↔ c = '\n' := by
    unfold quoteChar
    split
    · rename_i escaped
      rcases escaped with rfl | rfl <;> decide
    · simp [eq_comm]
  simp [OneLine, quoted, quotedChars, char]

@[simp] theorem oneLine_atom (name : String) : OneLine (atom name) ↔ OneLine name := by
  unfold atom
  split
  · rfl
  · exact oneLine_quoted name

/-- A variable is legal, so it has no line break. -/
theorem oneLine_variableName (name : String) : OneLine (variableName name) := by
  refine oneLine_of_forall (isPlainPart_of_isPlainVariable ?_) (by decide)
  rw [variableName, String.toList_ofList]
  exact isPlainVariable_variableChars name.toList

theorem oneLine_applied (functor : String) (args : List String) :
    OneLine (applied functor args) ↔ OneLine functor ∧ ∀ arg ∈ args, OneLine arg := by
  unfold applied
  cases args with
  | nil => simp
  | cons arg rest =>
    have comma : OneLine "," := by decide
    simp +decide [oneLine_intercalate comma]

theorem oneLine_conjunction (goals : List String) :
    OneLine (conjunction goals) ↔ ∀ goal ∈ goals, OneLine goal := by
  unfold conjunction
  cases goals with
  | nil => simp +decide
  | cons goal rest =>
    have comma : OneLine ", " := by decide
    rw [if_neg (by simp), oneLine_intercalate comma]

theorem oneLine_clauseText (head : String) (body : List String) :
    OneLine (clauseText head body) ↔ OneLine head ∧ ∀ goal ∈ body, OneLine goal := by
  unfold clauseText
  cases body with
  | nil => simp +decide
  | cons goal rest =>
    have comma : OneLine ", " := by decide
    simp +decide [oneLine_intercalate comma]

theorem oneLine_functor (mode : ComparisonMode) (op : Operator) : OneLine (mode.functor op) := by
  cases mode <;> cases op <;> decide

theorem Var.oneLine_text {naming : Naming} (valid : naming.validate = .ok ()) (v : Var) :
    OneLine (v.text naming) := by
  cases v with
  | user name => exact oneLine_variableName name
  | fresh index => exact Naming.oneLine_fresh valid index

/-! ## Texts that are copied -/

namespace Functor

/-- The name of a predicate is copied; an operator has a functor of its own. -/
def verbatim : Functor → List String
  | operator _ => []
  | predicate name => [name]

theorem oneLine_text (mode : ComparisonMode) (f : Functor) :
    OneLine (f.text mode) ↔ ∀ s ∈ f.verbatim, OneLine s := by
  cases f with
  | operator op => simpa [verbatim, text] using oneLine_functor mode op
  | predicate name => simp [verbatim, text]

end Functor

namespace Term

mutual

/-- The names, numbers and strings that a term is written with as they are. -/
def verbatim : Term → List String
  | var _ | int _ | wildcard => []
  | float text | quoted text => [text]
  | apply functor args => functor.verbatim ++ verbatimAll args
  | construct _ args => verbatimAll args
  | unify _ value => verbatim value

/-- What several terms copy. -/
def verbatimAll : List Term → List String
  | [] => []
  | t :: rest => verbatim t ++ verbatimAll rest

end

@[simp] theorem verbatimAll_eq (ts : List Term) : verbatimAll ts = ts.flatMap verbatim := by
  induction ts with
  | nil => rfl
  | cons t rest ih => rw [verbatimAll, ih, List.flatMap_cons]

variable {o : Options}

mutual

theorem oneLine_text (valid : o.validate = .ok ()) :
    (t : Term) → (OneLine (t.text o) ↔ ∀ s ∈ t.verbatim, OneLine s)
  | var v => by simpa [text, verbatim] using v.oneLine_text valid
  | int value => by simpa [text, verbatim] using oneLine_toString_int value.toInt
  | float _ => by simp [text, verbatim]
  | quoted _ => by simp [text, verbatim]
  | wildcard => by simp +decide [text]
  | apply functor args => by
    rw [text, verbatim, oneLine_applied, Functor.oneLine_text, oneLine_texts valid args,
      List.forall_mem_append]
  | construct object args => by
    rw [text, verbatim, oneLine_applied, oneLine_texts valid args]
    simp only [Naming.oneLine_object valid object, true_and]
  | unify v value => by
    rw [text, verbatim, oneLine_append, oneLine_append, oneLine_text valid value]
    simp +decide only [v.oneLine_text valid, true_and]

theorem oneLine_texts (valid : o.validate = .ok ()) :
    (ts : List Term) → ((∀ text ∈ texts o ts, OneLine text) ↔ ∀ s ∈ verbatimAll ts, OneLine s)
  | [] => by simp [texts, verbatimAll]
  | t :: rest => by
    rw [texts, verbatimAll, List.forall_mem_cons, List.forall_mem_append, oneLine_text valid t,
      oneLine_texts valid rest]

end

end Term

namespace Goal

mutual

/-- What a goal is written with as it is. -/
def verbatim : Goal → List String
  | holds t => t.verbatim
  | access _ field _ _ => [field]
  | assert fact | retract fact => fact.verbatim
  | fail => []
  | choice condition success failure =>
    verbatimAll condition ++ verbatimAll success ++ verbatimAll failure

/-- What several goals copy. -/
def verbatimAll : List Goal → List String
  | [] => []
  | goal :: rest => verbatim goal ++ verbatimAll rest

end

@[simp] theorem verbatimAll_eq (goals : List Goal) :
    verbatimAll goals = goals.flatMap verbatim := by
  induction goals with
  | nil => rfl
  | cons goal rest ih => rw [verbatimAll, ih, List.flatMap_cons]

variable {o : Options}

mutual

theorem oneLine_text (valid : o.validate = .ok ()) :
    (goal : Goal) → (OneLine (goal.text o) ↔ ∀ s ∈ goal.verbatim, OneLine s)
  | holds t => t.oneLine_text valid
  | access object field result target => by
    rw [text, verbatim]
    simp +decide [Naming.oneLine_accessor valid, Naming.oneLine_fresh valid,
      target.oneLine_text valid]
  | assert fact => by
    rw [text, verbatim, oneLine_append, oneLine_append, fact.oneLine_text valid]
    simp +decide only [true_and, and_true]
  | retract fact => by
    rw [text, verbatim, oneLine_append, oneLine_append, fact.oneLine_text valid]
    simp +decide only [true_and, and_true]
  | fail => by simp +decide [text]
  | choice condition success failure => by
    rw [text, verbatim, List.forall_mem_append, List.forall_mem_append,
      ← oneLine_texts valid condition, ← oneLine_texts valid success, ← oneLine_texts valid failure]
    simp +decide only [oneLine_append, oneLine_conjunction, true_and, and_true]

theorem oneLine_texts (valid : o.validate = .ok ()) :
    (goals : List Goal) →
      ((∀ text ∈ texts o goals, OneLine text) ↔ ∀ s ∈ verbatimAll goals, OneLine s)
  | [] => by simp [texts, verbatimAll]
  | goal :: rest => by
    rw [texts, verbatimAll, List.forall_mem_cons, List.forall_mem_append, oneLine_text valid goal,
      oneLine_texts valid rest]

end

end Goal

namespace Clause

/-- What a clause is written with as it is. -/
def verbatim : Clause → List String
  | accessor _ _ field _ _ => [field]
  | directive relation _ => [relation]
  | rule name params body => name :: params.flatMap Term.verbatim ++ body.flatMap Goal.verbatim
  | test name body => name :: body.flatMap Goal.verbatim
  | testCases names => names

/-- A clause is on one line exactly if each text is that it copies. -/
theorem oneLine_text {o : Options} (valid : o.validate = .ok ()) (c : Clause) :
    OneLine (c.text o) ↔ ∀ s ∈ c.verbatim, OneLine s := by
  cases c with
  | accessor object owner field position arity =>
    have comma : OneLine "," := by decide
    have picked : ∀ arg ∈ pick position arity, OneLine arg := by
      intro arg member
      obtain ⟨i, _, rfl⟩ := List.mem_map.mp member
      split <;> decide
    unfold text verbatim
    simp +decide only [oneLine_append, Naming.oneLine_accessor valid, Naming.oneLine_object valid,
      (oneLine_intercalate comma _).mpr picked, and_true, List.forall_mem_singleton]
  | directive relation arity =>
    unfold text verbatim
    simp +decide only [oneLine_append, oneLine_atom, oneLine_toString_nat, true_and, and_true,
      List.forall_mem_singleton]
  | rule name params body =>
    unfold text verbatim
    rw [oneLine_clauseText, oneLine_applied, oneLine_atom,
      Term.oneLine_texts valid, Goal.oneLine_texts valid, Term.verbatimAll_eq, Goal.verbatimAll_eq,
      List.forall_mem_append, List.forall_mem_cons]
  | test name body =>
    unfold text verbatim
    rw [oneLine_clauseText, Goal.oneLine_texts valid, Goal.verbatimAll_eq,
      List.forall_mem_cons, testGoal]
    simp +decide only [oneLine_append, oneLine_quoted, true_and, and_true]
  | testCases names =>
    have comma : OneLine "," := by decide
    unfold text verbatim
    simp +decide [oneLine_intercalate comma]

end Clause

end Logic

end Rulebook
