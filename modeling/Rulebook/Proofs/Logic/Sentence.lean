import Rulebook.Program

/-!
# Clauses as sentences

A clause in writing is a sentence, and its terms and goals are phrases. Phrases hold names and
variables as they are written, and say which names refer to other clauses. The text of every clause is
the text of its sentence (`Clause.text_sentence`), so what is said of sentences is said of the texts.
-/

namespace Rulebook.Logic

/-- Arguments in parentheses, or nothing if there are none. -/
def arguments : List String → String
  | [] => ""
  | first :: rest => "(" ++ ",".intercalate (first :: rest) ++ ")"

/-- A term or a goal of a written clause. -/
inductive Phrase where
  /-- A variable, a number, a text in quotes or a word of the language. -/
  | word (text : String)
  /-- An operator and its operands. -/
  | operation (functor : String) (args : List Phrase)
  /-- A rule or a relation and its arguments. -/
  | call (predicate : String) (args : List Phrase)
  /-- A value of an object, by its components. -/
  | construct (object : String) (args : List Phrase)
  | unify (name : String) (value : Phrase)
  /-- An accessor and its two variables: the one that takes the field, and the one that has it. -/
  | access (accessor result target : String)
  | assert (fact : Phrase)
  | retract (fact : Phrase)
  | choice (condition success failure : List Phrase)
  deriving Repr, Inhabited

namespace Phrase

/-- Goals that must all hold, from their texts. -/
def allOf : List String → String
  | [] => "true"
  | first :: rest => ", ".intercalate (first :: rest)

mutual

def text : Phrase → String
  | word text => text
  | operation functor args => functor ++ arguments (texts args)
  | call predicate args => predicate ++ arguments (texts args)
  | construct object args => object ++ arguments (texts args)
  | unify name value => name ++ " = " ++ text value
  | access accessor result target => accessor ++ "(" ++ result ++ ", " ++ target ++ ")"
  | assert fact => "assertz(" ++ text fact ++ ")"
  | retract fact => "retract(" ++ text fact ++ ")"
  | choice condition success failure =>
    "(" ++ allOf (texts condition) ++ " -> " ++ allOf (texts success) ++ " ; " ++
      allOf (texts failure) ++ ")"

/-- The texts of several phrases. -/
def texts : List Phrase → List String
  | [] => []
  | p :: rest => text p :: texts rest

end

@[simp] theorem texts_eq (ps : List Phrase) : texts ps = ps.map text := by
  induction ps with
  | nil => rfl
  | cons p rest ih => rw [texts, ih, List.map_cons]

end Phrase

/-- A written clause. -/
inductive Sentence where
  /-- A predicate that takes a field of an object, by the arguments of the object's functor. -/
  | accessor (name object : String) (args : List String)
  /-- Facts of this predicate come and go. -/
  | directive (predicate : String) (arity : Nat)
  | rule (predicate : String) (params body : List Phrase)
  | test (name : String) (body : List Phrase)
  | testCases (names : List String)
  deriving Repr, Inhabited

namespace Sentence

/-- What follows the head of a clause, from the texts of the goals. -/
def tail : List String → String
  | [] => "."
  | first :: rest => " :- " ++ ", ".intercalate (first :: rest) ++ "."

def text : Sentence → String
  | accessor name object args =>
    name ++ "(Value, Object) :- Object = " ++ object ++ "(" ++ ",".intercalate args ++ ")."
  | directive predicate arity => ":- dynamic(" ++ predicate ++ "/" ++ toString arity ++ ")."
  | rule predicate params body =>
    predicate ++ arguments (params.map Phrase.text) ++ tail (body.map Phrase.text)
  | test name body => "test(" ++ name ++ ")" ++ tail (body.map Phrase.text)
  | testCases names => "test_cases([" ++ ",".intercalate names ++ "])."

/-- The predicate that a written clause defines or lets facts be added to. -/
def predicate : Sentence → String
  | accessor name _ _ => name
  | directive predicate _ => predicate
  | rule predicate _ _ => predicate
  | test _ _ => "test"
  | testCases _ => "test_cases"

end Sentence

/-! ## Sentences of clauses -/

section

variable (o : Options)

mutual

def Term.phrase : Term → Phrase
  | .var v => .word (v.text o.toNaming)
  | .int value => .word (toString value.toInt)
  | .float text => .word text
  | .quoted text => .word (Logic.quoted text)
  | .wildcard => .word "_"
  | .apply (.operator op) args => .operation (o.comparison.functor op) (Term.phrases args)
  | .apply (.predicate name) args => .call (atom name) (Term.phrases args)
  | .construct object args => .construct (o.toNaming.object object) (Term.phrases args)
  | .unify v value => .unify (v.text o.toNaming) (Term.phrase value)

/-- The phrases of several terms. -/
def Term.phrases : List Term → List Phrase
  | [] => []
  | t :: rest => Term.phrase t :: Term.phrases rest

end

mutual

def Goal.phrase : Goal → Phrase
  | .holds t => t.phrase o
  | .access object field result target =>
    .access (o.toNaming.accessor object field) (o.toNaming.fresh result) (target.text o.toNaming)
  | .assert fact => .assert (fact.phrase o)
  | .retract fact => .retract (fact.phrase o)
  | .fail => .word "fail"
  | .choice condition success failure =>
    .choice (Goal.phrases condition) (Goal.phrases success) (Goal.phrases failure)

/-- The phrases of several goals. -/
def Goal.phrases : List Goal → List Phrase
  | [] => []
  | goal :: rest => Goal.phrase goal :: Goal.phrases rest

end

def Clause.sentence : Clause → Sentence
  | .accessor object _ field position arity =>
    .accessor (o.toNaming.accessor object field) (o.toNaming.object object) (pick position arity)
  | .directive relation arity => .directive (atom relation) arity
  | .rule name params body => .rule (atom name) (Term.phrases o params) (Goal.phrases o body)
  | .test name body => .test (quoted name) (Goal.phrases o body)
  | .testCases names => .testCases (names.map quoted)

end

variable {o : Options}

theorem length_pick (position arity : Nat) : (pick position arity).length = arity := by
  simp [pick]

@[simp] theorem Term.phrases_eq (ts : List Term) : Term.phrases o ts = ts.map (Term.phrase o) := by
  induction ts with
  | nil => rfl
  | cons t rest ih => rw [phrases, ih, List.map_cons]

@[simp] theorem Goal.phrases_eq (goals : List Goal) :
    Goal.phrases o goals = goals.map (Goal.phrase o) := by
  induction goals with
  | nil => rfl
  | cons goal rest ih => rw [phrases, ih, List.map_cons]

theorem applied_eq (functor : String) (args : List String) :
    applied functor args = functor ++ arguments args := by
  cases args with
  | nil => simp [applied, arguments]
  | cons first rest => simp [applied, arguments, String.append_assoc]

theorem conjunction_eq (goals : List String) : conjunction goals = Phrase.allOf goals := by
  cases goals with
  | nil => rfl
  | cons first rest => rfl

theorem clauseText_eq (head : String) (body : List String) :
    clauseText head body = head ++ Sentence.tail body := by
  cases body with
  | nil => rfl
  | cons first rest => simp [clauseText, Sentence.tail, String.append_assoc]

namespace Term

mutual

theorem text_phrase : (t : Term) → (t.phrase o).text = t.text o
  | var _ | int _ | float _ | quoted _ | wildcard => by rw [phrase, Phrase.text, text]
  | apply (.operator op) args => by
    rw [phrase, Phrase.text, text, applied_eq, texts_phrases args, Functor.text]
  | apply (.predicate name) args => by
    rw [phrase, Phrase.text, text, applied_eq, texts_phrases args, Functor.text]
  | construct object args => by rw [phrase, Phrase.text, text, applied_eq, texts_phrases args]
  | unify v value => by rw [phrase, Phrase.text, text, text_phrase value]

theorem texts_phrases : (ts : List Term) → Phrase.texts (phrases o ts) = texts o ts
  | [] => rfl
  | t :: rest => by rw [phrases, Phrase.texts, texts, text_phrase t, texts_phrases rest]

end

end Term

namespace Goal

mutual

theorem text_phrase : (goal : Goal) → (goal.phrase o).text = goal.text o
  | holds t => by rw [phrase, text, t.text_phrase]
  | access _ _ _ _ | fail => by rw [phrase, Phrase.text, text]
  | assert fact => by rw [phrase, Phrase.text, text, fact.text_phrase]
  | retract fact => by rw [phrase, Phrase.text, text, fact.text_phrase]
  | choice condition success failure => by
    rw [phrase, Phrase.text, text, texts_phrases condition, texts_phrases success,
      texts_phrases failure, conjunction_eq, conjunction_eq, conjunction_eq]

theorem texts_phrases : (goals : List Goal) → Phrase.texts (phrases o goals) = texts o goals
  | [] => rfl
  | goal :: rest => by rw [phrases, Phrase.texts, texts, text_phrase goal, texts_phrases rest]

end

end Goal

/-- The text of a clause is that of its sentence. -/
theorem Clause.text_sentence (c : Clause) : (c.sentence o).text = c.text o := by
  cases c with
  | accessor object owner field position arity => rfl
  | directive relation arity => rfl
  | rule name params body =>
    rw [sentence, Sentence.text, text, clauseText_eq, applied_eq, ← Phrase.texts_eq,
      ← Phrase.texts_eq, Term.texts_phrases, Goal.texts_phrases]
  | test name body =>
    rw [sentence, Sentence.text, text, clauseText_eq, ← Phrase.texts_eq, Goal.texts_phrases]
    rfl
  | testCases names => rfl

end Rulebook.Logic
