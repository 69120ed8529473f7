import Rulebook.Logic.Writer

/-!
# Variables in writing

The text of a clause in pieces: variables and the fixed texts between them. `vars` gives the
variables of a rule or a test in the order in which they are written, and `results` the numbers of
the fresh variables that its accessor goals introduce.
-/

namespace Rulebook.Logic

/-- A piece of a written clause. -/
inductive Piece where
  | fixed (text : String)
  | var (v : Var)

namespace Piece

def text (naming : Naming) : Piece → String
  | fixed text => text
  | var v => v.text naming

def var? : Piece → Option Var
  | fixed _ => none
  | var v => some v

/-- Pieces one after the other. -/
def join (naming : Naming) (pieces : List Piece) : String := .join (pieces.map (text naming))

/-- The variables among pieces. -/
def vars (pieces : List Piece) : List Var := pieces.filterMap var?

/-- Lists of pieces with a fixed text between them. -/
def separated (separator : String) : List (List Piece) → List Piece
  | [] => []
  | [pieces] => pieces
  | pieces :: next :: rest => pieces ++ fixed separator :: separated separator (next :: rest)

/-- A functor and its arguments. -/
def applied (functor : String) (args : List (List Piece)) : List Piece :=
  if args.isEmpty then [fixed functor]
  else fixed (functor ++ "(") :: separated "," args ++ [fixed ")"]

/-- Goals that must all hold. -/
def conjunction (goals : List (List Piece)) : List Piece :=
  if goals.isEmpty then [fixed "true"] else separated ", " goals

/-- A head, and a body unless it is empty. -/
def clause (head : List Piece) (body : List (List Piece)) : List Piece :=
  if body.isEmpty then head ++ [fixed "."]
  else head ++ fixed " :- " :: separated ", " body ++ [fixed "."]

section

variable {naming : Naming} {pieces more : List Piece} {parts : List (List Piece)}

@[simp] theorem join_nil : join naming [] = "" := String.join_nil

@[simp] theorem join_cons {piece : Piece} :
    join naming (piece :: pieces) = piece.text naming ++ join naming pieces := String.join_cons

@[simp] theorem join_append :
    join naming (pieces ++ more) = join naming pieces ++ join naming more := by
  simp [join]

@[simp] theorem vars_nil : vars [] = [] := rfl

@[simp] theorem vars_fixed {text : String} : vars (fixed text :: pieces) = vars pieces := rfl

@[simp] theorem vars_var {v : Var} : vars (var v :: pieces) = v :: vars pieces := rfl

@[simp] theorem vars_append : vars (pieces ++ more) = vars pieces ++ vars more :=
  List.filterMap_append

@[simp] theorem join_separated {separator : String} :
    join naming (separated separator parts) = separator.intercalate (parts.map (join naming)) := by
  induction parts using separated.induct with
  | case1 => simp [separated]
  | case2 pieces => simp [separated]
  | case3 pieces next rest ih =>
    rw [separated, join_append, join_cons, ih]
    simp [text, String.append_assoc]

@[simp] theorem vars_separated {separator : String} :
    vars (separated separator parts) = parts.flatMap vars := by
  induction parts using separated.induct with
  | case1 => simp [separated]
  | case2 pieces => simp [separated]
  | case3 pieces next rest ih =>
    rw [separated, vars_append, vars_fixed, ih, ← List.flatMap_cons]

@[simp] theorem join_applied {functor : String} :
    join naming (applied functor parts) = Logic.applied functor (parts.map (join naming)) := by
  cases parts with
  | nil => simp [applied, Logic.applied, text]
  | cons pieces rest => simp [applied, Logic.applied, text, String.append_assoc]

@[simp] theorem vars_applied {functor : String} :
    vars (applied functor parts) = parts.flatMap vars := by
  cases parts with
  | nil => simp [applied]
  | cons pieces rest => simp [applied]

@[simp] theorem join_conjunction :
    join naming (conjunction parts) = Logic.conjunction (parts.map (join naming)) := by
  cases parts with
  | nil => simp [conjunction, Logic.conjunction, text]
  | cons pieces rest => simp [conjunction, Logic.conjunction]

@[simp] theorem vars_conjunction : vars (conjunction parts) = parts.flatMap vars := by
  cases parts with
  | nil => simp [conjunction]
  | cons pieces rest => simp [conjunction]

@[simp] theorem join_clause :
    join naming (clause pieces parts) =
      clauseText (join naming pieces) (parts.map (join naming)) := by
  cases parts with
  | nil => simp [clause, clauseText, text]
  | cons first rest => simp [clause, clauseText, text, String.append_assoc]

@[simp] theorem vars_clause : vars (clause pieces parts) = vars pieces ++ parts.flatMap vars := by
  cases parts with
  | nil => simp [clause]
  | cons first rest => simp [clause]

end

end Piece

/-! ## Terms -/

namespace Term

mutual

def pieces (o : Options) : Term → List Piece
  | var v => [.var v]
  | int value => [.fixed (toString value.toInt)]
  | float text => [.fixed text]
  | quoted text => [.fixed (Logic.quoted text)]
  | wildcard => [.fixed "_"]
  | apply functor args => Piece.applied (functor.text o.comparison) (piecesAll o args)
  | construct object args => Piece.applied (o.toNaming.object object) (piecesAll o args)
  | unify v value => .var v :: .fixed " = " :: pieces o value

/-- The pieces of several terms. -/
def piecesAll (o : Options) : List Term → List (List Piece)
  | [] => []
  | t :: rest => pieces o t :: piecesAll o rest

end

mutual

/-- The variables of a term from left to right. -/
def vars : Term → List Var
  | var v => [v]
  | int _ | float _ | quoted _ | wildcard => []
  | apply _ args => varsAll args
  | construct _ args => varsAll args
  | unify v value => v :: vars value

/-- The variables of several terms. -/
def varsAll : List Term → List Var
  | [] => []
  | t :: rest => vars t ++ varsAll rest

end

variable {o : Options}

mutual

theorem join_pieces : (t : Term) → Piece.join o.toNaming (t.pieces o) = t.text o
  | var v => by simp [pieces, text, Piece.text]
  | int value => by simp [pieces, text, Piece.text]
  | float _ => by simp [pieces, text, Piece.text]
  | quoted _ => by simp [pieces, text, Piece.text]
  | wildcard => by simp [pieces, text, Piece.text]
  | apply _ args => by rw [pieces, text, Piece.join_applied, map_join_pieces args]
  | construct _ args => by rw [pieces, text, Piece.join_applied, map_join_pieces args]
  | unify v value => by simp [pieces, text, Piece.text, join_pieces value, String.append_assoc]

theorem map_join_pieces :
    (ts : List Term) → (piecesAll o ts).map (Piece.join o.toNaming) = texts o ts
  | [] => rfl
  | t :: rest => by rw [piecesAll, texts, List.map_cons, join_pieces t, map_join_pieces rest]

end

mutual

theorem vars_pieces : (t : Term) → Piece.vars (t.pieces o) = t.vars
  | var _ | int _ | float _ | quoted _ | wildcard => by simp [pieces, vars]
  | apply _ args => by rw [pieces, vars, Piece.vars_applied, flatMap_vars_pieces args]
  | construct _ args => by rw [pieces, vars, Piece.vars_applied, flatMap_vars_pieces args]
  | unify v value => by simp [pieces, vars, vars_pieces value]

theorem flatMap_vars_pieces : (ts : List Term) → (piecesAll o ts).flatMap Piece.vars = varsAll ts
  | [] => rfl
  | t :: rest => by
    rw [piecesAll, varsAll, List.flatMap_cons, vars_pieces t, flatMap_vars_pieces rest]

end

@[simp] theorem varsAll_eq (ts : List Term) : varsAll ts = ts.flatMap vars := by
  induction ts with
  | nil => rfl
  | cons t rest ih => rw [varsAll, ih, List.flatMap_cons]

end Term

/-! ## Goals -/

namespace Goal

mutual

def pieces (o : Options) : Goal → List Piece
  | holds t => t.pieces o
  | access object field result target =>
    [.fixed (o.toNaming.accessor object field ++ "("), .var (.fresh result), .fixed ", ", .var target,
      .fixed ")"]
  | assert fact => .fixed "assertz(" :: fact.pieces o ++ [.fixed ")"]
  | retract fact => .fixed "retract(" :: fact.pieces o ++ [.fixed ")"]
  | fail => [.fixed "fail"]
  | choice condition success failure =>
    .fixed "(" :: Piece.conjunction (piecesAll o condition) ++
      .fixed " -> " :: Piece.conjunction (piecesAll o success) ++
      .fixed " ; " :: Piece.conjunction (piecesAll o failure) ++ [.fixed ")"]

/-- The pieces of several goals. -/
def piecesAll (o : Options) : List Goal → List (List Piece)
  | [] => []
  | goal :: rest => pieces o goal :: piecesAll o rest

end

mutual

/-- The variables of a goal from left to right. -/
def vars : Goal → List Var
  | holds t => t.vars
  | access _ _ result target => [.fresh result, target]
  | assert fact | retract fact => fact.vars
  | fail => []
  | choice condition success failure =>
    varsAll condition ++ varsAll success ++ varsAll failure

/-- The variables of several goals. -/
def varsAll : List Goal → List Var
  | [] => []
  | goal :: rest => vars goal ++ varsAll rest

end

mutual

/-- The numbers of the fresh variables that accessor goals introduce. -/
def results : Goal → List Nat
  | access _ _ result _ => [result]
  | holds _ | assert _ | retract _ | fail => []
  | choice condition success failure =>
    resultsAll condition ++ resultsAll success ++ resultsAll failure

/-- The numbers that the accessor goals among several goals introduce. -/
def resultsAll : List Goal → List Nat
  | [] => []
  | goal :: rest => results goal ++ resultsAll rest

end

variable {o : Options}

mutual

theorem join_pieces : (goal : Goal) → Piece.join o.toNaming (goal.pieces o) = goal.text o
  | holds t => by rw [pieces, text, t.join_pieces]
  | access _ _ _ _ => by simp [pieces, text, Piece.text, Var.text, String.append_assoc]
  | assert fact => by simp [pieces, text, Piece.text, fact.join_pieces, String.append_assoc]
  | retract fact => by simp [pieces, text, Piece.text, fact.join_pieces, String.append_assoc]
  | fail => by simp [pieces, text, Piece.text]
  | choice condition success failure => by
    simp [pieces, text, Piece.text, map_join_pieces condition, map_join_pieces success,
      map_join_pieces failure, String.append_assoc]

theorem map_join_pieces :
    (goals : List Goal) → (piecesAll o goals).map (Piece.join o.toNaming) = texts o goals
  | [] => rfl
  | goal :: rest => by rw [piecesAll, texts, List.map_cons, join_pieces goal, map_join_pieces rest]

end

mutual

theorem vars_pieces : (goal : Goal) → Piece.vars (goal.pieces o) = goal.vars
  | holds t => by rw [pieces, vars, t.vars_pieces]
  | access _ _ _ _ => by simp [pieces, vars]
  | assert fact => by simp [pieces, vars, fact.vars_pieces]
  | retract fact => by simp [pieces, vars, fact.vars_pieces]
  | fail => by simp [pieces, vars]
  | choice condition success failure => by
    simp [pieces, vars, flatMap_vars_pieces condition, flatMap_vars_pieces success,
      flatMap_vars_pieces failure]

theorem flatMap_vars_pieces :
    (goals : List Goal) → (piecesAll o goals).flatMap Piece.vars = varsAll goals
  | [] => rfl
  | goal :: rest => by
    rw [piecesAll, varsAll, List.flatMap_cons, vars_pieces goal, flatMap_vars_pieces rest]

end

@[simp] theorem varsAll_eq (goals : List Goal) :
    varsAll goals = goals.flatMap vars := by
  induction goals with
  | nil => rfl
  | cons goal rest ih => rw [varsAll, ih, List.flatMap_cons]

@[simp] theorem resultsAll_eq (goals : List Goal) : resultsAll goals = goals.flatMap results := by
  induction goals with
  | nil => rfl
  | cons goal rest ih => rw [resultsAll, ih, List.flatMap_cons]

end Goal

/-! ## Clauses -/

namespace Clause

/-- Whether a clause is that of a rule or a test. -/
def hasBody : Clause → Bool
  | rule _ _ _ | test _ _ => true
  | accessor _ _ _ _ _ | directive _ _ | testCases _ => false

/-- The pieces of a clause. Only rules and tests have variables of the document or fresh ones. -/
def pieces (o : Options) : Clause → List Piece
  | rule name params body =>
    Piece.clause (Piece.applied (atom name) (Term.piecesAll o params)) (Goal.piecesAll o body)
  | test name body => Piece.clause [.fixed (testGoal name)] (Goal.piecesAll o body)
  | accessor object owner field position arity =>
    [.fixed ((accessor object owner field position arity).text o)]
  | directive relation arity => [.fixed ((directive relation arity).text o)]
  | testCases names => [.fixed ((testCases names).text o)]

/-- The variables of a rule or a test in the order in which they are written. -/
def vars : Clause → List Var
  | rule _ params body => params.flatMap Term.vars ++ body.flatMap Goal.vars
  | test _ body => body.flatMap Goal.vars
  | accessor _ _ _ _ _ | directive _ _ | testCases _ => []

/-- The numbers of the fresh variables that the accessor goals of a clause introduce. -/
def results : Clause → List Nat
  | rule _ _ body | test _ body => body.flatMap Goal.results
  | accessor _ _ _ _ _ | directive _ _ | testCases _ => []

variable {o : Options}

/-- A clause is written piece by piece. -/
theorem join_pieces (c : Clause) : Piece.join o.toNaming (c.pieces o) = c.text o := by
  cases c with
  | rule name params body =>
    simp [pieces, text, Term.map_join_pieces, Goal.map_join_pieces]
  | test name body => simp [pieces, text, Piece.text, Goal.map_join_pieces]
  | accessor | directive | testCases => simp [pieces, Piece.text]

theorem vars_pieces (c : Clause) : Piece.vars (c.pieces o) = c.vars := by
  cases c with
  | rule name params body =>
    simp [pieces, vars, Term.flatMap_vars_pieces, Goal.flatMap_vars_pieces]
  | test name body => simp [pieces, vars, Goal.flatMap_vars_pieces]
  | accessor | directive | testCases => simp [pieces, vars]

end Clause

end Rulebook.Logic
