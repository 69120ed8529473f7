import Rulebook.Logic.Basic

/-!
# Writing clauses

The text of clauses under given options.
-/

namespace Rulebook

/-- The name of the object with this number. -/
def Naming.object (naming : Naming) (index : Nat) : String := naming.objectPrefix ++ toString index

/-- The name of the fresh variable with this number. -/
def Naming.fresh (naming : Naming) (index : Nat) : String := naming.variablePrefix ++ toString index

/-- The name of the accessor of a field. -/
def Naming.accessor (naming : Naming) (index : Nat) (field : String) : String :=
  naming.object index ++ "_" ++ field

namespace Logic

/-- A functor and its arguments; without arguments, the functor alone. -/
def applied (functor : String) (args : List String) : String :=
  if args.isEmpty then functor else functor ++ "(" ++ ",".intercalate args ++ ")"

namespace Var

def text (naming : Naming) : Var → String
  | user name => variableName name
  | fresh index => naming.fresh index

end Var

namespace Functor

def text (mode : ComparisonMode) : Functor → String
  | operator op => mode.functor op
  | predicate name => atom name

end Functor

namespace Term

mutual

def text (o : Options) : Term → String
  | var v => v.text o.toNaming
  | int value => toString value.toInt
  | float text => text
  | quoted text => Logic.quoted text
  | wildcard => "_"
  | apply functor args => applied (functor.text o.comparison) (texts o args)
  | construct object args => applied (o.toNaming.object object) (texts o args)
  | unify v value => v.text o.toNaming ++ " = " ++ text o value

/-- The texts of several terms. -/
def texts (o : Options) : List Term → List String
  | [] => []
  | t :: rest => text o t :: texts o rest

end

end Term

/-- Goals that must all hold. -/
def conjunction (goals : List String) : String :=
  if goals.isEmpty then "true" else ", ".intercalate goals

namespace Goal

mutual

def text (o : Options) : Goal → String
  | holds t => t.text o
  | access object field result target =>
    o.toNaming.accessor object field ++ "(" ++ o.toNaming.fresh result ++ ", " ++
      target.text o.toNaming ++ ")"
  | assert fact => "assertz(" ++ fact.text o ++ ")"
  | retract fact => "retract(" ++ fact.text o ++ ")"
  | fail => "fail"
  | choice condition success failure =>
    "(" ++ conjunction (texts o condition) ++ " -> " ++ conjunction (texts o success) ++ " ; " ++
      conjunction (texts o failure) ++ ")"

/-- The texts of several goals. -/
def texts (o : Options) : List Goal → List String
  | [] => []
  | goal :: rest => text o goal :: texts o rest

end

end Goal

/-- A head, and a body unless it is empty. -/
def clauseText (head : String) (body : List String) : String :=
  if body.isEmpty then head ++ "." else head ++ " :- " ++ ", ".intercalate body ++ "."

/-- The goal that asks for a test, which is also the head of its clause. -/
def testGoal (name : String) : String := "test(" ++ quoted name ++ ")"

/-- The arguments of a constructor that picks out one position. -/
def pick (position arity : Nat) : List String :=
  (List.range arity).map fun i => if i = position then "Value" else "_"

namespace Clause

def text (o : Options) : Clause → String
  | accessor object _ field position arity =>
    o.toNaming.accessor object field ++ "(Value, Object) :- Object = " ++
      o.toNaming.object object ++ "(" ++ ",".intercalate (pick position arity) ++ ")."
  | directive relation arity => ":- dynamic(" ++ atom relation ++ "/" ++ toString arity ++ ")."
  | rule name params body =>
    clauseText (applied (atom name) (Term.texts o params)) (Goal.texts o body)
  | test name body => clauseText (testGoal name) (Goal.texts o body)
  | testCases names => "test_cases([" ++ ",".intercalate (names.map quoted) ++ "])."

end Clause

end Logic

end Rulebook
