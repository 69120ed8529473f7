import Rulebook.Logic.Name
import Rulebook.Options

/-!
# Clauses of the logic language

The clauses that a document becomes, as trees: names of the document stay names, and the numbers of
objects and fresh variables stay numbers until they are written.
-/

namespace Rulebook.Logic

/-- A variable of a clause. -/
inductive Var where
  /-- A name of the document. -/
  | user (name : String)
  /-- The value of a field access, by its number. -/
  | fresh (index : Nat)
  deriving Repr, DecidableEq, Inhabited

/-- What a term applies to its arguments. -/
inductive Functor where
  | operator (op : Operator)
  | predicate (name : String)
  deriving Repr, DecidableEq, Inhabited

inductive Term where
  | var (v : Var)
  | int (value : Int64)
  | float (text : String)
  | quoted (text : String)
  | wildcard
  | apply (functor : Functor) (args : List Term)
  /-- A value of the object with this number. -/
  | construct (object : Nat) (args : List Term)
  /-- A variable and the value it stands for. -/
  | unify (v : Var) (value : Term)
  deriving Repr, Inhabited

inductive Goal where
  | holds (t : Term)
  /-- The field of the target, an object with this number, becomes the value of a fresh variable. -/
  | access (object : Nat) (field : String) (result : Nat) (target : Var)
  /-- Add a fact. -/
  | assert (fact : Term)
  /-- Take a fact away. -/
  | retract (fact : Term)
  | fail
  /-- If the condition holds then one list of goals, otherwise the other. -/
  | choice (condition success failure : List Goal)
  deriving Repr, Inhabited

inductive Clause where
  /-- The field at a position of the object with this number and this many fields. -/
  | accessor (object : Nat) (owner field : String) (position arity : Nat)
  /-- Facts of the relation come and go. -/
  | directive (relation : String) (arity : Nat)
  | rule (name : String) (params : List Term) (body : List Goal)
  | test (name : String) (body : List Goal)
  /-- The names of all tests. -/
  | testCases (names : List String)
  deriving Repr, Inhabited

end Rulebook.Logic
