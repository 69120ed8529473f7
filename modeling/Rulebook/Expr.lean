/-!
# Expressions

Trees of rule bodies and tests. An inner node is a functor applied to arguments: an invocation, an
operator, a field access (`.`) or an instantiation (`new`); a leaf is a term.
-/

namespace Rulebook

/-- The declared type of a field or a parameter. -/
inductive FieldType where
  | int
  | float
  | string
  /-- An object of the named declaration. -/
  | object (name : String)
  deriving Repr, DecidableEq, Inhabited

namespace FieldType

/-- The type that a name stands for: whatever is not built in names an object. -/
def ofName : String → FieldType
  | "int" => int
  | "float" => float
  | "string" => string
  | name => object name

/-- How the type is written. -/
def name : FieldType → String
  | int => "int"
  | float => "float"
  | string => "string"
  | object name => name

/-- The object that the type names. -/
def objectName? : FieldType → Option String
  | object name => some name
  | _ => none

@[simp] theorem name_ofName (name : String) : (ofName name).name = name := by
  unfold ofName
  split <;> rfl

end FieldType

/-- A leaf of an expression. -/
inductive Term where
  | int (value : Int64)
  /-- A number with a fraction, as it is written. -/
  | float (text : String)
  | string (text : String)
  /-- A name that nothing in scope binds. -/
  | ident (name : String)
  /-- A name that the scope binds to a declared type. -/
  | var (name : String) (type : FieldType)
  /-- The assignment of a field in an instantiation. -/
  | field (name : String) (value : Term)
  deriving Repr, DecidableEq, Inhabited

namespace Term

/-- How a message or a listing shows the term. -/
def text : Term → String
  | int n => toString n.toInt
  | float text => text
  | string text => "\"" ++ text ++ "\""
  | ident name => name
  | var name _ => name
  | field name value => name ++ ": " ++ value.text

/-- The object type of a variable that has one. -/
def objectName? : Term → Option String
  | var _ type => type.objectName?
  | _ => none

end Term

/-- A node of an expression tree. -/
inductive Node where
  | term (t : Term)
  | app (functor : String) (args : List Node)
  deriving Repr, Inhabited

namespace Node

/-- Induction over the nodes of a tree. -/
theorem induction {motive : Node → Prop} (term : ∀ t, motive (.term t))
    (app : ∀ functor args, (∀ a ∈ args, motive a) → motive (.app functor args)) (n : Node) :
    motive n :=
  @Node.rec motive (fun nodes => ∀ a ∈ nodes, motive a) term app nofun
    (fun _ _ first rest => List.forall_mem_cons.mpr ⟨first, rest⟩) n

mutual

/-- How a message or a listing shows the node. -/
def text : Node → String
  | term t => t.text
  | app functor args => functor ++ "(" ++ ", ".intercalate (texts args) ++ ")"

/-- The texts of several nodes. -/
def texts : List Node → List String
  | [] => []
  | node :: rest => node.text :: texts rest

end

mutual

/-- Whether two nodes are equal. -/
def decEq : (a b : Node) → Decidable (a = b)
  | term s, term t => decidable_of_iff (s = t) (by simp)
  | term _, app _ _ => isFalse nofun
  | app _ _, term _ => isFalse nofun
  | app f as, app g bs =>
    have : Decidable (as = bs) := decEqList as bs
    decidable_of_iff (f = g ∧ as = bs) (by simp)

/-- Whether two lists of nodes are equal. -/
def decEqList : (as bs : List Node) → Decidable (as = bs)
  | [], [] => isTrue rfl
  | [], _ :: _ => isFalse nofun
  | _ :: _, [] => isFalse nofun
  | a :: as, b :: bs =>
    have : Decidable (a = b) := decEq a b
    have : Decidable (as = bs) := decEqList as bs
    decidable_of_iff (a = b ∧ as = bs) (by simp)

end

instance : DecidableEq Node := decEq

end Node

/-- An expression: a functor applied to arguments. -/
structure Expr where
  functor : String
  args : List Node
  deriving Repr, DecidableEq, Inhabited

namespace Expr

/-- The functor of an instantiation. -/
def newFunctor : String := "new"

/-- The functor of a field access. -/
def accessFunctor : String := "."

/-- The expression as a node of a larger one. -/
def node (e : Expr) : Node := .app e.functor e.args

/-- How a message or a listing shows the expression. -/
def text (e : Expr) : String := e.node.text

end Expr

end Rulebook
