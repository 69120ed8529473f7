import Rulebook.Json.Decode
import Rulebook.Json.Reader
import Rulebook.Text.Class
import Rulebook.Token.Basic

/-!
# Options

How clauses are written: which family of comparisons, and what generated names start with.
-/

namespace Rulebook

/-- How comparisons of order and equality are written. -/
inductive ComparisonMode where
  /-- By the standard order of terms. -/
  | standard
  /-- By arithmetic value. -/
  | arithmetic
  deriving Repr, DecidableEq, Inhabited

namespace ComparisonMode

def name : ComparisonMode → String
  | standard => "standard"
  | arithmetic => "arithmetic"

def ofName? : String → Option ComparisonMode
  | "standard" => some standard
  | "arithmetic" => some arithmetic
  | _ => none

/-- The functor that a comparison is written with. -/
def functor? : ComparisonMode → Operator → Option String
  | standard, .greaterEqual => some "@>="
  | standard, .greater => some "@>"
  | standard, .lessEqual => some "@=<"
  | standard, .less => some "@<"
  | standard, .equal => some "=="
  | standard, .notEqual => some "\\=="
  | arithmetic, .greaterEqual => some ">="
  | arithmetic, .greater => some ">"
  | arithmetic, .lessEqual => some "=<"
  | arithmetic, .less => some "<"
  | arithmetic, .equal => some "=:="
  | arithmetic, .notEqual => some "=\\="
  | _, _ => none

/-- Exactly the comparisons have such a functor. -/
theorem functor?_isSome (mode : ComparisonMode) (op : Operator) :
    (mode.functor? op).isSome = op.isComparison := by
  cases mode <;> cases op <;> rfl

/-- The functor that any operator is written with: a comparison by the mode, the remainder by its
name, every other operator as it is. -/
def functor (mode : ComparisonMode) (op : Operator) : String :=
  match mode.functor? op with
  | some functor => functor
  | none => if op = .percent then "mod" else op.spelling

end ComparisonMode

/-- What generated names start with. -/
structure Naming where
  /-- Before the number of an object. -/
  objectPrefix : String := "o_"
  /-- Before the number of a fresh variable. -/
  variablePrefix : String := "V_"
  deriving Repr, DecidableEq, Inhabited

structure Options extends Naming where
  comparison : ComparisonMode := .standard
  deriving Repr, DecidableEq, Inhabited

/-- Why options cannot be used. -/
inductive OptionsError where
  /-- The text holds no options. -/
  | unreadable
  | objectPrefix (text : String)
  | variablePrefix (text : String)
  deriving Repr, DecidableEq

namespace OptionsError

def message : OptionsError → String
  | unreadable => "options are not readable"
  | objectPrefix text => s!"object prefix '{text}' must start with a lowercase letter"
  | variablePrefix text =>
    s!"variable prefix '{text}' must start with an uppercase letter or '_'"

end OptionsError

namespace Naming

/-- Names of objects must be plain atoms and fresh variables plain variables, so the texts before
their numbers must be so too. -/
def validate (naming : Naming) : Except OptionsError Unit :=
  if !Text.isPlainAtom naming.objectPrefix.toList then .error (.objectPrefix naming.objectPrefix)
  else if !Text.isPlainVariable naming.variablePrefix.toList then
    .error (.variablePrefix naming.variablePrefix)
  else .ok ()

end Naming

namespace Options

open Json (text? variant?)

/-- A mode is written by its name, alone or with a null. -/
def mode? (json : Json) : Option ComparisonMode :=
  match variant? json with
  | some (name, none) | some (name, some .null) => ComparisonMode.ofName? name
  | _ => none

/-- Set the option of this name. -/
def set? (options : Options) (name : String) (value : Json) : Option Options :=
  match name with
  | "comparison" => (mode? value).map fun comparison => { options with comparison }
  | "object_prefix" => (text? value).map fun objectPrefix => { options with objectPrefix }
  | "variable_prefix" => (text? value).map fun variablePrefix => { options with variablePrefix }
  | _ => none

/-- Set several options, none of them twice. -/
def setAll? : Options → List (String × Json) → Option Options
  | options, [] => some options
  | options, (name, value) :: rest =>
    if rest.any (·.1 == name) then none
    else do setAll? (← options.set? name value) rest

/-- The names of the options, in the order of their values in an array. -/
def names : List String := ["comparison", "object_prefix", "variable_prefix"]

/-- Options in an object by name, or in an array by place; what is missing takes its default. -/
def ofJson? : Json → Option Options
  | .object members => setAll? {} members
  | .array values =>
    if values.length ≤ names.length then setAll? {} (names.zip values) else none
  | _ => none

/-- The options that a JSON text holds, if they can be used. -/
def ofText (text : String) : Except OptionsError Options :=
  match Json.parse? text >>= ofJson? with
  | some options => do
    options.validate
    return options
  | none => .error .unreadable

end Options

end Rulebook
