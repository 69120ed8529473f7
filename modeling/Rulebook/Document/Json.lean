import Rulebook.Document
import Rulebook.Json.Decode
import Rulebook.Json.Reader
import Rulebook.Json.Writer

/-!
# Documents as JSON

A record is an object with its fields in a fixed order, a variant is an object whose only key names
it, and a table is an object in the table's order. Reading also takes a record as an array, and lets
unknown keys of a record pass.
-/

namespace Rulebook

open Json (text? int64? record? variant? Decoder)

namespace FieldType

def toJson : FieldType → Json
  | int => .string "Int"
  | float => .string "Float"
  | string => .string "String"
  | object name => .object [("Object", .string name)]

/-- A variant without content may be written by its name alone, or with a null. -/
def ofVariant? : String × Option Json → Option FieldType
  | ("Int", none) | ("Int", some .null) => some int
  | ("Float", none) | ("Float", some .null) => some float
  | ("String", none) | ("String", some .null) => some string
  | ("Object", some (.string name)) => some (object name)
  | _ => none

/-- The type that a value stands for; a variant written as an object counts as opened. -/
def ofJson? : Decoder FieldType
  | 0, .string name => ofVariant? (name, none)
  | 0, _ => none
  | _ + 1, json => variant? json >>= ofVariant?

end FieldType

namespace Term

def toJson : Term → Json
  | int value => .object [("Int", .int value.toInt)]
  | float text => .object [("Float", .string text)]
  | string text => .object [("String", .string text)]
  | ident name => .object [("Ident", .string name)]
  | var name type =>
    .object [("Variable", .object [("name", .string name), ("ty", type.toJson)])]
  | field name value =>
    .object [("Field", .object [("name", .string name), ("value", value.toJson)])]

def ofJson? : Decoder Term
  | 0, _ => none
  | depth + 1, json =>
    match variant? json with
    | some ("Int", some content) => (int64? content).map int
    | some ("Float", some content) => (text? content).map float
    | some ("String", some content) => (text? content).map string
    | some ("Ident", some content) => (text? content).map ident
    | some ("Variable", some content) =>
      match depth, record? ["name", "ty"] content with
      | depth + 1, some [name, type] => do
        return var (← text? name) (← FieldType.ofJson? depth type)
      | _, _ => none
    | some ("Field", some content) =>
      match depth, record? ["name", "value"] content with
      | depth + 1, some [name, value] => do return field (← text? name) (← ofJson? depth value)
      | _, _ => none
    | _ => none

end Term

namespace Node

mutual

def toJson : Node → Json
  | term t => .object [("Term", t.toJson)]
  | app functor args =>
    .object [("Expression",
      .object [("functor", .string functor), ("args", .array (toJsons args))])]

/-- The values of several nodes. -/
def toJsons : List Node → List Json
  | [] => []
  | node :: rest => node.toJson :: toJsons rest

end

end Node

namespace Expr

def toJson (e : Expr) : Json :=
  .object [("functor", .string e.functor), ("args", .array (Node.toJsons e.args))]

end Expr

mutual

def Node.ofJson? : Decoder Node
  | 0, _ => none
  | depth + 1, json =>
    match variant? json with
    | some ("Term", some content) => (Term.ofJson? depth content).map .term
    | some ("Expression", some content) => (Expr.ofJson? depth content).map Expr.node
    | _ => none

def Expr.ofJson? : Decoder Expr
  | 0, _ => none
  | 1, _ => none
  | depth + 2, json =>
    match record? ["functor", "args"] json with
    | some [functor, .array args] => do
      return ⟨← text? functor, ← Json.eachOf (Node.ofJson? depth) args⟩
    | _ => none

end

namespace Field

def toJson (f : Field) : Json := .object [("name", .string f.name), ("ty", f.type.toJson)]

def ofJson? : Decoder Field
  | depth + 1, json =>
    match record? ["name", "ty"] json with
    | some [name, type] => do return ⟨← text? name, ← FieldType.ofJson? depth type⟩
    | _ => none
  | 0, _ => none

end Field

namespace Object

def toJson (o : Object) : Json :=
  .object [("name", .string o.name), ("fields", .array (o.fields.map Field.toJson))]

def ofJson? : Decoder Object
  | depth + 1, json =>
    match record? ["name", "fields"] json with
    | some [name, fields] => do return ⟨← text? name, ← Json.list Field.ofJson? depth fields⟩
    | _ => none
  | 0, _ => none

end Object

namespace Relation

def toJson (r : Relation) : Json :=
  .object [("name", .string r.name), ("fields", .array (r.fields.map Field.toJson))]

def ofJson? : Decoder Relation
  | depth + 1, json =>
    match record? ["name", "fields"] json with
    | some [name, fields] => do return ⟨← text? name, ← Json.list Field.ofJson? depth fields⟩
    | _ => none
  | 0, _ => none

end Relation

namespace Rule

def toJson (r : Rule) : Json :=
  .object [("name", .string r.name), ("params", .array (r.params.map Term.toJson)),
    ("body", .array (r.body.map Expr.toJson))]

def ofJson? : Decoder Rule
  | depth + 1, json =>
    match record? ["name", "params", "body"] json with
    | some [name, params, body] => do
      return ⟨← text? name, ← Json.list Term.ofJson? depth params,
        ← Json.list Expr.ofJson? depth body⟩
    | _ => none
  | 0, _ => none

end Rule

namespace Test

def toJson (t : Test) : Json :=
  .object [("name", .string t.name), ("facts", .array (t.facts.map Expr.toJson)),
    ("body", .array (t.body.map Expr.toJson))]

def ofJson? : Decoder Test
  | depth + 1, json =>
    match record? ["name", "facts", "body"] json with
    | some [name, facts, body] => do
      return ⟨← text? name, ← Json.list Expr.ofJson? depth facts,
        ← Json.list Expr.ofJson? depth body⟩
    | _ => none
  | 0, _ => none

end Test

namespace Table

/-- The object that has the table's entries. -/
def toJson (f : α → Json) (t : Table α) : Json := .object (t.entries.map fun (k, v) => (k, f v))

end Table

namespace Document

def toJson (d : Document) : Json :=
  .object [("objects", d.objects.toJson Object.toJson),
    ("relations", d.relations.toJson Relation.toJson), ("rules", d.rules.toJson Rule.toJson),
    ("tests", .array (d.tests.map Test.toJson))]

def ofJson? : Decoder Document
  | depth + 1, json =>
    match record? ["objects", "relations", "rules", "tests"] json with
    | some [objects, relations, rules, tests] => do
      return ⟨← Json.table Object.ofJson? depth objects,
        ← Json.table Relation.ofJson? depth relations, ← Json.table Rule.ofJson? depth rules,
        ← Json.list Test.ofJson? depth tests⟩
    | _ => none
  | 0, _ => none

/-- The compact text of a document. -/
def toText (d : Document) : String := d.toJson.render

/-- The document that a JSON text holds. -/
def ofText? (text : String) : Option Document := do ofJson? Json.maxDepth (← Json.parse? text)

end Document

/-- The expression that a JSON text holds. -/
def Expr.ofText? (text : String) : Option Expr := do ofJson? Json.maxDepth (← Json.parse? text)

/-- The term that a JSON text holds. -/
def Term.ofText? (text : String) : Option Term := do ofJson? Json.maxDepth (← Json.parse? text)

end Rulebook
