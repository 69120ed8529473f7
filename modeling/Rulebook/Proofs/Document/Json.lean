import Rulebook.Document.Json
import Rulebook.Proofs.Json.Reader
import Rulebook.Proofs.Table

/-!
# Documents are read back from their JSON

A document nests as deep as its expressions and terms do. What is written for it, or for a part of
it, is read back by the reader of this part if the reader may open as many arrays and objects as are
nested there, and otherwise not at all (`Exact`). The parts of a document hand down what is left.
-/

namespace Rulebook

/-! ## Nesting

Each record, each list and each table is one level, and so is a variant with content. Texts, numbers
and the types that are only a word are none. -/

/-- The nesting of the deepest of several things. -/
def deepest {α : Type} (nesting : α → Nat) : List α → Nat
  | [] => 0
  | a :: rest => max (nesting a) (deepest nesting rest)

theorem deepest_map {α β : Type} (nesting : β → Nat) (f : α → β) (as : List α) :
    deepest nesting (as.map f) = deepest (fun a => nesting (f a)) as := by
  induction as with
  | nil => rfl
  | cons a rest ih => rw [List.map_cons, deepest, deepest, ih]

def FieldType.nesting : FieldType → Nat
  | int | float | string => 0
  | object _ => 1

/-- A variant, and a record in it for a variable or an assignment. -/
def Term.nesting : Term → Nat
  | int _ | float _ | string _ | ident _ => 1
  | var _ type => type.nesting + 2
  | field _ value => nesting value + 2

mutual

/-- A variant, and in it a term, or a record with the list of arguments. -/
def Node.nesting : Node → Nat
  | term t => t.nesting + 1
  | app _ args => nestings args + 3

def Node.nestings : List Node → Nat
  | [] => 0
  | n :: rest => max (nesting n) (nestings rest)

end

theorem Node.nestings_eq (nodes : List Node) : nestings nodes = deepest nesting nodes := by
  induction nodes with
  | nil => rfl
  | cons node rest ih => rw [nestings, deepest, ih]

def Expr.nesting (e : Expr) : Nat := deepest Node.nesting e.args + 2

def Field.nesting (f : Field) : Nat := f.type.nesting + 1

def Object.nesting (o : Object) : Nat := deepest Field.nesting o.fields + 2

def Relation.nesting (r : Relation) : Nat := deepest Field.nesting r.fields + 2

def Rule.nesting (r : Rule) : Nat :=
  max (deepest Term.nesting r.params) (deepest Expr.nesting r.body) + 2

def Test.nesting (t : Test) : Nat :=
  max (deepest Expr.nesting t.facts) (deepest Expr.nesting t.body) + 2

def Document.nesting (d : Document) : Nat :=
  max (deepest Object.nesting d.objects.values)
    (max (deepest Relation.nesting d.relations.values)
      (max (deepest Rule.nesting d.rules.values) (deepest Test.nesting d.tests))) + 2

namespace Json

/-! ## Results that need some nesting -/

/-- A result for which so many arrays and objects have to be opened, if so many may be. -/
def opened {α : Type} (needed depth : Nat) (a : α) : Option α :=
  if needed ≤ depth then some a else none

section

variable {α β : Type} {m n depth : Nat} {a : α}

@[simp] theorem opened_zero : opened 0 depth a = some a := if_pos (Nat.zero_le _)

@[simp] theorem opened_succ_zero : opened (n + 1) 0 a = none := if_neg (Nat.not_succ_le_zero _)

@[simp] theorem opened_succ_succ : opened (n + 1) (depth + 1) a = opened n depth a := by
  simp [opened]

@[simp] theorem map_opened (f : α → β) : (opened n depth a).map f = opened n depth (f a) := by
  unfold opened
  split <;> rfl

@[simp] theorem opened_bind_opened (f : α → β) :
    ((opened m depth a).bind fun x => opened n depth (f x)) = opened (max m n) depth (f a) := by
  unfold opened
  by_cases first : m ≤ depth
  · by_cases second : n ≤ depth
    · rw [if_pos first, if_pos (Nat.max_le.mpr ⟨first, second⟩), Option.bind_some, if_pos second]
    · rw [if_pos first, if_neg (mt Nat.max_le.mp (mt And.right second)), Option.bind_some,
        if_neg second]
  · rw [if_neg first, if_neg (mt Nat.max_le.mp (mt And.left first)), Option.bind_none]

@[simp] theorem opened_bind_some (f : α → β) :
    ((opened n depth a).bind fun x => some (f x)) = opened n depth (f a) := by
  unfold opened
  split <;> rfl

end

/-- The reader gives back what is written for a thing, exactly if it may go as deep as the thing nests. -/
def Exact {α : Type} (read : Decoder α) (write : α → Json) (nesting : α → Nat) (a : α) : Prop :=
  ∀ depth, read depth (write a) = opened (nesting a) depth a

variable {α : Type} {read : Decoder α} {write : α → Json} {nesting : α → Nat}

/-- What nests is written as an array or an object, which is opened before what is inside. -/
theorem exact_of_succ {a : α} {n : Nat} (nested : nesting a = n + 1)
    (closed : read 0 (write a) = none)
    (inside : ∀ depth, read (depth + 1) (write a) = opened n depth a) :
    Exact read write nesting a := by
  intro depth
  rw [nested]
  cases depth with
  | zero => rw [closed, opened_succ_zero]
  | succ depth => rw [inside, opened_succ_succ]

/-! ## Lists, tables and records -/

theorem eachOf_map {as : List α} (exact : ∀ a ∈ as, Exact read write nesting a) (depth : Nat) :
    eachOf (read depth) (as.map write) = opened (deepest nesting as) depth as := by
  induction as with
  | nil => exact opened_zero.symm
  | cons a rest ih =>
    rw [List.forall_mem_cons] at exact
    simp [eachOf, exact.1 depth, ih exact.2, deepest]

theorem exact_list {as : List α} (exact : ∀ a ∈ as, Exact read write nesting a) :
    Exact (list read) (fun as => array (as.map write)) (fun as => deepest nesting as + 1) as :=
  exact_of_succ rfl rfl (eachOf_map exact)

theorem tableFrom_map {entries : List (String × α)}
    (exact : ∀ e ∈ entries, Exact read write nesting e.2) (depth : Nat) (t : Table α) :
    tableFrom (read depth) t (entries.map fun e => (e.1, write e.2)) =
      opened (deepest (fun e => nesting e.2) entries) depth
        (entries.foldl (fun t e => t.insert e.1 e.2) t) := by
  induction entries generalizing t with
  | nil => exact opened_zero.symm
  | cons e rest ih =>
    rw [List.forall_mem_cons] at exact
    simp [tableFrom, exact.1 depth, ih exact.2, deepest]

theorem exact_table {t : Table α} (exact : ∀ a ∈ t.values, Exact read write nesting a) :
    Exact (table read) (Table.toJson write) (fun t => deepest nesting t.values + 1) t := by
  have entries : ∀ e ∈ t.entries, Exact read write nesting e.2 := fun e member =>
    exact e.2 (List.mem_map_of_mem member)
  have whole : t.entries.foldl (fun t e => t.insert e.1 e.2) .empty = t :=
    Table.ext (Table.entries_ofList t.distinct)
  refine exact_of_succ rfl rfl fun depth => ?_
  have read := tableFrom_map entries depth .empty
  rw [whole] at read
  rw [Table.values, deepest_map]
  exact read

theorem int64?_toInt (n : Int64) : int64? (int n.toInt) = some n := by
  rw [int64?, if_pos ⟨n.minValue_le_toInt, n.toInt_le⟩, Int64.ofInt_toInt]

end Json

open Json (Exact exact_of_succ)

/-! ## Types, terms and expressions -/

theorem FieldType.exact_toJson (t : FieldType) :
    Exact FieldType.ofJson? FieldType.toJson FieldType.nesting t := by
  cases t with
  | int | float | string =>
    intro depth
    rw [toJson, nesting, Json.opened_zero]
    cases depth <;> rfl
  | object name => exact exact_of_succ rfl rfl fun depth => Json.opened_zero.symm

theorem Term.exact_toJson (t : Term) : Exact Term.ofJson? Term.toJson Term.nesting t := by
  induction t with
  | int value =>
    refine exact_of_succ rfl rfl fun depth => ?_
    show (Json.int64? (.int value.toInt)).map int = _
    rw [Json.int64?_toInt]
    exact Json.opened_zero.symm
  | float _ | string _ | ident _ => exact exact_of_succ rfl rfl fun depth => Json.opened_zero.symm
  | var name type =>
    refine exact_of_succ rfl rfl fun depth => ?_
    cases depth with
    | zero => exact Json.opened_succ_zero.symm
    | succ depth =>
      simp [toJson, ofJson?, Json.variant?, Json.record?, Json.member, Json.text?,
        type.exact_toJson depth]
  | field name value ih =>
    refine exact_of_succ rfl rfl fun depth => ?_
    cases depth with
    | zero => exact Json.opened_succ_zero.symm
    | succ depth =>
      simp [toJson, ofJson?, Json.variant?, Json.record?, Json.member, Json.text?, ih depth]

theorem Node.toJsons_eq_map (nodes : List Node) : toJsons nodes = nodes.map toJson := by
  induction nodes with
  | nil => rfl
  | cons node rest ih => rw [toJsons, List.map_cons, ih]

/-- An expression is read back if its arguments are. It opens an object and an array at once. -/
theorem Expr.exact_of_args {e : Expr}
    (args : ∀ n ∈ e.args, Exact Node.ofJson? Node.toJson Node.nesting n) :
    Exact Expr.ofJson? Expr.toJson Expr.nesting e := by
  refine exact_of_succ rfl rfl fun depth => ?_
  cases depth with
  | zero => exact Json.opened_succ_zero.symm
  | succ depth =>
    simp [toJson, ofJson?, Json.record?, Json.member, Json.text?, Node.toJsons_eq_map,
      Json.eachOf_map args]

theorem Node.exact_toJson (n : Node) : Exact Node.ofJson? Node.toJson Node.nesting n := by
  induction n using Node.induction with
  | term t =>
    refine exact_of_succ rfl rfl fun depth => ?_
    show (Term.ofJson? depth t.toJson).map term = _
    rw [t.exact_toJson, Json.map_opened]
  | app functor args ih =>
    refine exact_of_succ rfl rfl fun depth => ?_
    have read := @Expr.exact_of_args ⟨functor, args⟩ ih depth
    show (Expr.ofJson? depth (Expr.toJson ⟨functor, args⟩)).map Expr.node = _
    rw [read, Json.map_opened, Expr.nesting, ← nestings_eq]
    rfl

theorem Expr.exact_toJson (e : Expr) : Exact Expr.ofJson? Expr.toJson Expr.nesting e :=
  Expr.exact_of_args fun n _ => n.exact_toJson

/-! ## Declarations -/

theorem Field.exact_toJson (f : Field) : Exact Field.ofJson? Field.toJson Field.nesting f := by
  refine exact_of_succ rfl rfl fun depth => ?_
  simp [toJson, ofJson?, Json.record?, Json.member, Json.text?, f.type.exact_toJson depth]

theorem Object.exact_toJson (o : Object) : Exact Object.ofJson? Object.toJson Object.nesting o := by
  have fields := Json.exact_list fun f (_ : f ∈ o.fields) => f.exact_toJson
  refine exact_of_succ rfl rfl fun depth => ?_
  simp [toJson, ofJson?, Json.record?, Json.member, Json.text?, fields depth]

theorem Relation.exact_toJson (r : Relation) :
    Exact Relation.ofJson? Relation.toJson Relation.nesting r := by
  have fields := Json.exact_list fun f (_ : f ∈ r.fields) => f.exact_toJson
  refine exact_of_succ rfl rfl fun depth => ?_
  simp [toJson, ofJson?, Json.record?, Json.member, Json.text?, fields depth]

theorem Rule.exact_toJson (r : Rule) : Exact Rule.ofJson? Rule.toJson Rule.nesting r := by
  have params := Json.exact_list fun t (_ : t ∈ r.params) => t.exact_toJson
  have body := Json.exact_list fun e (_ : e ∈ r.body) => e.exact_toJson
  refine exact_of_succ rfl rfl fun depth => ?_
  simp [toJson, ofJson?, Json.record?, Json.member, Json.text?, params depth, body depth]

theorem Test.exact_toJson (t : Test) : Exact Test.ofJson? Test.toJson Test.nesting t := by
  have facts := Json.exact_list fun e (_ : e ∈ t.facts) => e.exact_toJson
  have body := Json.exact_list fun e (_ : e ∈ t.body) => e.exact_toJson
  refine exact_of_succ rfl rfl fun depth => ?_
  simp [toJson, ofJson?, Json.record?, Json.member, Json.text?, facts depth, body depth]

theorem Document.exact_toJson (d : Document) :
    Exact Document.ofJson? Document.toJson Document.nesting d := by
  have objects := Json.exact_table fun o (_ : o ∈ d.objects.values) => o.exact_toJson
  have relations := Json.exact_table fun r (_ : r ∈ d.relations.values) => r.exact_toJson
  have rules := Json.exact_table fun r (_ : r ∈ d.rules.values) => r.exact_toJson
  have tests := Json.exact_list fun t (_ : t ∈ d.tests) => t.exact_toJson
  refine exact_of_succ rfl rfl fun depth => ?_
  simp [toJson, ofJson?, Json.record?, Json.member, objects depth, relations depth, rules depth,
    tests depth]

/-- A document is read back from its compact text, with its tables in their order, if its expressions
and terms do not nest too deep. A text that nests deeper is refused. -/
theorem document_json_exact (d : Document) :
    Document.ofText? d.toText = if d.nesting ≤ 127 then some d else none := by
  rw [Document.ofText?, Document.toText, Json.parse?_render]
  exact d.exact_toJson Json.maxDepth

/-- Expressions in expressions and an assignment in an assignment, with the least and the greatest
integer, texts that need escapes, and keys that differ from the names. -/
theorem document_json_exact_nested :
    ∃ (d : Document) (text : String),
      d = {
        objects := .ofList [("key \"o\"", ⟨"\\", [⟨"é\n", .object "\u0001"⟩]⟩)]
        rules := .ofList [("r", ⟨"s", [.var "x" .int],
          [⟨"-", [.app "+" [.term (.int Int64.minValue), .term (.int Int64.maxValue)],
            .term (.field "f" (.field "g" (.float "0.50")))]⟩]⟩)] } ∧
      text = "\x7b\"objects\":\x7b\"key \\\"o\\\"\":" ++
        "\x7b\"name\":\"\\\\\",\"fields\":[" ++
        "\x7b\"name\":\"é\\n\",\"ty\":\x7b\"Object\":\"\\u0001\"\x7d\x7d]\x7d\x7d," ++
        "\"relations\":\x7b\x7d,\"rules\":\x7b\"r\":\x7b\"name\":\"s\"," ++
        "\"params\":[\x7b\"Variable\":\x7b\"name\":\"x\",\"ty\":\"Int\"\x7d\x7d]," ++
        "\"body\":[\x7b\"functor\":\"-\",\"args\":[\x7b\"Expression\":\x7b\"functor\":\"+\"," ++
        "\"args\":[\x7b\"Term\":\x7b\"Int\":-9223372036854775808\x7d\x7d," ++
        "\x7b\"Term\":\x7b\"Int\":9223372036854775807\x7d\x7d]\x7d\x7d," ++
        "\x7b\"Term\":\x7b\"Field\":\x7b\"name\":\"f\"," ++
        "\"value\":\x7b\"Field\":\x7b\"name\":\"g\"," ++
        "\"value\":\x7b\"Float\":\"0.50\"\x7d\x7d\x7d\x7d\x7d\x7d]\x7d]\x7d\x7d," ++
        "\"tests\":[]\x7d" ∧
      d.nesting = 12 ∧ d.toText = text ∧ Document.ofText? text = some d := by
  have read {d : Document} {text : String} (nested : d.nesting = 12) (written : d.toText = text) :
      d.nesting = 12 ∧ d.toText = text ∧ Document.ofText? text = some d := by
    have within : d.nesting ≤ 127 := by omega
    refine ⟨nested, written, ?_⟩
    rw [← written, document_json_exact, if_pos within]
  refine ⟨_, _, rfl, rfl, read (by decide +kernel) ?_⟩
  -- Lists of characters are compared much faster than texts.
  rw [← String.toList_inj, Document.toText, Json.render, String.toList_ofList]
  simp only [String.toList_append, String.reduceToList]
  decide +kernel

end Rulebook
