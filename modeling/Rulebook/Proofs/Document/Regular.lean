import Rulebook.Proofs.Parser.Correct
import Rulebook.Proofs.Table

/-!
# What parsed documents are like

A document may be any tree of the right shape, but the document of a text is `Regular`: declarations
stand under their own names, fields have distinct names, parameters are variables, and only
operators are applied inside an expression. Lowering relies on this where it looks up a declaration
or a field.
-/

namespace Rulebook

/-! ## Trees -/

/-- Only operators are applied, and no leaf is an assignment. -/
inductive Node.Plain : Node → Prop
  | term {t : Term} : (∀ field value, t ≠ .field field value) → Plain (.term t)
  | app {op : Operator} {args : List Node} : (∀ n ∈ args, n.Plain) → Plain (.app op.spelling args)

theorem Operator.spelling_ne_new (op : Operator) : op.spelling ≠ Expr.newFunctor := by
  cases op <;> decide

namespace Expr

/-- A name applied to plain arguments. -/
structure Invokes (e : Expr) : Prop where
  word : Operator.ofSpelling? e.functor = none
  args : ∀ n ∈ e.args, n.Plain

/-- A new value of an object: a variable, and assignments to distinct fields. -/
def Creates (e : Expr) : Prop :=
  ∃ (name object : String) (assigned : List (String × Term)),
    e = ⟨newFunctor, .term (.var name (.object object)) ::
      assigned.map fun (field, value) => .term (.field field value)⟩ ∧
    (assigned.map Prod.fst).Nodup

end Expr

/-- What holds of the document of any text. -/
structure Document.Regular (d : Document) : Prop where
  objects : ∀ entry ∈ d.objects.entries, entry.1 = entry.2.name
  fields : ∀ o ∈ d.objects.values, (o.fields.map Field.name).Nodup
  relations : ∀ entry ∈ d.relations.entries, entry.1 = entry.2.name
  rules : ∀ entry ∈ d.rules.entries, entry.1 = entry.2.name
  params : ∀ r ∈ d.rules.values, ∀ p ∈ r.params, ∃ name type, p = .var name type
  bodies : ∀ r ∈ d.rules.values, ∀ e ∈ r.body, e.Invokes ∨ e.node.Plain
  facts : ∀ t ∈ d.tests, ∀ e ∈ t.facts, e.Invokes ∨ e.Creates
  checks : ∀ t ∈ d.tests, ∀ e ∈ t.body, e.Invokes

/-! ## Resolving names -/

theorem Term.resolve_ne_field {scope : Table FieldType} {t : Term}
    (h : ∀ field value, t ≠ .field field value) (field : String) (value : Term) :
    t.resolve scope ≠ .field field value := by
  cases t with
  | ident name => cases found : scope.find? name <;> simp [Term.resolve, found]
  | field f v => exact absurd rfl (h f v)
  | int _ | float _ | string _ | var _ _ => simp [Term.resolve]

theorem Node.Plain.resolve {scope : Table FieldType} {n : Node} (h : n.Plain) :
    (n.resolve scope).Plain := by
  induction h with
  | term h => exact .term (Term.resolve_ne_field h)
  | app _ ih =>
    rw [Node.resolve, Node.resolveAll_eq_map]
    refine .app fun n member => ?_
    obtain ⟨m, here, rfl⟩ := List.mem_map.mp member
    exact ih m here

theorem Expr.Invokes.resolve {scope : Table FieldType} {e : Expr} (h : e.Invokes) :
    (e.resolve scope).Invokes := by
  refine ⟨h.word, fun n member => ?_⟩
  rw [Expr.resolve, Node.resolveAll_eq_map] at member
  obtain ⟨m, here, rfl⟩ := List.mem_map.mp member
  exact (h.args m here).resolve

theorem Expr.ne_new_of_plain {e : Expr} (plain : e.node.Plain) : e.functor ≠ Expr.newFunctor := by
  unfold Expr.node at plain
  generalize e.functor = functor at plain
  cases plain with
  | @app op _ _ => exact op.spelling_ne_new

/-- A name that is no operator is no field access either. -/
theorem ne_access_of_word {functor : String} (word : Operator.ofSpelling? functor = none) :
    functor ≠ Expr.accessFunctor := by
  intro same
  rw [same] at word
  exact absurd word (by decide)

theorem Expr.Invokes.ne_access {e : Expr} (h : e.Invokes) : e.functor ≠ Expr.accessFunctor :=
  ne_access_of_word h.word

/-! ## Phrases -/

namespace Grammar

theorem literal_ne_field {t : Token} {v : Term} (h : Literal t v) :
    ∀ field value, v ≠ .field field value := by
  cases h <;> simp

theorem plain_of_chain {level : Nat} {ts : List Token} {n : Node} (h : Chain level ts n) :
    n.Plain := by
  induction h with
  | literal hv => exact .term (literal_ne_field hv)
  | group _ _ _ ih => exact ih
  | join _ _ _ _ _ left right =>
    refine .app fun n member => ?_
    rcases List.mem_cons.mp member with rfl | member
    · exact left
    · rw [List.mem_singleton.mp member]
      exact right

/-- A word is not how an operator is written. -/
theorem ofSpelling?_of_proper {t : Token} (proper : t.Proper) (kind : t.kind = .identifier) :
    Operator.ofSpelling? t.literal = none := by
  obtain ⟨c, cs, chars, starts⟩ := proper.word kind
  cases found : Operator.ofSpelling? t.literal with
  | none => rfl
  | some op =>
    have spelled := Operator.ofSpelling?_eq_some_iff.mp found
    have first : op.spelling.toList.head? = some c := by rw [spelled, chars, List.head?_cons]
    have symbol : op.spelling.toList.head?.all Text.isWordStart = false := by
      cases op <;> decide
    rw [first, Option.all_some, starts] at symbol
    cases symbol

variable {β : Type} {ts : List Token} {item : List Token → β → Prop}

/-- Each of the phrases between commas is a phrase, made of some of the tokens. -/
theorem exists_of_mem_separated {bs : List β} {b : β} (h : Separated item ts bs) (member : b ∈ bs) :
    ∃ us, us ⊆ ts ∧ item us b := by
  induction h with
  | one hb =>
    rw [List.mem_singleton.mp member]
    exact ⟨_, fun _ => id, hb⟩
  | more hb _ _ ih =>
    rcases List.mem_cons.mp member with rfl | member
    · exact ⟨_, List.subset_append_left .., hb⟩
    · obtain ⟨us, within, hus⟩ := ih member
      refine ⟨us, fun t ht => ?_, hus⟩
      exact List.mem_append_right _ (List.mem_cons_of_mem _ (within ht))

theorem exists_of_mem_bracedAny {bs : List β} {b : β} (h : BracedAny item ts bs) (member : b ∈ bs) :
    ∃ us, us ⊆ ts ∧ item us b := by
  cases h with
  | none _ _ => cases member
  | some h =>
    rcases h with ⟨_, h, _⟩
    obtain ⟨us, within, hus⟩ := exists_of_mem_separated h member
    refine ⟨us, fun t ht => ?_, hus⟩
    exact List.mem_append_left _ (List.mem_cons_of_mem _ (within ht))

theorem invokes_of_invocation {e : Expr} (h : Invocation ts e) (proper : ∀ t ∈ ts, t.Proper) :
    e.Invokes := by
  cases h with
  | none kind _ _ => exact ⟨ofSpelling?_of_proper (proper _ (by simp)) kind, nofun⟩
  | some kind _ args _ =>
    refine ⟨ofSpelling?_of_proper (proper _ (by simp)) kind, fun n member => ?_⟩
    obtain ⟨us, _, chain⟩ := exists_of_mem_separated args member
    exact plain_of_chain chain

theorem regular_of_expression {e : Expr} (h : Expression ts e) (proper : ∀ t ∈ ts, t.Proper) :
    e.Invokes ∨ e.node.Plain := by
  cases h with
  | invocation h => exact .inl (invokes_of_invocation h proper)
  | chain h => exact .inr (plain_of_chain h)

end Grammar

/-! ## Declarations -/

namespace Written

/-- The expressions of a declaration are invocations and plain nodes, as far as its facts are not
instantiations. -/
def Declaration.Regular : Declaration → Prop
  | .object _ | .relation _ => True
  | .rule r => ∀ e ∈ r.body, e.Invokes ∨ e.node.Plain
  | .test t => (∀ e, .invocation e ∈ t.facts → e.Invokes) ∧ ∀ e ∈ t.body, e.Invokes

theorem regular_of_declares {ts : List Token} {w : Declaration} (h : Grammar.Declares ts w)
    (proper : ∀ t ∈ ts, t.Proper) : w.Regular := by
  cases h with
  | object _ _ _ => trivial
  | relation _ _ _ => trivial
  | rule _ h =>
    rcases h with ⟨_, _, _, _, _, body, _⟩
    intro e member
    obtain ⟨us, within, he⟩ := Grammar.exists_of_mem_bracedAny body member
    exact Grammar.regular_of_expression he fun t ht => proper t (by simp [within ht])
  | test _ h =>
    rcases h with ⟨_, _, _, facts, _, body, _⟩
    constructor
    · intro e member
      obtain ⟨us, within, he⟩ := Grammar.exists_of_mem_bracedAny facts member
      cases he with
      | invocation he =>
        exact Grammar.invokes_of_invocation he fun t ht => proper t (by simp [within ht])
    · intro e member
      obtain ⟨us, within, he⟩ := Grammar.exists_of_mem_bracedAny body member
      exact Grammar.invokes_of_invocation he fun t ht => proper t (by simp [within ht])

theorem regular_of_declarations {ts : List Token} {ws : List Declaration}
    (h : Grammar.Declarations ts ws) (proper : ∀ t ∈ ts, t.Proper) : ∀ w ∈ ws, w.Regular := by
  induction h with
  | nil => nofun
  | cons first _ ih =>
    intro w member
    rcases List.mem_cons.mp member with rfl | member
    · exact regular_of_declares first fun t ht => proper t (List.mem_append_left _ ht)
    · exact ih (fun t ht => proper t (List.mem_append_right _ ht)) w member

/-- The tree of a fact with distinct assignments. -/
theorem Fact.regular_tree {scope : Table FieldType} {f : Fact}
    (invokes : ∀ e, f = .invocation e → e.Invokes) (distinct : f.Distinct) :
    (f.tree scope).Invokes ∨ (f.tree scope).Creates := by
  cases f with
  | invocation e => exact .inl (invokes e rfl).resolve
  | instantiation name object assigned =>
    refine .inr ⟨name, object, assigned.map fun a => (a.1, a.2.resolve scope), ?_, ?_⟩
    · simp [Fact.tree]
    · have distinct : (assigned.map Prod.fst).Nodup := distinct
      simpa [Function.comp_def] using distinct

theorem regular_factTrees {fs : List Fact} (invokes : ∀ e, .invocation e ∈ fs → e.Invokes)
    (distinct : ∀ f ∈ fs, f.Distinct) (scope : Table FieldType) :
    ∀ e ∈ factTrees scope fs, e.Invokes ∨ e.Creates := by
  induction fs generalizing scope with
  | nil => nofun
  | cons f rest ih =>
    intro e member
    rcases List.mem_cons.mp member with rfl | member
    · exact Fact.regular_tree (fun e same => invokes e (by simp [same])) (distinct f (by simp))
    · exact ih (fun e he => invokes e (List.mem_cons_of_mem _ he))
        (fun g hg => distinct g (List.mem_cons_of_mem _ hg)) _ e member

end Written

/-! ## Documents -/

namespace Written

variable {ws : List Declaration}

theorem exists_of_mem_objects {entry : String × Object} (h : entry ∈ (document ws).objects.entries) :
    ∃ o, .object o ∈ ws ∧ entry = (o.name, o) := by
  obtain ⟨w, member, found⟩ := List.mem_filterMap.mp (Table.mem_of_mem_ofList h)
  cases w <;> cases found
  exact ⟨_, member, rfl⟩

theorem exists_of_mem_rules {entry : String × Rulebook.Rule}
    (h : entry ∈ (document ws).rules.entries) : ∃ w, .rule w ∈ ws ∧ entry = (w.name, w.tree) := by
  obtain ⟨w, member, found⟩ := List.mem_filterMap.mp (Table.mem_of_mem_ofList h)
  cases w <;> cases found
  exact ⟨_, member, rfl⟩

theorem exists_of_mem_tests {t : Rulebook.Test} (h : t ∈ (document ws).tests) :
    ∃ w, .test w ∈ ws ∧ t = w.tree := by
  obtain ⟨w, member, found⟩ := List.mem_filterMap.mp h
  cases w <;> cases found
  exact ⟨_, member, rfl⟩

end Written

theorem Scans.proper {text : String} {tokens : List Token} (scans : Scans text tokens) :
    ∀ t ∈ significant tokens, t.Proper := by
  rcases scans with ⟨_, whole⟩
  intro t member
  refine (Scanner.proper_of_mem_results (s := .ofString text) ?_).1
  rw [whole]
  exact List.mem_map_of_mem (List.mem_filter.mp member).1

/-- The document of a text is regular. -/
theorem regular_of_parse {text : String} {d : Document} (parsed : Compiler.parse text = .ok d) :
    d.Regular := by
  obtain ⟨tokens, ws, scans, hws, distinct, rfl⟩ := parse_ok_iff.mp parsed
  have regular := Written.regular_of_declarations hws scans.proper
  refine ⟨?_, ?_, ?_, ?_, ?_, ?_, ?_, ?_⟩
  · intro entry h
    obtain ⟨o, _, rfl⟩ := Written.exists_of_mem_objects h
    rfl
  · intro o h
    obtain ⟨entry, member, rfl⟩ := List.mem_map.mp h
    obtain ⟨o, here, rfl⟩ := Written.exists_of_mem_objects member
    exact distinct.inner _ here
  · intro entry h
    obtain ⟨w, _, found⟩ := List.mem_filterMap.mp (Table.mem_of_mem_ofList h)
    cases w <;> cases found
    rfl
  · intro entry h
    obtain ⟨w, _, rfl⟩ := Written.exists_of_mem_rules h
    rfl
  · intro r h p member
    obtain ⟨entry, here, rfl⟩ := List.mem_map.mp h
    obtain ⟨w, _, rfl⟩ := Written.exists_of_mem_rules here
    obtain ⟨f, _, rfl⟩ := List.mem_map.mp member
    exact ⟨f.name, f.type, rfl⟩
  · intro r h e member
    obtain ⟨entry, here, rfl⟩ := List.mem_map.mp h
    obtain ⟨w, written, rfl⟩ := Written.exists_of_mem_rules here
    obtain ⟨raw, within, rfl⟩ := List.mem_map.mp member
    exact (regular _ written raw within).imp .resolve .resolve
  · intro t h e member
    obtain ⟨w, written, rfl⟩ := Written.exists_of_mem_tests h
    exact Written.regular_factTrees (regular _ written).1 (distinct.inner _ written).2 _ e member
  · intro t h e member
    obtain ⟨w, written, rfl⟩ := Written.exists_of_mem_tests h
    obtain ⟨raw, within, rfl⟩ := List.mem_map.mp member
    exact ((regular _ written).2 raw within).resolve

/-- An object of a text has a field at least. -/
theorem fields_ne_nil_of_parse {text : String} {d : Document}
    (parsed : Compiler.parse text = .ok d) : ∀ o ∈ d.objects.values, o.fields ≠ [] := by
  obtain ⟨tokens, ws, _, hws, _, rfl⟩ := parse_ok_iff.mp parsed
  have written : ∀ {ts ws}, Grammar.Declarations ts ws → ∀ o, .object o ∈ ws → o.fields ≠ [] := by
    intro ts ws hws
    induction hws with
    | nil => nofun
    | cons first _ ih =>
      intro o member
      rcases List.mem_cons.mp member with rfl | member
      · cases first with
        | object _ _ fields =>
          rcases fields with ⟨_, fields, _⟩
          cases fields <;> simp
      · exact ih o member
  intro o declared
  obtain ⟨entry, member, rfl⟩ := List.mem_map.mp declared
  obtain ⟨o, here, rfl⟩ := Written.exists_of_mem_objects member
  exact written hws o here

end Rulebook
