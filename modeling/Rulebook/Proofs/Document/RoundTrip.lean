import Mathlib.Data.List.Forall2
import Mathlib.Data.List.Nodup
import Rulebook.Proofs.Document.Render

/-!
# Parsing undoes writing

The document of a text, written as a text again, is read as the same document. What was read from the
text is legible, so it can be written; written with parentheses, it is a phrase at every level of the
grammar; and declarations of different kinds may change places, since a document keeps them apart.
-/

namespace Rulebook

namespace Grammar

variable {α : Type} {item : List Token → α → Prop} {ts : List Token}

/-- The lexemes can be scanned, and the tokens they are scanned as form the phrase. -/
structure Phrase (item : List Token → α → Prop) (ls : List Lexeme) (a : α) : Prop where
  legible : ∀ l ∈ ls, l.Legible
  forms : ∀ ts : List Token, ts.map Token.toLexeme = ls → item ts a

theorem legible_name {t : Token} (kind : t.kind = .identifier) (legible : t.toLexeme.Legible) :
    (Lexeme.name t.literal).Legible := by
  rwa [Lexeme.name, ← kind]

theorem literal_of_name {t : Token} {x : String} (same : t.toLexeme = .name x) : t.literal = x :=
  congrArg Lexeme.literal same

/-! ## Lists -/

theorem phrase_separated {as : List α} {ls : List (List Lexeme)}
    (each : List.Forall₂ (fun a l => Phrase item l a) as ls) (some : as ≠ []) :
    Phrase (Separated item) (separated ls) as := by
  induction each with
  | nil => exact absurd rfl some
  | @cons a l as ls first rest ih =>
    cases rest with
    | nil =>
      have whole : separated [l] = l := by simp [separated]
      rw [whole]
      exact ⟨first.legible, fun ts same => .one (first.forms ts same)⟩
    | @cons _ l' _ ls' _ _ =>
      have later := ih (List.cons_ne_nil _ _)
      have whole : separated (l :: l' :: ls') = l ++ .mark .comma :: separated (l' :: ls') := by
        simp [separated, List.intercalate_cons_cons]
      rw [whole]
      refine ⟨?_, fun ts same => ?_⟩
      · simp only [List.forall_mem_append, List.forall_mem_cons]
        exact ⟨first.legible, .delimiter _, later.legible⟩
      · obtain ⟨us, _, rfl, hus, after⟩ := List.map_eq_append_iff.mp same
        obtain ⟨comma, vs, rfl, hc, hvs⟩ := List.map_eq_cons_iff.mp after
        exact .more (first.forms us hus) (congrArg Lexeme.kind hc) (later.forms vs hvs)

theorem phrase_braced {as : List α} {ls : List (List Lexeme)}
    (each : List.Forall₂ (fun a l => Phrase item l a) as ls) (some : as ≠ []) :
    Phrase (Braced item) (braced ls) as := by
  have inner := phrase_separated each some
  refine ⟨?_, fun ts same => ?_⟩
  · simp only [braced, List.forall_mem_append, List.forall_mem_cons]
    exact ⟨⟨.delimiter _, inner.legible⟩, .delimiter _, List.forall_mem_nil _⟩
  · simp only [braced, List.cons_append, List.map_eq_cons_iff, List.map_eq_append_iff,
      List.map_eq_nil_iff] at same
    rcases same with ⟨l, _, rfl, hl, us, _, rfl, hus, r, _, rfl, hr, rfl⟩
    exact .mk (congrArg Lexeme.kind hl) (inner.forms us hus) (congrArg Lexeme.kind hr)

theorem phrase_bracedAny {as : List α} {ls : List (List Lexeme)}
    (each : List.Forall₂ (fun a l => Phrase item l a) as ls) :
    Phrase (BracedAny item) (braced ls) as := by
  cases each with
  | nil =>
    refine ⟨?_, fun ts same => ?_⟩
    · simp only [braced, separated, List.intercalate_nil, List.forall_mem_append,
        List.forall_mem_cons]
      exact ⟨⟨.delimiter _, List.forall_mem_nil _⟩, .delimiter _, List.forall_mem_nil _⟩
    · simp only [braced, separated, List.intercalate_nil, List.cons_append, List.nil_append,
        List.map_eq_cons_iff, List.map_eq_nil_iff] at same
      rcases same with ⟨l, _, rfl, hl, r, _, rfl, hr, rfl⟩
      exact .none (congrArg Lexeme.kind hl) (congrArg Lexeme.kind hr)
  | cons first rest =>
    have inner := phrase_braced (.cons first rest) (List.cons_ne_nil _ _)
    exact ⟨inner.legible, fun ts same => .some (inner.forms ts same)⟩

/-! ## Expressions -/

/-- Where a token stands makes no difference to what it says. -/
theorem literal_of_toLexeme {t u : Token} {v : Term} (h : Literal t v)
    (same : u.toLexeme = t.toLexeme) : Literal u v := by
  have literal : u.literal = t.literal := congrArg Lexeme.literal same
  cases h with
  | name kind =>
    rw [← literal]
    exact .name ((congrArg Lexeme.kind same).trans kind)
  | int kind =>
    rw [← literal]
    exact .int ((congrArg Lexeme.kind same).trans kind)
  | float kind =>
    rw [← literal]
    exact .float ((congrArg Lexeme.kind same).trans kind)
  | string kind =>
    rw [← literal]
    exact .string ((congrArg Lexeme.kind same).trans kind)

/-- A literal is written as one lexeme, which reads as this literal. -/
theorem phrase_literal {t : Token} {v : Term} (h : Literal t v) (legible : t.toLexeme.Legible) :
    ∃ l : Lexeme, v.lexemes = [l] ∧ l.Legible ∧ ∀ u : Token, u.toLexeme = l → Literal u v := by
  have again := fun u same => @literal_of_toLexeme t u v h same
  cases h with
  | name kind => exact ⟨t.toLexeme, by rw [Term.lexemes, Lexeme.name, ← kind], legible, again⟩
  | float kind => exact ⟨t.toLexeme, by rw [Term.lexemes, ← kind], legible, again⟩
  | string kind => exact ⟨t.toLexeme, by rw [Term.lexemes, ← kind], legible, again⟩
  | int kind =>
    -- The literal may have leading zeros, so what is written is the value and not the literal.
    have small : Text.decimalValue t.literal.toList ≤ maxInteger := legible.proper.int kind
    generalize Text.decimalValue t.literal.toList = n at small ⊢
    have value : (Int64.ofNat n).toInt = n := by
      apply Int64.toInt_ofNat_of_lt
      unfold maxInteger at small
      omega
    refine ⟨⟨.int, toString n⟩, by rw [Term.lexemes, value]; rfl, ?_, fun u same => ?_⟩
    · refine .int (digits_toString n) ?_
      rwa [decimalValue_toString]
    · have read := @Literal.int u (congrArg Lexeme.kind same)
      have literal : u.literal = toString n := congrArg Lexeme.literal same
      rwa [literal, decimalValue_toString] at read

/-- A chain is written as a phrase of every level. -/
theorem phrase_chain {level : Nat} {n : Node} (h : Chain level ts n)
    (legible : ∀ t ∈ ts, t.toLexeme.Legible) (level' : Nat) : Phrase (Chain level') n.lexemes n := by
  induction h generalizing level' with
  | literal hv =>
    obtain ⟨l, whole, here, reads⟩ := phrase_literal hv (legible _ List.mem_cons_self)
    rw [Node.lexemes, whole]
    refine ⟨List.forall_mem_singleton.mpr here, fun ts same => ?_⟩
    simp only [List.map_eq_cons_iff, List.map_eq_nil_iff] at same
    rcases same with ⟨u, _, rfl, hu, rfl⟩
    exact .literal (reads u hu)
  | group _ _ _ ih => exact ih (fun t member => legible t (by simp [member])) level'
  | @join _ p op t us vs left right precedence _ _ _ _ left_ih right_ih =>
    have hleft := left_ih (fun t member => legible t (by simp [member])) p
    have hright := right_ih (fun t member => legible t (by simp [member])) (p + 1)
    have spelled := Operator.ofSpelling?_eq_some_iff.mpr (rfl : op.spelling = op.spelling)
    have whole : (Node.app op.spelling [left, right]).lexemes =
        .mark .leftParen :: (left.lexemes ++ .operator op :: right.lexemes) ++
          [.mark .rightParen] := by
      simp [Node.lexemes, Node.lexemesAll, spelled, List.intercalate_cons_cons]
    rw [whole]
    refine ⟨?_, fun ts same => ?_⟩
    · simp only [List.forall_mem_append, List.forall_mem_cons]
      exact ⟨⟨.delimiter _, hleft.legible, .operator _, hright.legible⟩, .delimiter _,
        List.forall_mem_nil _⟩
    · simp only [List.cons_append, List.append_assoc, List.map_eq_cons_iff, List.map_eq_append_iff,
        List.map_eq_nil_iff] at same
      rcases same with ⟨l, _, rfl, hl, us, _, rfl, hus, o, _, rfl, ho, vs, _, rfl, hvs, r, _, rfl, hr,
        rfl⟩
      have joined : Chain 0 (us ++ o :: vs) (.app op.spelling [left, right]) :=
        .join precedence (Nat.zero_le p) (hleft.forms us hus) (congrArg Lexeme.kind ho)
          (hright.forms vs hvs)
      have grouped : Chain level' (l :: (us ++ o :: vs) ++ [r]) (.app op.spelling [left, right]) :=
        .group (congrArg Lexeme.kind hl) joined (congrArg Lexeme.kind hr)
      simpa using grouped

/-- Nodes between commas are written as phrases. -/
theorem phrases_of_chains {args : List Node} (h : Separated (Chain 0) ts args)
    (legible : ∀ t ∈ ts, t.toLexeme.Legible) :
    List.Forall₂ (fun n l => Phrase (Chain 0) l n) args (Node.lexemesAll args) := by
  rw [Node.lexemesAll_eq_map, List.forall₂_map_right_iff, List.forall₂_same]
  intro n member
  obtain ⟨us, within, chain⟩ := exists_of_mem_separated h member
  exact phrase_chain chain (fun t here => legible t (within here)) 0

theorem phrase_invocation {e : Expr} (h : Invocation ts e)
    (legible : ∀ t ∈ ts, t.toLexeme.Legible) : Phrase Invocation e.node.lexemes e := by
  have word := (invokes_of_invocation h fun t member => (legible t member).proper).word
  rw [Expr.node, Node.lexemes, word]
  cases h with
  | @none f l r functor _ _ =>
    have named := legible_name functor (legible f List.mem_cons_self)
    refine ⟨?_, fun ts same => ?_⟩
    · simp only [Node.lexemesAll, separated, List.intercalate_nil, List.forall_mem_append,
        List.forall_mem_cons]
      exact ⟨⟨named, .delimiter _, List.forall_mem_nil _⟩, .delimiter _, List.forall_mem_nil _⟩
    · simp only [Node.lexemesAll, separated, List.intercalate_nil, List.cons_append, List.nil_append,
        List.map_eq_cons_iff, List.map_eq_nil_iff] at same
      rcases same with ⟨g, _, rfl, hg, l, _, rfl, hl, r, _, rfl, hr, rfl⟩
      rw [← literal_of_name hg]
      exact .none (congrArg Lexeme.kind hg) (congrArg Lexeme.kind hl) (congrArg Lexeme.kind hr)
  | @some f l r us args functor _ arguments _ =>
    have named := legible_name functor (legible f List.mem_cons_self)
    have some : args ≠ [] := by cases arguments <;> exact List.cons_ne_nil _ _
    have inner := phrase_separated
      (phrases_of_chains arguments fun t member => legible t (by simp [member])) some
    refine ⟨?_, fun ts same => ?_⟩
    · simp only [List.forall_mem_append, List.forall_mem_cons]
      exact ⟨⟨named, .delimiter _, inner.legible⟩, .delimiter _, List.forall_mem_nil _⟩
    · simp only [List.cons_append, List.map_eq_cons_iff, List.map_eq_append_iff,
        List.map_eq_nil_iff] at same
      rcases same with ⟨g, _, rfl, hg, l, _, rfl, hl, us, _, rfl, hus, r, _, rfl, hr, rfl⟩
      rw [← literal_of_name hg]
      exact .some (congrArg Lexeme.kind hg) (congrArg Lexeme.kind hl) (inner.forms us hus)
        (congrArg Lexeme.kind hr)

theorem phrase_expression {e : Expr} (h : Expression ts e)
    (legible : ∀ t ∈ ts, t.toLexeme.Legible) : Phrase Expression e.node.lexemes e := by
  cases h with
  | invocation h =>
    have inner := phrase_invocation h legible
    exact ⟨inner.legible, fun ts same => .invocation (inner.forms ts same)⟩
  | chain h =>
    have inner := phrase_chain h legible 0
    exact ⟨inner.legible, fun ts same => .chain (inner.forms ts same)⟩

/-! ## Declarations -/

theorem phrase_typed {f : Field} (h : Typed ts f) (legible : ∀ t ∈ ts, t.toLexeme.Legible) :
    Phrase Typed (typed f.name f.type) f := by
  cases h with
  | @mk x colon y hx _ hy =>
    simp only [typed, FieldType.name_ofName]
    refine ⟨?_, fun ts same => ?_⟩
    · simp only [List.forall_mem_cons]
      exact ⟨legible_name hx (legible x (by simp)), .delimiter _,
        legible_name hy (legible y (by simp)), List.forall_mem_nil _⟩
    · simp only [List.map_eq_cons_iff, List.map_eq_nil_iff] at same
      rcases same with ⟨n, _, rfl, hn, c, _, rfl, hc, t, _, rfl, ht, rfl⟩
      rw [← literal_of_name hn, ← literal_of_name ht]
      exact .mk (congrArg Lexeme.kind hn) (congrArg Lexeme.kind hc) (congrArg Lexeme.kind ht)

theorem phrase_assigned {a : String × Term} (h : Assigned ts a)
    (legible : ∀ t ∈ ts, t.toLexeme.Legible) (scope : Table FieldType) :
    Phrase Assigned (Term.field a.1 (a.2.resolve scope)).lexemes a := by
  cases h with
  | @mk x colon value v hx _ hv =>
    obtain ⟨l, whole, here, reads⟩ := phrase_literal hv (legible value (by simp))
    simp only [Term.lexemes, Term.lexemes_resolve, whole]
    refine ⟨?_, fun ts same => ?_⟩
    · simp only [List.forall_mem_cons]
      exact ⟨legible_name hx (legible x (by simp)), .delimiter _, here, List.forall_mem_nil _⟩
    · simp only [List.map_eq_cons_iff, List.map_eq_nil_iff] at same
      rcases same with ⟨n, _, rfl, hn, c, _, rfl, hc, u, _, rfl, hu, rfl⟩
      rw [← literal_of_name hn]
      exact .mk (congrArg Lexeme.kind hn) (congrArg Lexeme.kind hc) (reads u hu)

theorem phrase_factOf {f : Written.Fact} (h : FactOf ts f)
    (legible : ∀ t ∈ ts, t.toLexeme.Legible) (scope : Table FieldType) :
    Phrase FactOf (f.tree scope).lexemes f := by
  cases h with
  | invocation h =>
    have inner := phrase_invocation h legible
    rw [Written.Fact.tree, Expr.lexemes_resolve (bare_of_invocation h)]
    exact ⟨inner.legible, fun ts same => .invocation (inner.forms ts same)⟩
  | @instantiation x colon type us assigned hx _ ht braces =>
    cases braces with
    | @mk l r us assigned _ h _ =>
      have some : assigned ≠ [] := by cases h <;> exact List.cons_ne_nil _ _
      have inner : Phrase (Braced Assigned) (braced (assigned.map fun a =>
          (Term.field a.1 (a.2.resolve scope)).lexemes)) assigned := by
        refine phrase_braced ?_ some
        rw [List.forall₂_map_right_iff, List.forall₂_same]
        intro a member
        obtain ⟨us, within, ha⟩ := exists_of_mem_separated h member
        exact phrase_assigned ha (fun t here => legible t (by simp [within here])) scope
      have whole : (Written.Fact.tree scope (.instantiation x.literal type.literal assigned)).lexemes =
          typed x.literal (.object type.literal) ++ braced (assigned.map fun a =>
            (Term.field a.1 (a.2.resolve scope)).lexemes) := by
        rw [Expr.lexemes, Written.instantiation?_tree some]
        simp [Written.Fact.tree, Function.comp_def, Node.lexemes]
      rw [whole]
      refine ⟨?_, fun ts same => ?_⟩
      · simp only [typed, FieldType.name, List.forall_mem_append, List.forall_mem_cons]
        exact ⟨⟨legible_name hx (legible x (by simp)), .delimiter _,
          legible_name ht (legible type (by simp)), List.forall_mem_nil _⟩, inner.legible⟩
      · simp only [typed, FieldType.name, List.cons_append, List.nil_append,
          List.map_eq_cons_iff] at same
        rcases same with ⟨n, _, rfl, hn, c, _, rfl, hc, u, vs, rfl, hu, hvs⟩
        rw [← literal_of_name hn, ← literal_of_name hu]
        exact .instantiation (congrArg Lexeme.kind hn) (congrArg Lexeme.kind hc)
          (congrArg Lexeme.kind hu) (inner.forms vs hvs)

/-- The facts of a test, whatever is in scope before them. -/
theorem phrases_of_facts {facts : List Written.Fact}
    (each : ∀ f ∈ facts, ∀ scope, Phrase FactOf (f.tree scope).lexemes f)
    (scope : Table FieldType) :
    List.Forall₂ (fun f l => Phrase FactOf l f) facts
      ((Written.factTrees scope facts).map Expr.lexemes) := by
  induction facts generalizing scope with
  | nil => exact .nil
  | cons f rest ih =>
    rw [List.forall_mem_cons] at each
    exact .cons (each.1 scope) (ih each.2 _)

/-- `name { word { … } word { … } }`. -/
theorem phrase_sections {β γ : Type} {item' : List Token → β → Prop}
    {whole : List Token → γ → Prop} {ls ms : List Lexeme} {a : α} {b : β} {c : γ} {head : Lexeme}
    {first second : Keyword} (named : head.Legible) (hfirst : Phrase item ls a)
    (hsecond : Phrase item' ms b)
    (form : ∀ (name l w w' r : Token) (us vs : List Token), name.toLexeme = head →
      l.kind = .delimiter .leftBrace → w.kind = .keyword first → item us a →
      w'.kind = .keyword second → item' vs b → r.kind = .delimiter .rightBrace →
      whole (name :: l :: w :: us ++ w' :: vs ++ [r]) c) :
    Phrase whole (head :: .mark .leftBrace :: (.word first :: ls) ++ (.word second :: ms) ++
      [.mark .rightBrace]) c := by
  refine ⟨?_, fun ts same => ?_⟩
  · simp only [List.forall_mem_append, List.forall_mem_cons]
    exact ⟨⟨⟨named, .delimiter _, .keyword _, hfirst.legible⟩, .keyword _, hsecond.legible⟩,
      .delimiter _, List.forall_mem_nil _⟩
  · simp only [List.cons_append, List.append_assoc, List.map_eq_cons_iff, List.map_eq_append_iff,
      List.map_eq_nil_iff] at same
    rcases same with ⟨n, _, rfl, hn, l, _, rfl, hl, w, _, rfl, hw, us, _, rfl, hus, w', _, rfl, hw',
      vs, _, rfl, hvs, r, _, rfl, hr, rfl⟩
    have formed := form n l w w' r us vs hn (congrArg Lexeme.kind hl) (congrArg Lexeme.kind hw)
      (hfirst.forms us hus) (congrArg Lexeme.kind hw') (hsecond.forms vs hvs)
      (congrArg Lexeme.kind hr)
    simpa using formed

/-- The items of a list in braces, if each is written as a phrase. -/
theorem phrases_of_bracedAny {as : List α} (h : BracedAny item ts as) {f : α → List Lexeme}
    (each : ∀ us a, us ⊆ ts → item us a → Phrase item (f a) a) :
    List.Forall₂ (fun a l => Phrase item l a) as (as.map f) := by
  rw [List.forall₂_map_right_iff, List.forall₂_same]
  intro a member
  obtain ⟨us, within, ha⟩ := exists_of_mem_bracedAny h member
  exact each us a within ha

theorem phrase_rule {r : Written.Rule} (h : RuleOf ts r) (legible : ∀ t ∈ ts, t.toLexeme.Legible) :
    Phrase RuleOf (.name r.name :: .mark .leftBrace ::
      (.word .input :: braced (r.tree.params.map Term.parameter)) ++
      (.word .rules :: braced (r.tree.body.map Expr.lexemes)) ++ [.mark .rightBrace]) r := by
  cases h with
  | @mk name l input rules right ps bs params body hname _ _ hparams _ hbody _ =>
    have first : Phrase (BracedAny Typed) (braced
        ((Written.Rule.tree ⟨name.literal, params, body⟩).params.map Term.parameter)) params := by
      apply phrase_bracedAny
      rw [Written.Rule.tree, List.map_map]
      refine phrases_of_bracedAny hparams fun us f within hf => ?_
      exact phrase_typed hf fun t here => legible t (by simp [within here])
    have second : Phrase (BracedAny Expression) (braced
        ((Written.Rule.tree ⟨name.literal, params, body⟩).body.map Expr.lexemes)) body := by
      apply phrase_bracedAny
      rw [Written.Rule.tree, List.map_map]
      refine phrases_of_bracedAny hbody fun us e within he => ?_
      rw [Function.comp_apply, Expr.lexemes_resolve (bare_of_expression he)]
      exact phrase_expression he fun t here => legible t (by simp [within here])
    refine phrase_sections (legible_name hname (legible name (by simp))) first second ?_
    intro n l w w' r us vs hn hl hw hus hw' hvs hr
    have literal : n.literal = name.literal := literal_of_name hn
    rw [← literal]
    exact .mk (congrArg Lexeme.kind hn) hl hw hus hw' hvs hr

/-- The name of a test may be written as a string, whether it was one or not. -/
theorem legible_testName {t : Token} (kind : t.kind = .string ∨ t.kind = .identifier)
    (legible : t.toLexeme.Legible) : Lexeme.Legible ⟨.string, t.literal⟩ := by
  rcases kind with kind | kind
  · rwa [← kind]
  · have named := legible_name kind legible
    rw [Lexeme.name] at named
    cases named with
    | name word _ =>
      refine .string fun quote => ?_
      exact absurd (word.parts _ quote) (by decide)

theorem phrase_test {t : Written.Test} (h : TestOf ts t) (legible : ∀ t ∈ ts, t.toLexeme.Legible) :
    Phrase TestOf (⟨.string, t.name⟩ :: .mark .leftBrace ::
      (.word .facts :: braced (t.tree.facts.map Expr.lexemes)) ++
      (.word .rules :: braced (t.tree.body.map Expr.lexemes)) ++ [.mark .rightBrace]) t := by
  cases h with
  | @mk name l facts rules right fs bs given body hname _ _ hfacts _ hbody _ =>
    have first : Phrase (BracedAny FactOf) (braced
        ((Written.Test.tree ⟨name.literal, given, body⟩).facts.map Expr.lexemes)) given := by
      apply phrase_bracedAny
      refine phrases_of_facts (fun f member scope => ?_) .empty
      obtain ⟨us, within, hf⟩ := exists_of_mem_bracedAny hfacts member
      exact phrase_factOf hf (fun t here => legible t (by simp [within here])) scope
    have second : Phrase (BracedAny Invocation) (braced
        ((Written.Test.tree ⟨name.literal, given, body⟩).body.map Expr.lexemes)) body := by
      apply phrase_bracedAny
      rw [Written.Test.tree, List.map_map]
      refine phrases_of_bracedAny hbody fun us e within he => ?_
      rw [Function.comp_apply, Expr.lexemes_resolve (bare_of_invocation he)]
      exact phrase_invocation he fun t here => legible t (by simp [within here])
    refine phrase_sections (legible_testName hname (legible name (by simp))) first second ?_
    intro n l w w' r us vs hn hl hw hus hw' hvs hr
    have literal : n.literal = name.literal := by rw [hn]
    rw [← literal]
    exact .mk (.inl (congrArg Lexeme.kind hn)) hl hw hus hw' hvs hr

/-- `word Name { name : Type, … }`. -/
theorem phrase_fields {word : Keyword} {name : Token} {fields : List Field}
    (make : String → Written.Declaration) (hname : name.kind = .identifier)
    (h : Braced Typed ts fields) (legible : ∀ t ∈ name :: ts, t.toLexeme.Legible)
    (form : ∀ (w n : Token) (us : List Token), w.kind = .keyword word → n.kind = .identifier →
      Braced Typed us fields → Declares (w :: n :: us) (make n.literal)) :
    Phrase Declares (.word word :: .name name.literal ::
      braced (fields.map fun f => typed f.name f.type)) (make name.literal) := by
  have some : fields ≠ [] := by
    rcases h with ⟨_, h, _⟩
    cases h <;> exact List.cons_ne_nil _ _
  have inner : Phrase (Braced Typed) (braced (fields.map fun f => typed f.name f.type)) fields := by
    refine phrase_braced (phrases_of_bracedAny (.some h) fun us f within hf => ?_) some
    exact phrase_typed hf fun t here => legible t (by simp [within here])
  refine ⟨?_, fun ts same => ?_⟩
  · simp only [List.forall_mem_cons]
    exact ⟨.keyword _, legible_name hname (legible name (by simp)), inner.legible⟩
  · simp only [List.map_eq_cons_iff] at same
    rcases same with ⟨w, _, rfl, hw, n, us, rfl, hn, hus⟩
    rw [← literal_of_name hn]
    exact form w n us (congrArg Lexeme.kind hw) (congrArg Lexeme.kind hn) (inner.forms us hus)

theorem phrase_declares {d : Written.Declaration} (h : Declares ts d)
    (legible : ∀ t ∈ ts, t.toLexeme.Legible) : Phrase Declares d.tree.lexemes d := by
  cases h with
  | @object word name ts fields _ hname h =>
    refine phrase_fields (fun x => .object ⟨x, fields⟩) hname h ?_ fun _ _ _ => .object
    exact fun t member => legible t (List.mem_cons_of_mem _ member)
  | @relation word name ts fields _ hname h =>
    refine phrase_fields (fun x => .relation ⟨x, fields⟩) hname h ?_ fun _ _ _ => .relation
    exact fun t member => legible t (List.mem_cons_of_mem _ member)
  | @rule word ts r _ h =>
    have inner := phrase_rule h fun t member => legible t (List.mem_cons_of_mem _ member)
    refine ⟨List.forall_mem_cons.mpr ⟨.keyword _, inner.legible⟩, fun ts same => ?_⟩
    obtain ⟨w, us, rfl, hw, hus⟩ := List.map_eq_cons_iff.mp same
    exact .rule (congrArg Lexeme.kind hw) (inner.forms us hus)
  | @test word ts t _ h =>
    have inner := phrase_test h fun t member => legible t (List.mem_cons_of_mem _ member)
    refine ⟨List.forall_mem_cons.mpr ⟨.keyword _, inner.legible⟩, fun ts same => ?_⟩
    obtain ⟨w, us, rfl, hw, hus⟩ := List.map_eq_cons_iff.mp same
    exact .test (congrArg Lexeme.kind hw) (inner.forms us hus)

theorem phrases_of_declarations {ds : List Written.Declaration} (h : Declarations ts ds)
    (legible : ∀ t ∈ ts, t.toLexeme.Legible) : ∀ d ∈ ds, Phrase Declares d.tree.lexemes d := by
  induction h with
  | nil => exact nofun
  | cons first _ ih =>
    rw [List.forall_mem_append] at legible
    exact List.forall_mem_cons.mpr ⟨phrase_declares first legible.1, ih legible.2⟩

theorem phrase_declarations {ds : List Written.Declaration}
    (each : ∀ d ∈ ds, Phrase Declares d.tree.lexemes d) :
    Phrase Declarations (ds.flatMap fun d => d.tree.lexemes) ds := by
  induction ds with
  | nil =>
    refine ⟨nofun, fun ts same => ?_⟩
    rw [List.map_eq_nil_iff.mp same]
    exact .nil
  | cons d rest ih =>
    rw [List.forall_mem_cons] at each
    have later := ih each.2
    rw [List.flatMap_cons]
    refine ⟨List.forall_mem_append.mpr ⟨each.1.legible, later.legible⟩, fun ts same => ?_⟩
    obtain ⟨us, vs, rfl, hus, hvs⟩ := List.map_eq_append_iff.mp same
    exact .cons (each.1.forms us hus) (later.forms vs hvs)

end Grammar

/-! ## The order of declarations -/

namespace Written

variable {ws : List Declaration}

/-- The declarations of each kind, one kind after the other. -/
def byKind (ws : List Declaration) : List Declaration :=
  [.object, .relation, .rule, .test].flatMap fun kind => ws.filter (·.tree.kind = kind)

theorem mem_of_mem_byKind {w : Declaration} (h : w ∈ byKind ws) : w ∈ ws := by
  obtain ⟨kind, _, here⟩ := List.mem_flatMap.mp h
  exact (List.mem_filter.mp here).1

/-- Sorting by kind loses nothing. -/
theorem byKind_perm (ws : List Declaration) : (byKind ws).Perm ws := by
  have whole (vs : List Declaration) : byKind vs =
      vs.filter (·.tree.kind = .object) ++ (vs.filter (·.tree.kind = .relation) ++
        (vs.filter (·.tree.kind = .rule) ++ vs.filter (·.tree.kind = .test))) := by
    simp only [byKind, List.flatMap_cons, List.flatMap_nil, List.append_nil]
  induction ws with
  | nil => exact .nil
  | cons w ws ih =>
    refine List.Perm.trans ?_ (ih.cons w)
    rw [whole, whole ws]
    cases w with
    | object _ => exact .refl _
    | relation _ => exact List.perm_middle
    | rule _ => exact (List.perm_middle.append_left _).trans List.perm_middle
    | test _ =>
      exact ((List.perm_middle.append_left _).append_left _).trans
        ((List.perm_middle.append_left _).trans List.perm_middle)

theorem distinct_byKind (distinct : Distinct ws) : Distinct (byKind ws) := by
  refine ⟨?_, fun w member => distinct.inner w (mem_of_mem_byKind member)⟩
  rw [byKind, List.map_flatMap, List.nodup_flatMap]
  constructor
  · intro kind _
    exact distinct.names.sublist (List.filter_sublist.map _)
  · have kinds : [Declared.object, .relation, .rule, .test].Pairwise (· ≠ ·) := by decide
    refine kinds.imp fun apart key here there => ?_
    obtain ⟨w, first, rfl⟩ := List.mem_map.mp here
    obtain ⟨w', second, same⟩ := List.mem_map.mp there
    have kind := (List.mem_filter.mp first).2
    have kind' := (List.mem_filter.mp second).2
    simp only [decide_eq_true_eq] at kind kind'
    apply apart
    rw [← kind, ← kind']
    exact (congrArg Prod.fst same).symm

/-- What declarations of one kind give is found among these declarations. -/
theorem filterMap_byKind {β : Type} {f : Declaration → Option β} {own : Declared}
    (known : own ∈ [Declared.object, .relation, .rule, .test])
    (only : ∀ w, w.tree.kind ≠ own → f w = none) : (byKind ws).filterMap f = ws.filterMap f := by
  have part (kind : Declared) : (ws.filter (·.tree.kind = kind)).filterMap f =
      if kind = own then ws.filterMap f else [] := by
    rw [List.filterMap_filter]
    split
    · rename_i same
      apply List.filterMap_congr
      intro w _
      by_cases here : w.tree.kind = kind
      · rw [if_pos (decide_eq_true here)]
      · rw [if_neg (by simpa using here), only w (same ▸ here)]
    · rename_i other
      rw [List.filterMap_eq_nil_iff]
      intro w _
      by_cases here : w.tree.kind = kind
      · rw [if_pos (decide_eq_true here), only w (here ▸ other)]
      · rw [if_neg (by simpa using here)]
  simp only [byKind, List.flatMap_cons, List.flatMap_nil, List.filterMap_append, part,
    List.filterMap_nil]
  simp only [List.mem_cons, List.not_mem_nil, or_false] at known
  rcases known with rfl | rfl | rfl | rfl <;> simp

theorem document_byKind (ws : List Declaration) : document (byKind ws) = document ws := by
  have objects := @filterMap_byKind ws _ Declaration.object? .object (by decide) fun w => by
    cases w <;> simp [Declaration.tree, Rulebook.Declaration.kind, Declaration.object?]
  have relations := @filterMap_byKind ws _ Declaration.relation? .relation (by decide) fun w => by
    cases w <;> simp [Declaration.tree, Rulebook.Declaration.kind, Declaration.relation?]
  have rules := @filterMap_byKind ws _ Declaration.rule? .rule (by decide) fun w => by
    cases w <;> simp [Declaration.tree, Rulebook.Declaration.kind, Declaration.rule?]
  have tests := @filterMap_byKind ws _ Declaration.test? .test (by decide) fun w => by
    cases w <;> simp [Declaration.tree, Rulebook.Declaration.kind, Declaration.test?]
  simp only [document, objects, relations, rules, tests]

/-- What is taken from declarations of one kind, made declarations again. -/
theorem map_filterMap_eq_filter {β : Type} {f : Declaration → Option β} {own : Declared}
    {make : β → Rulebook.Declaration}
    (found : ∀ w, (f w).map make = if w.tree.kind = own then some w.tree else none) :
    (ws.filterMap f).map make = (ws.filter (·.tree.kind = own)).map Declaration.tree := by
  rw [List.map_filterMap, ← List.filterMap_eq_map, List.filterMap_filter]
  apply List.filterMap_congr
  intro w _
  rw [found w]
  simp only [decide_eq_true_eq, Function.comp_apply]

/-- Declarations of one kind have distinct names. -/
theorem nodup_keys_filterMap {β : Type} {f : Declaration → Option (String × β)} {own : Declared}
    (distinct : Distinct ws)
    (named : ∀ w, (f w).map Prod.fst = if w.tree.kind = own then some w.tree.name else none) :
    ((ws.filterMap f).map Prod.fst).Nodup := by
  have same : (ws.filterMap f).map Prod.fst =
      (ws.map fun w => (w.tree.kind, w.tree.name)).filterMap fun key =>
        if key.1 = own then some key.2 else none := by
    rw [List.map_filterMap, List.filterMap_map]
    exact List.filterMap_congr fun w _ => named w
  rw [same]
  refine distinct.names.filterMap fun key key' name here there => ?_
  simp only [Option.mem_def, Option.ite_none_right_eq_some, Option.some.injEq] at here there
  exact Prod.ext (here.1.trans there.1.symm) (here.2.trans there.2.symm)

/-- A table of declarations of one kind, with distinct names, holds all of them. -/
theorem map_values_eq_filter {β : Type} {f : Declaration → Option (String × β)} {own : Declared}
    {make : β → Rulebook.Declaration} (distinct : Distinct ws)
    (named : ∀ w, (f w).map Prod.fst = if w.tree.kind = own then some w.tree.name else none)
    (found : ∀ w, (f w).map (make ∘ Prod.snd) = if w.tree.kind = own then some w.tree else none) :
    (Table.ofList (ws.filterMap f)).values.map make =
      (ws.filter (·.tree.kind = own)).map Declaration.tree := by
  rw [Table.values, Table.entries_ofList (nodup_keys_filterMap distinct named), List.map_map]
  exact map_filterMap_eq_filter found

/-- What a document declares is what it was made from, one kind after the other. -/
theorem declarations_document (distinct : Distinct ws) :
    (document ws).declarations = (byKind ws).map Declaration.tree := by
  have objects := @map_values_eq_filter ws _ Declaration.object? .object .object distinct
    (fun w => by cases w <;> rfl) fun w => by cases w <;> rfl
  have relations := @map_values_eq_filter ws _ Declaration.relation? .relation .relation distinct
    (fun w => by cases w <;> rfl) fun w => by cases w <;> rfl
  have rules := @map_values_eq_filter ws _ Declaration.rule? .rule .rule distinct
    (fun w => by cases w <;> rfl) fun w => by cases w <;> rfl
  have tests := @map_filterMap_eq_filter ws _ Declaration.test? .test .test
    fun w => by cases w <;> rfl
  simp only [Document.declarations, document, objects, relations, rules, tests, byKind,
    List.flatMap_cons, List.flatMap_nil, List.map_append, List.append_nil, List.append_assoc]

end Written

/-! ## Documents -/

theorem Scans.legible {text : String} {tokens : List Token} (scans : Scans text tokens) :
    ∀ t ∈ significant tokens, t.toLexeme.Legible := by
  rcases scans with ⟨_, whole⟩
  intro t member
  obtain ⟨here, significant⟩ := List.mem_filter.mp member
  have scanned : .ok t ∈ (Scanner.ofString text).results.1 := by
    rw [whole]
    exact List.mem_map_of_mem here
  rcases Scanner.legible_of_mem_results scanned with comment | legible
  · simp [comment] at significant
  · exact legible

/-- Legible lexemes, written in a row, are scanned as tokens that say the same. -/
theorem exists_scans_layout {ls : List Lexeme} (legible : ∀ l ∈ ls, l.Legible) :
    ∃ tokens, Scans (layout ls) tokens ∧ (significant tokens).map Token.toLexeme = ls := by
  obtain ⟨tokens, last, lexemes, scanned⟩ := Scanner.results_layout legible .start
  refine ⟨tokens, ⟨last, scanned⟩, ?_⟩
  have all : significant tokens = tokens := by
    refine List.filter_eq_self.mpr fun t member => ?_
    have here : t.toLexeme ∈ ls := by
      rw [← lexemes]
      exact List.mem_map_of_mem member
    simpa using (legible _ here).ne_comment
  rw [all, lexemes]

/-- The document of a text, written as a text, is read as the same document. -/
theorem parse_render {text : String} {d : Document} (parsed : Compiler.parse text = .ok d) :
    Compiler.parse d.render = .ok d := by
  obtain ⟨tokens, ws, scans, declares, distinct, rfl⟩ := parse_ok_iff.mp parsed
  have phrases := Grammar.phrases_of_declarations declares scans.legible
  have phrase : Grammar.Phrase Grammar.Declarations
      ((Written.document ws).declarations.flatMap Declaration.lexemes) (Written.byKind ws) := by
    rw [Written.declarations_document distinct, List.flatMap_map]
    exact Grammar.phrase_declarations fun w member => phrases w (Written.mem_of_mem_byKind member)
  obtain ⟨tokens', scans', lexemes⟩ := exists_scans_layout phrase.legible
  refine parse_ok_iff.mpr ⟨tokens', Written.byKind ws, scans', phrase.forms _ lexemes, ?_, ?_⟩
  · exact Written.distinct_byKind distinct
  · exact (Written.document_byKind ws).symm

/-- Declarations out of order, a number that is written shorter, and a fact that is no instantiation
although its functor is `new`. -/
theorem parse_render_mixed :
    ∃ d, Compiler.parse ("rule r { input { x: T } rules { x.a * 2 = (3 - y) } } " ++
        "test t { facts { x: T { a: 07 }, new(x, 1.50) } rules { } } # end\nobject T { a: int }") =
        .ok d ∧
      d.render = "object T { a : int } " ++
        "rule r { input { x : T } rules { (((x . a) * 2) == (3 - y)) } } test \"t\" " ++
        "{ facts { x : T { a : 7 }, new(x, 1.50) } rules { } }" ∧
      Compiler.parse d.render = .ok d := by
  obtain ⟨d, parsed, rendered⟩ : ∃ d, Compiler.parse
      ("rule r { input { x: T } rules { x.a * 2 = (3 - y) } } " ++
        "test t { facts { x: T { a: 07 }, new(x, 1.50) } rules { } } # end\nobject T { a: int }") =
        .ok d ∧
      d.render = "object T { a : int } " ++
        "rule r { input { x : T } rules { (((x . a) * 2) == (3 - y)) } } test \"t\" " ++
        "{ facts { x : T { a : 7 }, new(x, 1.50) } rules { } }" :=
    exists_ok_of_map (by decide +kernel)
  exact ⟨d, parsed, rendered, parse_render parsed⟩

end Rulebook
