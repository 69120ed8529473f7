import Rulebook.Proofs.Grammar.Basic

/-!
# How phrases start and how long they are

The first one or two tokens of a phrase tell what it is. This is what lets a text be read from left
to right without going back.
-/

namespace Rulebook.Grammar

variable {β : Type} {ts : List Token}

theorem isLiteral_of_literal {t : Token} {v : Term} (h : Literal t v) :
    t.kind.isLiteral = true := by
  cases h <;> rename_i kind <;> rw [kind] <;> rfl

/-- A chain has a token at least. -/
theorem Chain.ne_nil {ts : List Token} {n : Node} {level : Nat} (h : Chain level ts n) :
    ts ≠ [] := by
  cases h <;> simp

theorem length_separated_le {item : List Token → β → Prop} {bs : List β}
    (h : Separated item ts bs) : bs.length ≤ ts.length + 1 := by
  induction h with
  | one _ => simp
  | more _ _ _ ih =>
    simp only [List.length_cons, List.length_append]
    omega

/-- A chain starts with a literal or a parenthesis. -/
theorem chain_starts {level : Nat} {n : Node} (h : Chain level ts n) :
    ∃ t rest, ts = t :: rest ∧ (t.kind.isLiteral = true ∨ t.kind = .delimiter .leftParen) := by
  induction h with
  | literal hv => exact ⟨_, [], rfl, .inl (isLiteral_of_literal hv)⟩
  | group kind _ _ _ => exact ⟨_, _, rfl, .inr kind⟩
  | join _ _ _ _ _ ih _ =>
    rcases ih with ⟨t, rest, rfl, kind⟩
    exact ⟨t, _, rfl, kind⟩

theorem chain_starts_ne (mark : Delimiter) {level : Nat} {n : Node} (other : mark ≠ .leftParen)
    (h : Chain level ts n) : ∃ t rest, ts = t :: rest ∧ t.kind ≠ .delimiter mark := by
  obtain ⟨t, rest, rfl, kind⟩ := chain_starts h
  refine ⟨t, rest, rfl, fun here => ?_⟩
  rw [here] at kind
  simp [Token.Kind.isLiteral, other] at kind

/-- Phrases with commas start like the first of them. -/
theorem separated_starts {item : List Token → β → Prop} {bs : List β} {kind : Token.Kind}
    (starts : ∀ {us : List Token} {b : β}, item us b → ∃ t rest, us = t :: rest ∧ t.kind ≠ kind)
    (h : Separated item ts bs) : ∃ t rest, ts = t :: rest ∧ t.kind ≠ kind := by
  cases h with
  | one first => exact starts first
  | more first _ _ =>
    obtain ⟨t, rest, rfl, other⟩ := starts first
    exact ⟨t, _, rfl, other⟩

/-- What follows a literal at the start of a longer chain is an operator. -/
theorem chain_second {level : Nat} {n : Node} {t : Token} (h : Chain level (t :: ts) n)
    (kind : t.kind.isLiteral = true) :
    (ts = [] ∧ ∃ v, n = .term v) ∨ ∃ u rest, ts = u :: rest ∧ u.kind.isOperator = true := by
  generalize whole : t :: ts = all at h
  induction h generalizing ts with
  | literal hv =>
    cases whole
    exact .inl ⟨rfl, _, rfl⟩
  | group paren _ _ _ =>
    cases whole
    simp [paren, Token.Kind.isLiteral] at kind
  | @join _ _ op u us vs _ _ _ _ left kindU _ ih _ =>
    obtain ⟨t', rest, rfl, _⟩ := chain_starts left
    simp only [List.cons_append, List.cons.injEq] at whole
    rcases whole with ⟨rfl, rfl⟩
    refine .inr ?_
    rcases ih rfl with ⟨rfl, _⟩ | ⟨u', rest', rfl, operator⟩
    · exact ⟨u, vs, rfl, by rw [kindU]; rfl⟩
    · exact ⟨u', _, rfl, operator⟩

theorem typed_starts {f : Field} (h : Typed ts f) :
    ∃ t rest, ts = t :: rest ∧ t.kind ≠ .delimiter .rightBrace := by
  cases h with
  | mk kind _ _ => exact ⟨_, _, rfl, by simp [kind]⟩

/-- An invocation starts with a name and a parenthesis. -/
theorem invocation_starts {e : Expr} (h : Invocation ts e) :
    ∃ f l rest, ts = f :: l :: rest ∧ f.kind = .identifier ∧ l.kind = .delimiter .leftParen := by
  cases h with
  | none kind kind' _ => exact ⟨_, _, _, rfl, kind, kind'⟩
  | some kind kind' _ _ => exact ⟨_, _, _, rfl, kind, kind'⟩

theorem expression_starts {e : Expr} (h : Expression ts e) :
    ∃ t rest, ts = t :: rest ∧ t.kind ≠ .delimiter .rightBrace := by
  cases h with
  | invocation h =>
    obtain ⟨f, l, rest, rfl, kind, _⟩ := invocation_starts h
    exact ⟨f, _, rfl, by simp [kind]⟩
  | chain h => exact chain_starts_ne .rightBrace (by decide) h

theorem factOf_starts {w : Written.Fact} (h : FactOf ts w) :
    ∃ t rest, ts = t :: rest ∧ t.kind ≠ .delimiter .rightBrace := by
  cases h with
  | invocation h => exact expression_starts (.invocation h)
  | instantiation kind _ _ _ => exact ⟨_, _, rfl, by simp [kind]⟩

theorem declares_ne_nil {w : Written.Declaration} (h : Declares ts w) : ts ≠ [] := by
  cases h <;> simp

end Rulebook.Grammar
