import Rulebook.Proofs.Grammar.Chain
import Rulebook.Proofs.Grammar.Shape

/-!
# The grammar is unambiguous

A list of tokens has at most one reading. A kind of phrase is `Exact` if no two phrases of the kind
start one text with different tokens or different trees, and `Maximal` if that holds of phrases that
no operator goes on after. Chains are maximal; whatever brackets close is exact, and so are whole
declarations.
-/

namespace Rulebook

mutual

/-- Nothing is in scope to resolve names with. -/
theorem Node.resolve_empty : ∀ n : Node, n.resolve .empty = n
  | .term t => by cases t <;> rfl
  | .app functor args => by rw [Node.resolve, Node.resolveAll_empty args]

theorem Node.resolveAll_empty : ∀ nodes : List Node, Node.resolveAll .empty nodes = nodes
  | [] => rfl
  | n :: rest => by rw [Node.resolveAll, Node.resolve_empty n, Node.resolveAll_empty rest]

end

namespace Grammar

open ChainTree

variable {α β : Type}

/-- No operator comes first. -/
def Settled (ts : List Token) : Prop := ∀ t ∈ ts.head?, t.kind.isOperator = false

/-- Two phrases at the start of one text are the same. -/
def Exact (phrase : List Token → β → Prop) : Prop :=
  ∀ ⦃us vs r s : List Token⦄ ⦃a b : β⦄, phrase us a → phrase vs b → us ++ r = vs ++ s →
    us = vs ∧ a = b

/-- Two phrases at the start of one text that no operator goes on after are the same. -/
def Maximal (phrase : List Token → β → Prop) : Prop :=
  ∀ ⦃us vs r s : List Token⦄ ⦃a b : β⦄, phrase us a → phrase vs b → us ++ r = vs ++ s →
    Settled r → Settled s → us = vs ∧ a = b

theorem Exact.maximal {phrase : List Token → β → Prop} (h : Exact phrase) : Maximal phrase :=
  fun _ _ _ _ _ _ ha hb whole _ _ => h ha hb whole

theorem settled_cons {t : Token} {ts : List Token} {mark : Delimiter}
    (kind : t.kind = .delimiter mark) : Settled (t :: ts) := by
  intro u hu
  cases hu
  rw [kind]
  rfl

/-! ## Chains -/

theorem literal_unique {t : Token} {v w : Term} (h : Literal t v) (h' : Literal t w) : v = w := by
  cases h <;> cases h' <;> simp_all

section Chains

variable {scope : Table FieldType} {limit : Nat} {us vs r s : List Token}

/-- Operands are the same if the chains inside them are. -/
theorem operand_unique {n m : Node}
    (chains : ∀ {us vs r s : List Token} {n m : Node}, us.length < limit → Chain 0 us n →
      Chain 0 vs m → us ++ r = vs ++ s → Settled r → Settled s → us = vs ∧ n = m)
    (short : us.length ≤ limit) (h : Operand scope us n) (h' : Operand scope vs m)
    (whole : us ++ r = vs ++ s) : us = vs ∧ n = m := by
  cases h with
  | literal hv =>
    cases h' with
    | literal hw =>
      obtain ⟨rfl, -⟩ := List.cons.inj whole
      rw [literal_unique hv hw]
      exact ⟨rfl, rfl⟩
    | group kind _ _ =>
      obtain ⟨rfl, -⟩ := List.cons.inj whole
      have := isLiteral_of_literal hv
      simp [kind, Token.Kind.isLiteral] at this
  | @group l close ts n kind chain kindR =>
    cases h' with
    | literal hw =>
      obtain ⟨rfl, -⟩ := List.cons.inj whole
      have := isLiteral_of_literal hw
      simp [kind, Token.Kind.isLiteral] at this
    | @group l' close' ts' n' _ chain' kindR' =>
      simp only [List.cons_append, List.append_assoc, List.cons.injEq] at whole
      rcases whole with ⟨rfl, whole⟩
      have shorter : ts.length < limit := by
        simp only [List.length_append, List.length_cons, List.length_nil] at short
        omega
      obtain ⟨rfl, rfl⟩ := chains shorter chain chain' whole (settled_cons kindR) (settled_cons kindR')
      have ends := List.append_cancel_left whole
      simp only [List.cons.injEq] at ends
      exact ⟨by rw [ends.1], rfl⟩

/-- Links are the same if their operands are. -/
theorem links_unique {xs ys : List Link}
    (operands : ∀ {us vs r s : List Token} {n m : Node}, us.length ≤ limit → Operand scope us n →
      Operand scope vs m → us ++ r = vs ++ s → us = vs ∧ n = m)
    (short : us.length ≤ limit) (h : SpellsLinks (Operand scope) us xs)
    (h' : SpellsLinks (Operand scope) vs ys) (whole : us ++ r = vs ++ s) (settled : Settled r)
    (settled' : Settled s) : us = vs ∧ xs = ys := by
  induction h generalizing vs ys with
  | nil =>
    cases h' with
    | nil => exact ⟨rfl, rfl⟩
    | @cons _ _ t _ _ _ _ kind _ _ _ =>
      have here := settled t (by rw [← List.nil_append r, whole]; rfl)
      simp [kind, Token.Kind.isOperator] at here
  | @cons ts us t op p n xs kind binds hn rest ih =>
    cases h' with
    | nil =>
      have here := settled' t (by rw [← List.nil_append s, ← whole]; rfl)
      simp [kind, Token.Kind.isOperator] at here
    | @cons ts' us' t' op' p' n' xs' kind' binds' hn' rest' =>
      simp only [List.cons_append, List.append_assoc, List.cons.injEq] at whole
      rcases whole with ⟨rfl, whole⟩
      simp only [List.length_cons, List.length_append] at short
      obtain ⟨rfl, rfl⟩ := operands (by omega) hn hn' whole
      obtain ⟨rfl, rfl⟩ := ih (by omega) rest' (List.append_cancel_left whole)
      obtain rfl : op = op' := by simpa using kind.symm.trans kind'
      obtain rfl : p = p' := by simpa using binds.symm.trans binds'
      exact ⟨rfl, rfl⟩

theorem chain_unique_within {limit : Nat} {us vs r s : List Token} {n m : Node}
    (short : us.length < limit) (h : Chain 0 us n) (h' : Chain 0 vs m) (whole : us ++ r = vs ++ s)
    (settled : Settled r) (settled' : Settled s) : us = vs ∧ n = m := by
  induction limit generalizing us vs r s n m with
  | zero => omega
  | succ limit ih =>
    obtain ⟨tree, spells, ordered, same⟩ := spells_of_chain .empty h
    obtain ⟨tree', spells', ordered', same'⟩ := spells_of_chain .empty h'
    obtain ⟨us₁, us₂, rfl, first, links⟩ := spells.split ordered
    obtain ⟨vs₁, vs₂, rfl, first', links'⟩ := spells'.split ordered'
    rw [List.append_assoc, List.append_assoc] at whole
    rw [List.length_append] at short
    have operands {us vs r s : List Token} {n m : Node} := @operand_unique .empty limit us vs r s n m ih
    obtain ⟨rfl, sameFirst⟩ := operands (by omega) first first' whole
    obtain ⟨rfl, sameLinks⟩ := links_unique operands (by omega) links links'
      (List.append_cancel_left whole) settled settled'
    -- Both trees come from the same operand and the same links.
    have sameTree : tree = tree' := by
      rw [← ordered.foldl_link, ← ordered'.foldl_link, sameFirst, sameLinks]
    rw [Node.resolve_empty] at same same'
    exact ⟨rfl, by rw [← same, ← same', sameTree]⟩

theorem chain_maximal : Maximal (Chain 0) :=
  fun _ _ _ _ _ _ h h' => chain_unique_within (Nat.lt_succ_self _) h h'

end Chains

/-! ## Lists -/

section Lists

variable {phrase : List Token → β → Prop}

/-- Phrases with commas up to one and the same closing mark. -/
theorem separated_unique (maximal : Maximal phrase) {us vs r s : List Token} {as bs : List β}
    {close close' : Token} {mark : Delimiter} (other : mark ≠ .comma) (h : Separated phrase us as)
    (h' : Separated phrase vs bs) (kind : close.kind = .delimiter mark)
    (kind' : close'.kind = .delimiter mark)
    (whole : us ++ close :: r = vs ++ close' :: s) : us = vs ∧ as = bs := by
  induction h generalizing vs bs with
  | one ha =>
    cases h' with
    | one hb =>
      obtain ⟨rfl, rfl⟩ := maximal ha hb whole (settled_cons kind) (settled_cons kind')
      exact ⟨rfl, rfl⟩
    | more hb comma _ =>
      rw [List.append_assoc, List.cons_append] at whole
      obtain ⟨rfl, rfl⟩ := maximal ha hb whole (settled_cons kind) (settled_cons comma)
      have ends := (List.cons.inj (List.append_cancel_left whole)).1
      rw [ends, comma] at kind
      simp only [Token.Kind.delimiter.injEq] at kind
      exact absurd kind.symm other
  | more ha comma _ ih =>
    cases h' with
    | one hb =>
      rw [List.append_assoc, List.cons_append] at whole
      obtain ⟨rfl, rfl⟩ := maximal ha hb whole (settled_cons comma) (settled_cons kind')
      have ends := (List.cons.inj (List.append_cancel_left whole)).1
      rw [← ends, comma] at kind'
      simp only [Token.Kind.delimiter.injEq] at kind'
      exact absurd kind'.symm other
    | more hb comma' rest' =>
      rw [List.append_assoc, List.append_assoc, List.cons_append, List.cons_append] at whole
      obtain ⟨rfl, rfl⟩ := maximal ha hb whole (settled_cons comma) (settled_cons comma')
      obtain ⟨rfl, rest⟩ := List.cons.inj (List.append_cancel_left whole)
      obtain ⟨rfl, rfl⟩ := ih rest' rest
      exact ⟨rfl, rfl⟩

theorem braced_exact (maximal : Maximal phrase) : Exact (Braced phrase) := by
  rintro _ _ r s as bs ⟨kindL, h, kindR⟩ ⟨kindL', h', kindR'⟩ whole
  simp only [List.cons_append, List.append_assoc, List.cons.injEq, List.nil_append] at whole
  rcases whole with ⟨rfl, whole⟩
  obtain ⟨rfl, rfl⟩ := separated_unique maximal (by decide) h h' kindR kindR' whole
  obtain ⟨rfl, -⟩ := List.cons.inj (List.append_cancel_left whole)
  exact ⟨rfl, rfl⟩

theorem bracedAny_exact (maximal : Maximal phrase)
    (starts : ∀ {ts : List Token} {b : β}, phrase ts b →
      ∃ t rest, ts = t :: rest ∧ t.kind ≠ .delimiter .rightBrace) :
    Exact (BracedAny phrase) := by
  -- A list with a phrase in it does not close at once.
  have nonempty {l r : Token} {ts us vs : List Token} {as : List β}
      (kindR : r.kind = .delimiter .rightBrace) (h : Braced phrase ts as)
      (whole : [l, r] ++ us = ts ++ vs) : False := by
    rcases h with ⟨_, h, _⟩
    obtain ⟨t, rest, rfl, other⟩ := separated_starts starts h
    simp only [List.cons_append, List.append_assoc, List.cons.injEq, List.nil_append] at whole
    exact other (whole.2.1 ▸ kindR)
  intro us vs r s as bs h h' whole
  cases h with
  | none kindL kindR =>
    cases h' with
    | none kindL' kindR' =>
      simp only [List.cons_append, List.cons.injEq, List.nil_append] at whole
      rcases whole with ⟨rfl, rfl, -⟩
      exact ⟨rfl, rfl⟩
    | some h' => exact (nonempty kindR h' whole).elim
  | some h =>
    cases h' with
    | none kindL' kindR' => exact (nonempty kindR' h whole.symm).elim
    | some h' => exact braced_exact maximal h h' whole

end Lists

/-! ## Phrases -/

section Phrases

variable {us vs r s : List Token}

theorem invocation_exact : Exact Invocation := by
  -- An argument list with an argument in it does not close at once.
  have nonempty {close : Token} {us r s : List Token} {args : List Node}
      (kind : close.kind = .delimiter .rightParen) (h : Separated (Chain 0) us args)
      (whole : close :: r = us ++ s) : False := by
    obtain ⟨t, rest, rfl, other⟩ :=
      separated_starts (fun h => chain_starts_ne .rightParen (by decide) h) h
    obtain ⟨rfl, -⟩ := List.cons.inj whole
    exact other kind
  intro us vs r s e e' h h' whole
  cases h with
  | none _ _ kind =>
    cases h' with
    | none _ _ _ =>
      simp only [List.cons_append, List.cons.injEq] at whole
      rcases whole with ⟨rfl, rfl, rfl, -⟩
      exact ⟨rfl, rfl⟩
    | some _ _ args _ =>
      simp only [List.cons_append, List.append_assoc, List.cons.injEq] at whole
      exact (nonempty kind args whole.2.2).elim
  | some _ _ args kind =>
    cases h' with
    | none _ _ kind' =>
      simp only [List.cons_append, List.append_assoc, List.cons.injEq] at whole
      exact (nonempty kind' args whole.2.2.symm).elim
    | some _ _ args' kind' =>
      simp only [List.cons_append, List.append_assoc, List.cons.injEq, List.nil_append] at whole
      rcases whole with ⟨rfl, rfl, whole⟩
      obtain ⟨rfl, rfl⟩ := separated_unique chain_maximal (by decide) args args' kind kind' whole
      obtain ⟨rfl, -⟩ := List.cons.inj (List.append_cancel_left whole)
      exact ⟨rfl, rfl⟩

/-- An invocation and a chain that no operator goes on after do not start one text. -/
theorem invocation_ne_chain {e : Expr} {functor : String} {args : List Node} (h : Invocation us e)
    (h' : Chain 0 vs (.app functor args)) (whole : us ++ r = vs ++ s) : False := by
  obtain ⟨f, l, rest, rfl, word, paren⟩ := invocation_starts h
  obtain ⟨t, vs, rfl, -⟩ := chain_starts h'
  simp only [List.cons_append, List.cons.injEq] at whole
  rcases whole with ⟨rfl, whole⟩
  rcases chain_second h' (by rw [word]; rfl) with ⟨-, v, hv⟩ | ⟨u, more, rfl, operator⟩
  · cases hv
  · obtain ⟨rfl, -⟩ := List.cons.inj whole
    simp [paren, Token.Kind.isOperator] at operator

theorem expression_maximal : Maximal Expression := by
  intro us vs r s e e' h h' whole settled settled'
  cases h with
  | invocation h =>
    cases h' with
    | invocation h' => exact invocation_exact h h' whole
    | chain h' => exact (invocation_ne_chain h h' whole).elim
  | chain h =>
    cases h' with
    | invocation h' => exact (invocation_ne_chain h' h whole.symm).elim
    | chain h' =>
      obtain ⟨rfl, same⟩ := chain_maximal h h' whole settled settled'
      cases same
      exact ⟨rfl, rfl⟩

theorem typed_exact : Exact Typed := by
  intro us vs r s a b h h' whole
  cases h
  cases h'
  simp only [List.cons_append, List.cons.injEq] at whole
  rcases whole with ⟨rfl, rfl, rfl, -⟩
  exact ⟨rfl, rfl⟩

theorem assigned_exact : Exact Assigned := by
  intro us vs r s a b h h' whole
  cases h with
  | mk _ _ hv =>
    cases h' with
    | mk _ _ hw =>
      simp only [List.cons_append, List.cons.injEq] at whole
      rcases whole with ⟨rfl, rfl, rfl, -⟩
      rw [literal_unique hv hw]
      exact ⟨rfl, rfl⟩

theorem factOf_exact : Exact FactOf := by
  -- The second token tells an invocation from an instantiation.
  have apart {name colon : Token} {us vs r : List Token} {e : Expr} (h : Invocation us e)
      (kind : colon.kind = .delimiter .colon) (whole : us ++ r = name :: colon :: vs) : False := by
    obtain ⟨f, l, rest, rfl, _, paren⟩ := invocation_starts h
    simp only [List.cons_append, List.cons.injEq] at whole
    simp [whole.2.1, kind] at paren
  intro us vs r s a b h h' whole
  cases h with
  | invocation h =>
    cases h' with
    | invocation h' =>
      obtain ⟨rfl, rfl⟩ := invocation_exact h h' whole
      exact ⟨rfl, rfl⟩
    | instantiation _ kind _ _ => exact (apart h kind whole).elim
  | instantiation _ kind _ assigned =>
    cases h' with
    | invocation h' => exact (apart h' kind whole.symm).elim
    | instantiation _ _ _ assigned' =>
      simp only [List.cons_append, List.cons.injEq] at whole
      rcases whole with ⟨rfl, rfl, rfl, whole⟩
      obtain ⟨rfl, rfl⟩ := braced_exact assigned_exact.maximal assigned assigned' whole
      exact ⟨rfl, rfl⟩

theorem ruleOf_exact : Exact RuleOf := by
  intro us vs r s a b h h' whole
  cases h with
  | mk _ _ _ params _ body _ =>
    cases h' with
    | mk _ _ _ params' _ body' _ =>
      simp only [List.cons_append, List.append_assoc, List.cons.injEq] at whole
      rcases whole with ⟨rfl, rfl, rfl, whole⟩
      obtain ⟨rfl, rfl⟩ := bracedAny_exact typed_exact.maximal typed_starts params params' whole
      obtain ⟨rfl, later⟩ := List.cons.inj (List.append_cancel_left whole)
      obtain ⟨rfl, rfl⟩ := bracedAny_exact expression_maximal expression_starts body body' later
      obtain ⟨rfl, -⟩ := List.cons.inj (List.append_cancel_left later)
      exact ⟨rfl, rfl⟩

theorem testOf_exact : Exact TestOf := by
  intro us vs r s a b h h' whole
  cases h with
  | mk _ _ _ facts _ body _ =>
    cases h' with
    | mk _ _ _ facts' _ body' _ =>
      simp only [List.cons_append, List.append_assoc, List.cons.injEq] at whole
      rcases whole with ⟨rfl, rfl, rfl, whole⟩
      obtain ⟨rfl, rfl⟩ := bracedAny_exact factOf_exact.maximal factOf_starts facts facts' whole
      obtain ⟨rfl, later⟩ := List.cons.inj (List.append_cancel_left whole)
      obtain ⟨rfl, rfl⟩ := bracedAny_exact invocation_exact.maximal
        (fun h => expression_starts (.invocation h)) body body' later
      obtain ⟨rfl, -⟩ := List.cons.inj (List.append_cancel_left later)
      exact ⟨rfl, rfl⟩

theorem declares_exact : Exact Declares := by
  intro us vs r s d d' h h' whole
  cases h <;> cases h' <;> simp only [List.cons_append, List.cons.injEq] at whole
  case object.object _ _ fields _ _ _ _ _ _ fields' =>
    rcases whole with ⟨rfl, rfl, whole⟩
    obtain ⟨rfl, rfl⟩ := braced_exact typed_exact.maximal fields fields' whole
    exact ⟨rfl, rfl⟩
  case relation.relation _ _ fields _ _ _ _ _ _ fields' =>
    rcases whole with ⟨rfl, rfl, whole⟩
    obtain ⟨rfl, rfl⟩ := braced_exact typed_exact.maximal fields fields' whole
    exact ⟨rfl, rfl⟩
  case rule.rule _ h _ _ _ _ h' =>
    rcases whole with ⟨rfl, whole⟩
    obtain ⟨rfl, rfl⟩ := ruleOf_exact h h' whole
    exact ⟨rfl, rfl⟩
  case test.test _ h _ _ _ _ h' =>
    rcases whole with ⟨rfl, whole⟩
    obtain ⟨rfl, rfl⟩ := testOf_exact h h' whole
    exact ⟨rfl, rfl⟩
  -- Declarations of two kinds start with two keywords.
  all_goals
    rcases whole with ⟨rfl, -⟩
    simp_all

/-- A text has one reading at most. -/
theorem declarations_unique {ts : List Token} {ws ws' : List Written.Declaration}
    (h : Declarations ts ws) (h' : Declarations ts ws') : ws = ws' := by
  generalize whole : ts = ts' at h'
  induction h generalizing ws' ts' with
  | nil =>
    cases h' with
    | nil => rfl
    | cons first _ => simp [declares_ne_nil first] at whole
  | cons first _ ih =>
    cases h' with
    | nil => simp [declares_ne_nil first] at whole
    | cons first' rest' =>
      obtain ⟨rfl, rfl⟩ := declares_exact first first' whole
      rw [ih _ (List.append_cancel_left whole) rest']

end Phrases

end Grammar

end Rulebook
