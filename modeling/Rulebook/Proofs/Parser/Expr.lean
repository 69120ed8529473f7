import Rulebook.Parser.Expr
import Rulebook.Proofs.Grammar.Chain
import Rulebook.Proofs.Grammar.Shape
import Rulebook.Proofs.Parser.Cursor

/-!
# Expressions are parsed by their grammar

Each parser of `Rulebook.Parser.Expr` reads exactly the phrases of its kind. `Sound` says that what
it reads is a phrase; `Complete` says that it reads every phrase that no operator goes on after. The
loops count down, so completeness also needs that the count is never used up: it starts above the
number of tokens that are left.
-/

namespace Rulebook.Parser

open Grammar ChainTree

/-- No operator stands here to go on with a chain. -/
def Cursor.Settled (c : Cursor) : Prop := c.current.kind.isOperator = false

/-- A phrase, what it says, and the scopes before and after it. -/
abbrev Phrase (α : Type) := Table FieldType → List Token → α → Table FieldType → Prop

variable {α β : Type}

/-- Where the parser succeeds it has read a phrase. -/
def Sound (p : Parser α) (phrase : Phrase α) : Prop :=
  ∀ ⦃c : Cursor⦄ ⦃scope : Table FieldType⦄ ⦃a : α⦄ ⦃s' : State⦄, Yields p (c.state scope) a s' →
    ∃ ts c' scope', Reads c ts c' ∧ phrase scope ts a scope' ∧ s' = c'.state scope'

/-- The parser succeeds on every phrase of at most so many tokens. -/
def CompleteTo (limit : Nat) (p : Parser α) (phrase : Phrase α) : Prop :=
  ∀ ⦃c c' : Cursor⦄ ⦃scope scope' : Table FieldType⦄ ⦃ts : List Token⦄ ⦃a : α⦄, ts.length ≤ limit →
    Reads c ts c' → phrase scope ts a scope' → c'.Settled →
    Yields p (c.state scope) a (c'.state scope')

/-- The parser succeeds on every phrase. -/
def Complete (p : Parser α) (phrase : Phrase α) : Prop := ∀ limit, CompleteTo limit p phrase

/-- The phrases of a grammar with their names resolved. -/
def resolving (grammar : List Token → β → Prop) (resolve : Table FieldType → β → α) : Phrase α :=
  fun scope ts a scope' => ∃ b, grammar ts b ∧ a = resolve scope b ∧ scope = scope'

variable {c c' : Cursor} {scope : Table FieldType} {s' : State} {ts : List Token}

theorem settled_of_reads {t : Token} (h : Reads c (t :: ts) c')
    (kind : t.kind.isOperator = false) : c.Settled := by
  rw [Cursor.Settled, h.current_eq]
  exact kind

/-! ## Literals -/

theorem yields_resolve {x : String} {v : Term} :
    Yields (resolve x) (c.state scope) v s' ↔
      v = (Term.ident x).resolve scope ∧ s' = c.state scope := by
  have here : (c.state scope).scope = scope := rfl
  rw [resolve, yields_get, here]
  cases found : scope.find? x <;> simp [Term.resolve, found, yields_pure]

theorem integerOf?_of_le {digits : String} (h : Text.decimalValue digits.toList ≤ maxInteger) :
    integerOf? digits = some (.ofNat (Text.decimalValue digits.toList)) := by
  simp [integerOf?, h]

theorem literal_sound {v : Term} (h : Yields literal (c.state scope) v s') :
    ∃ t c' raw, Reads c [t] c' ∧ Literal t raw ∧ v = raw.resolve scope ∧ s' = c'.state scope := by
  unfold literal at h
  rw [yields_bind] at h
  rcases h with ⟨t, s, advanced, h⟩
  obtain ⟨rfl, c', next, rfl⟩ := yields_advance.mp advanced
  have reads : c.current.kind.isLiteral = true → Reads c [c.current] c' := by
    intro kind
    refine .cons (fun ends => ?_) next .nil
    simp [ends, Token.Kind.isLiteral] at kind
  split at h
  · rename_i kind
    obtain ⟨rfl, rfl⟩ := yields_resolve.mp h
    exact ⟨_, c', _, reads (by rw [kind]; rfl), .name kind, rfl, rfl⟩
  · rename_i kind
    rw [integerOf?_of_le (c.proper.int kind)] at h
    obtain ⟨rfl, rfl⟩ := yields_pure.mp h
    exact ⟨_, c', _, reads (by rw [kind]; rfl), .int kind, rfl, rfl⟩
  · rename_i kind
    obtain ⟨rfl, rfl⟩ := yields_pure.mp h
    exact ⟨_, c', _, reads (by rw [kind]; rfl), .float kind, rfl, rfl⟩
  · rename_i kind
    obtain ⟨rfl, rfl⟩ := yields_pure.mp h
    exact ⟨_, c', _, reads (by rw [kind]; rfl), .string kind, rfl, rfl⟩
  · exact absurd h not_yields_throw

theorem literal_complete {t : Token} {raw : Term} (h : Reads c [t] c') (hv : Literal t raw) :
    Yields literal (c.state scope) (raw.resolve scope) (c'.state scope) := by
  obtain ⟨rfl, _, next⟩ := Reads.one_iff.mp h
  unfold literal
  refine yields_bind.mpr ⟨_, _, yields_advance.mpr ⟨rfl, c', next, rfl⟩, ?_⟩
  cases hv with
  | name kind =>
    rw [kind]
    exact yields_resolve.mpr ⟨rfl, rfl⟩
  | int kind =>
    rw [kind]
    simp only [integerOf?_of_le (c.proper.int kind)]
    exact yields_pure.mpr ⟨rfl, rfl⟩
  | float kind =>
    rw [kind]
    exact yields_pure.mpr ⟨rfl, rfl⟩
  | string kind =>
    rw [kind]
    exact yields_pure.mpr ⟨rfl, rfl⟩

/-! ## Operands -/

/-- Operands with their names resolved. -/
def operandPhrase : Phrase Node := fun scope ts n scope' => Operand scope ts n ∧ scope = scope'

/-- Chains with their names resolved. -/
def chainPhrase : Phrase Node := resolving (Chain 0) Node.resolve

theorem operand_sound {group : Parser Node} (hg : Sound group chainPhrase) :
    Sound (operand group) operandPhrase := by
  intro c scope n s' h
  unfold operand at h
  rw [yields_current] at h
  split at h
  · rename_i kind
    simp only [yields_bind, yields_pure] at h
    rcases h with ⟨l, s₁, hl, inner, s₂, hinner, r, s₃, hr, rfl, rfl⟩
    obtain ⟨c₁, readsL, rfl⟩ := (yields_advance_of_kind (by simp [kind])).mp hl
    obtain ⟨ts, c₂, _, readsTs, ⟨raw, chain, rfl, rfl⟩, rfl⟩ := hg hinner
    obtain ⟨c₃, readsR, kindR, rfl⟩ := (yields_expect (by simp)).mp hr
    refine ⟨l :: ts ++ [r], c₃, scope, ?_, ⟨.group ?_ chain kindR, rfl⟩, rfl⟩
    · exact (readsL.append readsTs).append readsR
    · rw [← readsL.current_eq]
      exact kind
  · split at h
    · simp only [yields_bind, yields_pure] at h
      rcases h with ⟨v, s₁, hv, rfl, rfl⟩
      obtain ⟨t, c', raw, reads, hraw, rfl, rfl⟩ := literal_sound hv
      exact ⟨[t], c', scope, reads, ⟨.literal hraw, rfl⟩, rfl⟩
    · exact absurd h not_yields_unexpected

theorem operand_complete {group : Parser Node} {limit : Nat} {n : Node}
    (hg : CompleteTo limit group chainPhrase) (short : ts.length ≤ limit + 1)
    (reads : Reads c ts c')
    (h : Operand scope ts n) : Yields (operand group) (c.state scope) n (c'.state scope) := by
  unfold operand
  rw [yields_current]
  cases h with
  | literal hv =>
    have kind := isLiteral_of_literal hv
    rw [reads.current_eq]
    split
    · rename_i paren
      simp [paren, Token.Kind.isLiteral] at kind
    · rw [if_pos kind]
      exact yields_bind.mpr ⟨_, _, literal_complete reads hv, yields_pure.mpr ⟨rfl, rfl⟩⟩
  | @group l r ts n kindL chain kindR =>
    obtain ⟨c₂, readsTs, readsR⟩ := Reads.append_iff.mp reads
    obtain ⟨c₁, readsL, readsTs⟩ := Reads.cons_iff.mp readsTs
    have inner : Yields group (c₁.state scope) (n.resolve scope) (c₂.state scope) := by
      refine hg ?_ readsTs ⟨n, chain, rfl, rfl⟩ (settled_of_reads readsR (by rw [kindR]; rfl))
      simp only [List.length_append, List.length_cons, List.length_nil] at short
      omega
    have kind : c.current.kind = .delimiter .leftParen := by rw [readsL.current_eq, kindL]
    simp only [kind, yields_bind, yields_pure]
    exact ⟨l, _, (yields_advance_of_kind (by simp [kind])).mpr ⟨c₁, readsL, rfl⟩, _, _, inner,
      r, _, (yields_expect (by simp)).mpr ⟨c', readsR, kindR, rfl⟩, rfl, rfl⟩

/-! ## Chains -/

theorem yields_binaryOperator {op : Operator} {p : Nat} (kind : c.current.kind = .operator op) :
    Yields (binaryOperator op) (c.state scope) p s' ↔
      ∃ t c', Reads c [t] c' ∧ op.precedence? = some p ∧ s' = c'.state scope := by
  unfold binaryOperator
  rw [yields_bind]
  constructor
  · intro h
    rcases h with ⟨t, s, advanced, h⟩
    obtain ⟨c', reads, rfl⟩ := (yields_advance_of_kind (by simp [kind])).mp advanced
    split at h
    · rename_i binds
      obtain ⟨rfl, rfl⟩ := yields_pure.mp h
      exact ⟨t, c', reads, binds, rfl⟩
    · exact absurd h not_yields_throw
  · intro h
    rcases h with ⟨t, c', reads, binds, rfl⟩
    refine ⟨t, _, (yields_advance_of_kind (by simp [kind])).mpr ⟨c', reads, rfl⟩, ?_⟩
    rw [binds]
    exact yields_pure.mpr ⟨rfl, rfl⟩

/-- Each round of the loop keeps the tree ordered and adds the tokens that it reads. -/
theorem chainFrom_sound {one : Parser Node} (hone : Sound one operandPhrase) {steps : Nat}
    {tree tree' : ChainTree} (h : Yields (chainFrom one steps tree) (c.state scope) tree' s')
    (spells : Spells (Operand scope) ts tree) (ordered : tree.Ordered 0) :
    ∃ us c', Reads c us c' ∧ Spells (Operand scope) (ts ++ us) tree' ∧ tree'.Ordered 0 ∧
      s' = c'.state scope := by
  induction steps generalizing c ts tree with
  | zero =>
    obtain ⟨rfl, rfl⟩ := yields_pure.mp h
    exact ⟨[], c, .nil, by simpa using spells, ordered, rfl⟩
  | succ steps ih =>
    unfold chainFrom at h
    rw [yields_current] at h
    split at h
    · rename_i op kind
      simp only [yields_bind] at h
      rcases h with ⟨p, s₁, hop, n, s₂, hn, h⟩
      obtain ⟨t, c₁, readsT, binds, rfl⟩ := (yields_binaryOperator kind).mp hop
      obtain ⟨us, c₂, _, readsUs, ⟨hus, rfl⟩, rfl⟩ := hone hn
      have kindT : t.kind = .operator op := by rw [← readsT.current_eq, kind]
      obtain ⟨vs, c', readsVs, spells', ordered', rfl⟩ :=
        ih h (spells.attach p kindT hus) (ordered.attach n binds (Nat.zero_le _))
      refine ⟨t :: us ++ vs, c', (readsT.append readsUs).append readsVs, ?_, ordered', rfl⟩
      simpa using spells'
    · obtain ⟨rfl, rfl⟩ := yields_pure.mp h
      exact ⟨[], c, .nil, by simpa using spells, ordered, rfl⟩

theorem chainFrom_complete {one : Parser Node} {limit : Nat}
    (hone : ∀ {c c' : Cursor} {ts : List Token} {n : Node}, ts.length ≤ limit → Reads c ts c' →
      Operand scope ts n → Yields one (c.state scope) n (c'.state scope))
    {xs : List Link} {steps : Nat} (h : SpellsLinks (Operand scope) ts xs) (reads : Reads c ts c')
    (settled : c'.Settled) (enough : xs.length ≤ steps) (short : ts.length ≤ limit)
    (tree : ChainTree) :
    Yields (chainFrom one steps tree) (c.state scope) (xs.foldl link tree) (c'.state scope) := by
  induction h generalizing c steps tree with
  | nil =>
    obtain rfl := Reads.nil_iff.mp reads
    cases steps with
    | zero => rfl
    | succ steps =>
      unfold chainFrom
      rw [yields_current]
      split
      · rename_i op kind
        simp [Cursor.Settled, kind, Token.Kind.isOperator] at settled
      · rfl
  | @cons us vs t op p n xs kind binds hn rest ih =>
    cases steps with
    | zero => simp at enough
    | succ steps =>
      obtain ⟨c₁, readsT, reads⟩ := Reads.cons_iff.mp reads
      obtain ⟨c₂, readsUs, readsVs⟩ := Reads.append_iff.mp reads
      have here : c.current.kind = .operator op := by rw [readsT.current_eq, kind]
      simp only [List.length_cons, List.length_append] at enough short
      unfold chainFrom
      rw [yields_current]
      simp only [here, yields_bind]
      exact ⟨p, _, (yields_binaryOperator here).mpr ⟨t, c₁, readsT, binds, rfl⟩, n, _,
        hone (by omega) readsUs hn, ih readsVs (by omega) (by omega) _⟩

theorem chainWithin_sound (steps : Nat) : Sound (chainWithin steps) chainPhrase := by
  induction steps with
  | zero =>
    intro c scope n s' h
    exact absurd h not_yields_unexpected
  | succ steps ih =>
    intro c scope n s' h
    unfold chainWithin at h
    simp only [yields_bind, yields_pure] at h
    rcases h with ⟨first, s₁, hfirst, tree, s₂, htree, rfl, rfl⟩
    obtain ⟨ts, c₁, _, reads, ⟨hts, rfl⟩, rfl⟩ := operand_sound ih hfirst
    obtain ⟨us, c', reads', spells, ordered, rfl⟩ :=
      chainFrom_sound (operand_sound ih) htree (.leaf hts) trivial
    obtain ⟨raw, chain, same⟩ := chain_of_spells spells ordered
    exact ⟨ts ++ us, c', _, reads.append reads', ⟨raw, chain, same.symm, rfl⟩, rfl⟩

/-- Every nesting and every operator takes a token, so as many steps as tokens are enough. -/
theorem chainWithin_complete (steps : Nat) : CompleteTo steps (chainWithin steps) chainPhrase := by
  induction steps with
  | zero =>
    rintro c c' scope _ ts n short reads ⟨raw, chain, -, -⟩ -
    exact absurd (List.eq_nil_of_length_eq_zero (by omega)) chain.ne_nil
  | succ steps ih =>
    rintro c c' scope _ ts n short reads ⟨raw, chain, rfl, rfl⟩ settled
    obtain ⟨tree, spells, ordered, same⟩ := spells_of_chain _ chain
    obtain ⟨us, vs, rfl, hus, hvs⟩ := spells.split ordered
    obtain ⟨c₁, readsUs, readsVs⟩ := Reads.append_iff.mp reads
    have one := List.length_pos_iff.mpr (operand_ne_nil hus)
    have few := length_links_le hvs
    rw [List.length_append] at short
    unfold chainWithin
    simp only [yields_bind, yields_pure]
    refine ⟨tree.first, _, operand_complete ih (by omega) readsUs hus, tree, _, ?_, same.symm, rfl⟩
    have enough : tree.links.length ≤ steps := by omega
    have run := chainFrom_complete (operand_complete ih) hvs readsVs settled enough (by omega)
      (.leaf tree.first)
    rwa [ordered.foldl_link] at run

theorem chain_sound : Sound chain chainPhrase := by
  intro c scope n s' h
  unfold chain at h
  rw [yields_bound] at h
  exact chainWithin_sound _ h

theorem chain_complete : Complete chain chainPhrase := by
  intro limit c c' scope scope' ts n _ reads h settled
  have short := reads.length_le_size
  have bound := c.size_lt_bound scope
  unfold chain
  rw [yields_bound]
  exact chainWithin_complete _ (by omega) reads h settled

/-! ## Invocations -/

/-- Each argument and each comma is read, so the count is not used up before the arguments are. -/
theorem argumentsFrom_sound {steps : Nat} {before args : List Node} (enough : c.size < steps)
    (h : Yields (argumentsFrom steps before) (c.state scope) args s') :
    ∃ ts c' raws, Reads c ts c' ∧ Separated (Chain 0) ts raws ∧
      args = before ++ raws.map (Node.resolve scope) ∧ s' = c'.state scope := by
  induction steps generalizing c before with
  | zero => omega
  | succ steps ih =>
    unfold argumentsFrom at h
    rw [yields_bind] at h
    rcases h with ⟨n, s₁, hn, h⟩
    obtain ⟨ts, c₁, _, reads, ⟨raw, chain, rfl, rfl⟩, rfl⟩ := chain_sound hn
    rw [yields_current] at h
    split at h
    · rename_i kind
      rw [yields_bind] at h
      rcases h with ⟨comma, s₂, hcomma, h⟩
      obtain ⟨c₂, readsComma, rfl⟩ := (yields_advance_of_kind (by simp [kind])).mp hcomma
      have smaller := (reads.append readsComma).length_add_size
      rw [List.length_append, List.length_singleton] at smaller
      obtain ⟨us, c', raws, reads', separated, rfl, rfl⟩ := ih (by omega) h
      refine ⟨ts ++ comma :: us, c', raw :: raws, ?_, .more chain ?_ separated, by simp, rfl⟩
      · rw [← List.singleton_append, ← List.append_assoc]
        exact (reads.append readsComma).append reads'
      · rw [← readsComma.current_eq, kind]
    · obtain ⟨rfl, rfl⟩ := yields_pure.mp h
      exact ⟨ts, c₁, [raw], reads, .one chain, by simp, rfl⟩

theorem argumentsFrom_complete {steps : Nat} {raws : List Node} (before : List Node)
    (h : Separated (Chain 0) ts raws) (reads : Reads c ts c') (settled : c'.Settled)
    (last : c'.current.kind ≠ .delimiter .comma) (enough : raws.length ≤ steps) :
    Yields (argumentsFrom steps before) (c.state scope) (before ++ raws.map (Node.resolve scope))
      (c'.state scope) := by
  induction h generalizing c steps before with
  | @one ts raw chain =>
    cases steps with
    | zero => simp at enough
    | succ steps =>
      unfold argumentsFrom
      rw [yields_bind]
      refine ⟨_, _, chain_complete _ (Nat.le_refl _) reads ⟨raw, chain, rfl, rfl⟩ settled, ?_⟩
      rw [yields_current, if_neg last]
      exact yields_pure.mpr ⟨by simp, rfl⟩
  | @more ts us comma raw raws chain kind separated ih =>
    cases steps with
    | zero => simp at enough
    | succ steps =>
      obtain ⟨c₁, readsTs, rest⟩ := Reads.append_iff.mp reads
      obtain ⟨c₂, readsComma, readsUs⟩ := Reads.cons_iff.mp rest
      have here : c₁.current.kind = .delimiter .comma := by rw [readsComma.current_eq, kind]
      have stop : c₁.Settled := by
        rw [Cursor.Settled, here]
        rfl
      unfold argumentsFrom
      rw [yields_bind]
      refine ⟨_, _, chain_complete _ (Nat.le_refl _) readsTs ⟨raw, chain, rfl, rfl⟩ stop, ?_⟩
      rw [yields_current, if_pos here, yields_bind]
      refine ⟨comma, _, (yields_advance_of_kind (by simp [here])).mpr ⟨c₂, readsComma, rfl⟩, ?_⟩
      have run := ih (before ++ [raw.resolve scope]) readsUs (by simpa using enough)
      simpa using run

/-- An invocation reads the tokens of an invocation, whatever follows. -/
theorem yields_invocation {e : Expr} :
    Yields invocation (c.state scope) e s' ↔
      ∃ ts c' raw, Reads c ts c' ∧ Invocation ts raw ∧ e = raw.resolve scope ∧
        s' = c'.state scope := by
  unfold invocation
  rw [yields_bind]
  constructor
  · intro h
    rcases h with ⟨x, s₁, hf, h⟩
    rw [yields_bind] at h
    rcases h with ⟨l, s₂, hl, h⟩
    obtain ⟨f, c₁, readsF, kindF, rfl, rfl⟩ := yields_identifier.mp hf
    obtain ⟨c₂, readsL, kindL, rfl⟩ := (yields_expect (by simp)).mp hl
    have head : Reads c [f, l] c₂ := readsF.append readsL
    rw [yields_current] at h
    split at h
    · simp only [yields_bind, yields_pure] at h
      rcases h with ⟨_, _, ⟨rfl, rfl⟩, r, _, hr, rfl, rfl⟩
      obtain ⟨c', readsR, kindR, rfl⟩ := (yields_expect (by simp)).mp hr
      exact ⟨[f, l, r], c', _, head.append readsR, .none kindF kindL kindR, rfl, rfl⟩
    · rw [yields_bound] at h
      simp only [yields_bind, yields_pure] at h
      rcases h with ⟨args, s₃, hargs, r, s₄, hr, rfl, rfl⟩
      obtain ⟨ts, c₃, raws, reads, separated, rfl, rfl⟩ :=
        argumentsFrom_sound (c₂.size_lt_bound scope) hargs
      obtain ⟨c', readsR, kindR, rfl⟩ := (yields_expect (by simp)).mp hr
      refine ⟨f :: l :: ts ++ [r], c', _, (head.append reads).append readsR,
        .some kindF kindL separated kindR, ?_, rfl⟩
      simp [Expr.resolve, Node.resolveAll_eq_map]
  · intro h
    rcases h with ⟨ts, c', raw, reads, h, rfl, rfl⟩
    cases h with
    | @none f l r kindF kindL kindR =>
      obtain ⟨c₁, readsF, reads⟩ := Reads.cons_iff.mp reads
      obtain ⟨c₂, readsL, readsR⟩ := Reads.cons_iff.mp reads
      refine ⟨_, _, yields_identifier.mpr ⟨f, c₁, readsF, kindF, rfl, rfl⟩, ?_⟩
      rw [yields_bind]
      refine ⟨l, _, (yields_expect (by simp)).mpr ⟨c₂, readsL, kindL, rfl⟩, ?_⟩
      rw [yields_current, if_pos (by rw [readsR.current_eq, kindR])]
      simp only [yields_bind, yields_pure]
      exact ⟨_, _, ⟨rfl, rfl⟩, r, _, (yields_expect (by simp)).mpr ⟨c', readsR, kindR, rfl⟩, rfl, rfl⟩
    | @some f l r ts args kindF kindL separated kindR =>
      obtain ⟨c₃, reads, readsR⟩ := Reads.append_iff.mp reads
      obtain ⟨c₁, readsF, reads⟩ := Reads.cons_iff.mp reads
      obtain ⟨c₂, readsL, reads⟩ := Reads.cons_iff.mp reads
      have last : c₃.current.kind = .delimiter .rightParen := by rw [readsR.current_eq, kindR]
      refine ⟨_, _, yields_identifier.mpr ⟨f, c₁, readsF, kindF, rfl, rfl⟩, ?_⟩
      rw [yields_bind]
      refine ⟨l, _, (yields_expect (by simp)).mpr ⟨c₂, readsL, kindL, rfl⟩, ?_⟩
      obtain ⟨t, rest, rfl, other⟩ :=
        separated_starts (chain_starts_ne .rightParen (by decide)) separated
      rw [yields_current, reads.current_eq, if_neg other, yields_bound]
      simp only [yields_bind, yields_pure]
      have short := (reads.append readsR).length_le_size
      have few := length_separated_le separated
      have bound := c₂.size_lt_bound scope
      rw [List.length_append, List.length_singleton] at short
      refine ⟨_, _, argumentsFrom_complete [] separated reads
        (settled_of_reads readsR (by rw [kindR]; rfl)) (by simp [last]) (by omega),
        r, _, (yields_expect (by simp)).mpr ⟨c', readsR, kindR, rfl⟩, ?_, rfl⟩
      simp [Expr.resolve, Node.resolveAll_eq_map]

/-! ## Expressions -/

theorem yields_peek {t : Token} :
    Yields peek (c.state scope) t s' ↔ ∃ c', c.Next c' ∧ t = c'.current ∧ s' = c.state scope := by
  unfold Yields peek
  constructor
  · intro h
    simp only [Cursor.state] at h
    split at h
    · rename_i u ahead next
      obtain ⟨c', rfl, rfl⟩ := Cursor.exists_starts c.properAhead next
      cases h
      exact ⟨c', next, rfl, rfl⟩
    · cases h
  · intro h
    rcases h with ⟨c', next, rfl, rfl⟩
    have next : c.ahead.next = (.ok c'.current, c'.ahead) := next
    simp [Cursor.state, next]

/-- Looking ahead leaves the state as it is. -/
theorem atInvocation_state {b : Bool} (h : Yields atInvocation (c.state scope) b s') :
    s' = c.state scope := by
  unfold atInvocation at h
  rw [yields_current] at h
  split at h
  · rw [yields_bind] at h
    rcases h with ⟨t, s₁, peeked, h⟩
    obtain ⟨_, _, _, rfl⟩ := yields_peek.mp peeked
    exact (yields_pure.mp h).2
  · exact (yields_pure.mp h).2

theorem atInvocation_of_invocation {raw : Expr} (h : Invocation ts raw) (reads : Reads c ts c') :
    Yields atInvocation (c.state scope) true (c.state scope) := by
  have starts : ∃ f l rest, ts = f :: l :: rest ∧ f.kind = .identifier ∧
      l.kind = .delimiter .leftParen := by
    cases h with
    | none kindF kindL _ => exact ⟨_, _, _, rfl, kindF, kindL⟩
    | some kindF kindL _ _ => exact ⟨_, _, _, rfl, kindF, kindL⟩
  rcases starts with ⟨f, l, rest, rfl, kindF, kindL⟩
  obtain ⟨c₁, readsF, reads'⟩ := Reads.cons_iff.mp reads
  obtain ⟨rfl, _, next⟩ := Reads.one_iff.mp readsF
  unfold atInvocation
  rw [yields_current, if_pos kindF, yields_bind]
  refine ⟨_, _, yields_peek.mpr ⟨c₁, next, rfl, rfl⟩, yields_pure.mpr ⟨?_, rfl⟩⟩
  simp [reads'.current_eq, kindL]

/-- No invocation starts where a chain with an operator does. -/
theorem atInvocation_of_chain {functor : String} {args : List Node}
    (h : Chain 0 ts (.app functor args))
    (reads : Reads c ts c') : Yields atInvocation (c.state scope) false (c.state scope) := by
  obtain ⟨t, rest, rfl, _⟩ := chain_starts h
  obtain ⟨c₁, readsT, reads'⟩ := Reads.cons_iff.mp reads
  obtain ⟨rfl, _, next⟩ := Reads.one_iff.mp readsT
  unfold atInvocation
  rw [yields_current]
  split
  · rename_i kind
    rcases chain_second h (by rw [kind]; rfl) with ⟨_, v, same⟩ | ⟨u, us, rfl, operator⟩
    · cases same
    · rw [yields_bind]
      refine ⟨_, _, yields_peek.mpr ⟨c₁, next, rfl, rfl⟩, yields_pure.mpr ⟨?_, rfl⟩⟩
      have notParen : u.kind ≠ .delimiter .leftParen := by
        intro paren
        simp [paren, Token.Kind.isOperator] at operator
      simp [reads'.current_eq, notParen]
  · exact yields_pure.mpr ⟨rfl, rfl⟩

/-- Expressions with their names resolved. -/
def expressionPhrase : Phrase Expr := resolving Expression Expr.resolve

theorem expression_sound : Sound expression expressionPhrase := by
  intro c scope e s' h
  unfold expression at h
  rw [yields_bind] at h
  rcases h with ⟨b, s₁, ahead, h⟩
  obtain rfl := atInvocation_state ahead
  split at h
  · obtain ⟨ts, c', raw, reads, invocation, rfl, rfl⟩ := yields_invocation.mp h
    exact ⟨ts, c', scope, reads, ⟨raw, .invocation invocation, rfl, rfl⟩, rfl⟩
  · rw [yields_bind] at h
    rcases h with ⟨n, s₂, hn, h⟩
    obtain ⟨ts, c', _, reads, ⟨raw, chain, rfl, rfl⟩, rfl⟩ := chain_sound hn
    cases raw with
    | term v => exact absurd h not_yields_unexpected
    | app functor args =>
      obtain ⟨rfl, rfl⟩ := yields_pure.mp h
      exact ⟨ts, c', scope, reads, ⟨⟨functor, args⟩, .chain chain, rfl, rfl⟩, rfl⟩

theorem expression_complete : Complete expression expressionPhrase := by
  rintro limit c c' scope _ ts e short reads ⟨raw, h, rfl, rfl⟩ settled
  unfold expression
  rw [yields_bind]
  cases h with
  | invocation h =>
    refine ⟨true, _, atInvocation_of_invocation h reads, ?_⟩
    exact yields_invocation.mpr ⟨ts, c', raw, reads, h, rfl, rfl⟩
  | chain h =>
    refine ⟨false, _, atInvocation_of_chain h reads, ?_⟩
    rw [if_neg (by simp), yields_bind]
    exact ⟨_, _, chain_complete limit short reads ⟨_, h, rfl, rfl⟩ settled, rfl⟩

end Rulebook.Parser
