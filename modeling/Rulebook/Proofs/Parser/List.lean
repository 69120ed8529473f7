import Rulebook.Proofs.Parser.Expr

/-!
# Braced lists are parsed by their grammar

One statement for all lists of the language. An item is a phrase together with what it does: it may
look at the items before it, it may enter a variable into the scope, and it may be refused. `Action`
says what it does, and `ActAll` what the items of a list do one after the other.
-/

namespace Rulebook.Parser

open Grammar

variable {α β : Type}

/-- What an item does: from the items before it, the scope and what is written, to the item and the
scope after it. -/
abbrev Action (α β : Type) :=
  List α → Table FieldType → β → α → Table FieldType → Prop

/-- What items do one after the other; all items, those before included, are the result. -/
def ActAll (act : Action α β) :
    List α → Table FieldType → List β → List α → Table FieldType → Prop
  | before, scope, [], as, scope' => as = before ∧ scope' = scope
  | before, scope, b :: bs, as, scope' =>
    ∃ a scope₁, act before scope b a scope₁ ∧ ActAll act (before ++ [a]) scope₁ bs as scope'

/-- The phrases of a grammar with what they do. -/
def acting (grammar : List Token → β → Prop) (act : Action α β) (before : List α) : Phrase α :=
  fun scope ts a scope' => ∃ b, grammar ts b ∧ act before scope b a scope'

/-- A parser of items that reads exactly their phrases. -/
structure Items (item : List α → Parser α) (grammar : List Token → β → Prop) (act : Action α β) :
    Prop where
  sound : ∀ before, Sound (item before) (acting grammar act before)
  complete : ∀ before, Complete (item before) (acting grammar act before)
  starts : ∀ {ts : List Token} {b : β}, grammar ts b →
    ∃ t rest, ts = t :: rest ∧ t.kind ≠ .delimiter .rightBrace

variable {c c' : Cursor} {scope scope' : Table FieldType} {s' : State} {ts : List Token}
variable {item : List α → Parser α} {grammar : List Token → β → Prop} {act : Action α β}

theorem itemsFrom_sound (items : Items item grammar act) {steps : Nat} {before as : List α}
    (h : Yields (itemsFrom item steps before) (c.state scope) as s') :
    ∃ ts r c' bs scope', Reads c (ts ++ [r]) c' ∧ Separated grammar ts bs ∧
      r.kind = .delimiter .rightBrace ∧ ActAll act before scope bs as scope' ∧
      s' = c'.state scope' := by
  induction steps generalizing c scope before with
  | zero => exact absurd h not_yields_unexpected
  | succ steps ih =>
    unfold itemsFrom at h
    rw [yields_bind] at h
    rcases h with ⟨a, s₁, ha, h⟩
    obtain ⟨ts, c₁, scope₁, reads, ⟨b, hb, acts⟩, rfl⟩ := items.sound before ha
    rw [yields_current] at h
    split at h
    · rename_i kind
      rw [yields_bind] at h
      rcases h with ⟨comma, s₂, hcomma, h⟩
      obtain ⟨c₂, readsComma, rfl⟩ := (yields_advance_of_kind (by simp [kind])).mp hcomma
      have kindComma : comma.kind = .delimiter .comma := by rw [← readsComma.current_eq, kind]
      obtain ⟨us, r, c', bs, scope', reads', separated, kindR, actAll, rfl⟩ := ih h
      refine ⟨ts ++ comma :: us, r, c', b :: bs, scope', ?_, .more hb kindComma separated, kindR,
        ⟨a, scope₁, acts, actAll⟩, rfl⟩
      rw [List.append_assoc, List.cons_append, ← List.singleton_append, ← List.append_assoc]
      exact (reads.append readsComma).append reads'
    · rename_i kind
      rw [yields_bind] at h
      rcases h with ⟨r, s₂, hr, h⟩
      obtain ⟨c', readsR, rfl⟩ := (yields_advance_of_kind (by simp [kind])).mp hr
      obtain ⟨rfl, rfl⟩ := yields_pure.mp h
      have kindR : r.kind = .delimiter .rightBrace := by rw [← readsR.current_eq, kind]
      exact ⟨ts, r, c', [b], scope₁, reads.append readsR, .one hb, kindR,
        ⟨a, scope₁, acts, rfl, rfl⟩, rfl⟩
    · exact absurd h not_yields_unexpected

theorem itemsFrom_complete (items : Items item grammar act) {steps : Nat} {before as : List α}
    {bs : List β} {r : Token} (h : Separated grammar ts bs) (reads : Reads c (ts ++ [r]) c')
    (kindR : r.kind = .delimiter .rightBrace) (acts : ActAll act before scope bs as scope')
    (enough : bs.length ≤ steps) :
    Yields (itemsFrom item steps before) (c.state scope) as (c'.state scope') := by
  induction h generalizing c scope before steps with
  | @one ts b hb =>
    cases steps with
    | zero => simp at enough
    | succ steps =>
      rcases acts with ⟨a, scope₁, act₁, rfl, rfl⟩
      obtain ⟨c₁, readsTs, readsR⟩ := Reads.append_iff.mp reads
      have here : c₁.current.kind = .delimiter .rightBrace := by rw [readsR.current_eq, kindR]
      have settled := settled_of_reads readsR (by rw [kindR]; rfl)
      unfold itemsFrom
      rw [yields_bind]
      refine ⟨a, _, items.complete before _ (Nat.le_refl _) readsTs ⟨b, hb, act₁⟩ settled, ?_⟩
      rw [yields_current]
      simp only [here]
      rw [yields_bind]
      exact ⟨r, _, (yields_advance_of_kind (by simp [here])).mpr ⟨c', readsR, rfl⟩,
        yields_pure.mpr ⟨rfl, rfl⟩⟩
  | @more ts us comma b bs hb kind separated ih =>
    cases steps with
    | zero => simp at enough
    | succ steps =>
      rcases acts with ⟨a, scope₁, act₁, acts⟩
      rw [List.append_assoc, List.cons_append] at reads
      obtain ⟨c₁, readsTs, rest⟩ := Reads.append_iff.mp reads
      obtain ⟨c₂, readsComma, readsUs⟩ := Reads.cons_iff.mp rest
      have here : c₁.current.kind = .delimiter .comma := by rw [readsComma.current_eq, kind]
      have settled := settled_of_reads readsComma (by rw [kind]; rfl)
      unfold itemsFrom
      rw [yields_bind]
      refine ⟨a, _, items.complete before _ (Nat.le_refl _) readsTs ⟨b, hb, act₁⟩ settled, ?_⟩
      rw [yields_current]
      simp only [here, yields_bind]
      exact ⟨comma, _, (yields_advance_of_kind (by simp [here])).mpr ⟨c₂, readsComma, rfl⟩,
        ih readsUs acts (by simpa using enough)⟩

/-- The count with which a list starts is enough for all its items. -/
theorem yields_items (items : Items item grammar act) {as : List α} :
    Yields (itemsFrom item (c.state scope).bound []) (c.state scope) as s' ↔
      ∃ ts r c' bs scope', Reads c (ts ++ [r]) c' ∧ Separated grammar ts bs ∧
        r.kind = .delimiter .rightBrace ∧ ActAll act [] scope bs as scope' ∧
        s' = c'.state scope' := by
  constructor
  · exact itemsFrom_sound items
  · intro h
    rcases h with ⟨ts, r, c', bs, scope', reads, separated, kindR, acts, rfl⟩
    have short := reads.length_le_size
    have few := length_separated_le separated
    have bound := c.size_lt_bound scope
    rw [List.length_append, List.length_singleton] at short
    exact itemsFrom_complete items separated reads kindR acts (by omega)

theorem yields_bracedSome (items : Items item grammar act) {as : List α} :
    Yields (bracedSome item) (c.state scope) as s' ↔
      ∃ ts c' bs scope', Reads c ts c' ∧ Braced grammar ts bs ∧ ActAll act [] scope bs as scope' ∧
        s' = c'.state scope' := by
  unfold bracedSome
  rw [yields_bind]
  constructor
  · intro h
    rcases h with ⟨l, s₁, hl, h⟩
    obtain ⟨c₁, readsL, kindL, rfl⟩ := (yields_expect (by simp)).mp hl
    rw [yields_bound] at h
    obtain ⟨ts, r, c', bs, scope', reads, separated, kindR, acts, rfl⟩ := (yields_items items).mp h
    exact ⟨l :: ts ++ [r], c', bs, scope', readsL.append reads, .mk kindL separated kindR, acts, rfl⟩
  · intro h
    rcases h with ⟨_, c', bs, scope', reads, ⟨kindL, separated, kindR⟩, acts, rfl⟩
    obtain ⟨c₁, readsL, reads⟩ := Reads.cons_iff.mp reads
    refine ⟨_, _, (yields_expect (by simp)).mpr ⟨c₁, readsL, kindL, rfl⟩, ?_⟩
    rw [yields_bound]
    exact (yields_items items).mpr ⟨_, _, c', bs, scope', reads, separated, kindR, acts, rfl⟩

theorem yields_bracedMany (items : Items item grammar act) {as : List α} :
    Yields (bracedMany item) (c.state scope) as s' ↔
      ∃ ts c' bs scope', Reads c ts c' ∧ BracedAny grammar ts bs ∧
        ActAll act [] scope bs as scope' ∧ s' = c'.state scope' := by
  unfold bracedMany
  rw [yields_bind]
  constructor
  · intro h
    rcases h with ⟨l, s₁, hl, h⟩
    obtain ⟨c₁, readsL, kindL, rfl⟩ := (yields_expect (by simp)).mp hl
    rw [yields_current] at h
    split at h
    · rename_i kind
      simp only [yields_bind, yields_pure] at h
      rcases h with ⟨r, s₂, hr, rfl, rfl⟩
      obtain ⟨c', readsR, rfl⟩ := (yields_advance_of_kind (by simp [kind])).mp hr
      have kindR : r.kind = .delimiter .rightBrace := by rw [← readsR.current_eq, kind]
      exact ⟨[l, r], c', [], scope, readsL.append readsR, .none kindL kindR, ⟨rfl, rfl⟩, rfl⟩
    · rw [yields_bound] at h
      obtain ⟨ts, r, c', bs, scope', reads, separated, kindR, acts, rfl⟩ :=
        (yields_items items).mp h
      exact ⟨l :: ts ++ [r], c', bs, scope', readsL.append reads,
        .some (.mk kindL separated kindR), acts, rfl⟩
  · intro h
    rcases h with ⟨_, c', bs, scope', reads, h, acts, rfl⟩
    cases h with
    | @none l r kindL kindR =>
      obtain ⟨c₁, readsL, readsR⟩ := Reads.cons_iff.mp reads
      rcases acts with ⟨rfl, rfl⟩
      have kind : c₁.current.kind = .delimiter .rightBrace := by rw [readsR.current_eq, kindR]
      refine ⟨l, _, (yields_expect (by simp)).mpr ⟨c₁, readsL, kindL, rfl⟩, ?_⟩
      rw [yields_current, if_pos kind]
      rw [yields_bind]
      exact ⟨r, _, (yields_advance_of_kind (by simp [kind])).mpr ⟨c', readsR, rfl⟩,
        yields_pure.mpr ⟨rfl, rfl⟩⟩
    | some h =>
      rcases h with ⟨kindL, separated, kindR⟩
      obtain ⟨c₁, readsL, reads⟩ := Reads.cons_iff.mp reads
      refine ⟨_, _, (yields_expect (by simp)).mpr ⟨c₁, readsL, kindL, rfl⟩, ?_⟩
      obtain ⟨t, rest, rfl, other⟩ := separated_starts items.starts separated
      rw [yields_current, reads.current_eq, if_neg other, yields_bound]
      exact (yields_items items).mpr ⟨_, _, c', bs, scope', reads, separated, kindR, acts, rfl⟩

end Rulebook.Parser
