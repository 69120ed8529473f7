import Rulebook.Proofs.Parser.Document
import Rulebook.Proofs.Parser.Head

/-!
# Loops end by themselves

The loops of the parser count down, and so does the nesting of groups in parentheses. The counts only
serve to define the functions: they are never used up. `Loop` takes a loop apart into its round and
what it does when the count is used up. Each round that goes on has read tokens, so that the parser
holds less after it, and every count above what it holds gives the same run, whatever is done when a
count is used up.
-/

namespace Rulebook.Parser

open Grammar

variable {α β : Type}

/-! ## Rounds -/

/-- A loop that counts down. -/
structure Loop (α β : Type) where
  /-- One round: go on with a new value, or end with a result. -/
  round : α → Parser (α ⊕ β)
  /-- What is done when the count is used up. -/
  spent : α → Parser β

def Loop.run (l : Loop α β) : Nat → α → Parser β
  | 0, a => l.spent a
  | n + 1, a => do
    match ← l.round a with
    | .inl a' => l.run n a'
    | .inr b => return b

/-- One declaration, unless the text ends. -/
def declarationRound (document : Document) : Parser (Document ⊕ Document) := do
  let first ← current
  if first.kind = .endOfInput then
    return .inr document
  else
    let d ← declaration
    if document.declares d then
      throw (.duplicate d.kind d.name first.position)
    return .inl (document.add d)

/-- One item and what follows it, a comma or the closing brace. -/
def itemRound (item : List α → Parser α) (before : List α) : Parser (List α ⊕ List α) := do
  let items := before ++ [← item before]
  match (← current).kind with
  | .delimiter .comma => do
    let _ ← advance
    return .inl items
  | .delimiter .rightBrace => do
    let _ ← advance
    return .inr items
  | _ => unexpected .separator

/-- One argument, and the comma after it if there is one. -/
def argumentRound (before : List Node) : Parser (List Node ⊕ List Node) := do
  let args := before ++ [← chain]
  if (← current).kind = .delimiter .comma then
    let _ ← advance
    return .inl args
  else
    return .inr args

/-- An operator and the operand after it, unless no operator follows. -/
def operatorRound (operand : Parser Node) (tree : ChainTree) : Parser (ChainTree ⊕ ChainTree) := do
  match (← current).kind with
  | .operator op => do
    let precedence ← binaryOperator op
    let node ← operand
    return .inl (tree.attach op precedence node)
  | _ => return .inr tree

def declarationLoop : Loop Document Document := ⟨declarationRound, fun _ => unexpected .declaration⟩

def itemLoop (item : List α → Parser α) : Loop (List α) (List α) :=
  ⟨itemRound item, fun _ => unexpected .separator⟩

def argumentLoop : Loop (List Node) (List Node) := ⟨argumentRound, pure⟩

def operatorLoop (operand : Parser Node) : Loop ChainTree ChainTree := ⟨operatorRound operand, pure⟩

theorem declarationsFrom_eq_run (n : Nat) (document : Document) :
    declarationsFrom n document = declarationLoop.run n document := by
  induction n generalizing document with
  | zero => rfl
  | succ n ih =>
    rw [declarationsFrom, Loop.run]
    change _ = declarationRound document >>= _
    rw [declarationRound, bind_assoc]
    refine bind_congr fun first => ?_
    split
    · rw [pure_bind]
    · rw [bind_assoc]
      refine bind_congr fun d => ?_
      dsimp only
      split
      · rfl
      · rw [pure_bind]
        exact ih _

theorem itemsFrom_eq_run (item : List α → Parser α) (n : Nat) (before : List α) :
    itemsFrom item n before = (itemLoop item).run n before := by
  induction n generalizing before with
  | zero => rfl
  | succ n ih =>
    rw [itemsFrom, Loop.run]
    change _ = itemRound item before >>= _
    rw [itemRound, bind_assoc]
    refine bind_congr fun a => ?_
    rw [bind_assoc]
    refine bind_congr fun t => ?_
    cases t.kind with
    | delimiter mark =>
      cases mark with
      | comma =>
        dsimp only
        rw [bind_assoc]
        refine bind_congr fun _ => ?_
        rw [pure_bind]
        exact ih _
      | rightBrace =>
        dsimp only
        rw [bind_assoc]
        rfl
      | _ => rfl
    | _ => rfl

theorem argumentsFrom_eq_run (n : Nat) (before : List Node) :
    argumentsFrom n before = argumentLoop.run n before := by
  induction n generalizing before with
  | zero => rfl
  | succ n ih =>
    rw [argumentsFrom, Loop.run]
    change _ = argumentRound before >>= _
    rw [argumentRound, bind_assoc]
    refine bind_congr fun a => ?_
    rw [bind_assoc]
    refine bind_congr fun t => ?_
    split
    · rw [bind_assoc]
      refine bind_congr fun _ => ?_
      rw [pure_bind]
      exact ih _
    · rw [pure_bind]

theorem chainFrom_eq_run (one : Parser Node) (n : Nat) (tree : ChainTree) :
    chainFrom one n tree = (operatorLoop one).run n tree := by
  induction n generalizing tree with
  | zero => rfl
  | succ n ih =>
    rw [chainFrom, Loop.run]
    change _ = operatorRound one tree >>= _
    rw [operatorRound, bind_assoc]
    refine bind_congr fun t => ?_
    cases t.kind with
    | operator op =>
      dsimp only
      rw [bind_assoc]
      refine bind_congr fun p => ?_
      rw [bind_assoc]
      refine bind_congr fun node => ?_
      rw [pure_bind]
      exact ih _
    | _ => rfl

/-! ## Every round that goes on reads tokens -/

/-- Where the round goes on, it has read tokens. -/
def Loop.Consumes (l : Loop α β) : Prop :=
  ∀ ⦃a a' : α⦄ ⦃c : Cursor⦄ ⦃scope : Table FieldType⦄ ⦃s' : State⦄,
    Yields (l.round a) (c.state scope) (.inl a') s' →
      ∃ ts c' scope', ts ≠ [] ∧ Reads c ts c' ∧ s' = c'.state scope'

theorem declarationLoop_consumes : declarationLoop.Consumes := by
  intro document document' c scope s' h
  have h : Yields (declarationRound document) (c.state scope) (.inl document') s' := h
  unfold declarationRound at h
  rw [yields_current] at h
  split at h
  · cases (yields_pure.mp h).1
  · rw [yields_bind] at h
    rcases h with ⟨d, _, hd, h⟩
    dsimp only at h
    rw [yields_unless, yields_pure] at h
    rcases h with ⟨_, _, rfl⟩
    obtain ⟨ts, c', w, reads, declares, _, _, rfl⟩ := yields_declaration.mp hd
    exact ⟨ts, c', _, declares_ne_nil declares, reads, rfl⟩

/-- Moving over the current token reads it. -/
theorem reads_of_advance_bind {c : Cursor} {scope : Table FieldType} {a b : α} {s' : State}
    (more : c.current.kind ≠ .endOfInput)
    (h : Yields (do let _ ← advance; return a) (c.state scope) b s') :
    ∃ t c', Reads c [t] c' ∧ s' = c'.state scope := by
  simp only [yields_bind, yields_pure] at h
  rcases h with ⟨t, _, advanced, _, rfl⟩
  obtain ⟨c', reads, rfl⟩ := (yields_advance_of_kind more).mp advanced
  exact ⟨t, c', reads, rfl⟩

theorem itemLoop_consumes {item : List α → Parser α} {grammar : List Token → β → Prop}
    {act : Action α β} (items : Items item grammar act) : (itemLoop item).Consumes := by
  intro before before' c scope s' h
  have h : Yields (itemRound item before) (c.state scope) (.inl before') s' := h
  unfold itemRound at h
  rw [yields_bind] at h
  rcases h with ⟨a, _, ha, h⟩
  obtain ⟨ts, c₁, scope₁, reads, ⟨b, hb, _⟩, rfl⟩ := items.sound before ha
  rw [yields_current] at h
  split at h
  · rename_i kind
    obtain ⟨comma, c', readsComma, rfl⟩ := reads_of_advance_bind (by simp [kind]) h
    exact ⟨ts ++ [comma], c', scope₁, by simp, reads.append readsComma, rfl⟩
  · simp only [yields_bind, yields_pure] at h
    rcases h with ⟨_, _, _, same, _⟩
    cases same
  · exact absurd h not_yields_unexpected

theorem argumentLoop_consumes : argumentLoop.Consumes := by
  intro before before' c scope s' h
  have h : Yields (argumentRound before) (c.state scope) (.inl before') s' := h
  unfold argumentRound at h
  rw [yields_bind] at h
  rcases h with ⟨n, _, hn, h⟩
  obtain ⟨ts, c₁, scope₁, reads, _, rfl⟩ := chain_sound hn
  rw [yields_current] at h
  split at h
  · rename_i kind
    obtain ⟨comma, c', readsComma, rfl⟩ := reads_of_advance_bind (by simp [kind]) h
    exact ⟨ts ++ [comma], c', scope₁, by simp, reads.append readsComma, rfl⟩
  · cases (yields_pure.mp h).1

theorem operatorLoop_consumes {one : Parser Node} (hone : Sound one operandPhrase) :
    (operatorLoop one).Consumes := by
  intro tree tree' c scope s' h
  have h : Yields (operatorRound one tree) (c.state scope) (.inl tree') s' := h
  unfold operatorRound at h
  rw [yields_current] at h
  split at h
  · rename_i op kind
    simp only [yields_bind, yields_pure] at h
    rcases h with ⟨p, _, hop, n, _, hn, _, rfl⟩
    obtain ⟨t, c₁, readsT, _, rfl⟩ := (yields_binaryOperator kind).mp hop
    obtain ⟨us, c', scope', readsUs, _, rfl⟩ := hone hn
    exact ⟨t :: us, c', scope', by simp, readsT.append readsUs, rfl⟩
  · cases (yields_pure.mp h).1

/-- The loops of the parser, each with its rounds. -/
inductive Repeats : {α β : Type} → (Nat → α → Parser β) → Loop α β → Prop
  | declarations : Repeats declarationsFrom declarationLoop
  | fields (owner : String) : Repeats (itemsFrom (newField owner)) (itemLoop (newField owner))
  | params : Repeats (itemsFrom fun _ => param) (itemLoop fun _ => param)
  | body : Repeats (itemsFrom fun _ => expression) (itemLoop fun _ => expression)
  | assignments (owner : String) :
      Repeats (itemsFrom (assignment owner)) (itemLoop (assignment owner))
  | facts : Repeats (itemsFrom fun _ => fact) (itemLoop fun _ => fact)
  | checks : Repeats (itemsFrom fun _ => invocation) (itemLoop fun _ => invocation)
  | arguments : Repeats argumentsFrom argumentLoop
  | operators (steps : Nat) :
      Repeats (chainFrom (operand (chainWithin steps))) (operatorLoop (operand (chainWithin steps)))

theorem Repeats.eq_run {f : Nat → α → Parser β} {l : Loop α β} (repeats : Repeats f l) (n : Nat)
    (a : α) : f n a = l.run n a := by
  cases repeats with
  | declarations => exact declarationsFrom_eq_run n a
  | fields | params | body | assignments | facts | checks => exact itemsFrom_eq_run _ n a
  | arguments => exact argumentsFrom_eq_run n a
  | operators => exact chainFrom_eq_run _ n a

theorem Repeats.consumes {f : Nat → α → Parser β} {l : Loop α β} (repeats : Repeats f l) :
    l.Consumes := by
  cases repeats with
  | declarations => exact declarationLoop_consumes
  | fields owner => exact itemLoop_consumes (newField_items owner)
  | params => exact itemLoop_consumes param_items
  | body => exact itemLoop_consumes expression_items
  | assignments owner => exact itemLoop_consumes (assignment_items owner)
  | facts => exact itemLoop_consumes fact_items
  | checks => exact itemLoop_consumes invocation_items
  | arguments => exact argumentLoop_consumes
  | operators steps => exact operatorLoop_consumes (operand_sound (chainWithin_sound steps))

/-! ## Counts are not used up -/

/-- Two sequences agree if their first steps do, and the later steps after them. -/
theorem bind_eq_of_ok {p p' : Parser α} {f f' : α → Parser β} {s : State} (first : p s = p' s)
    (later : ∀ a s', Yields p' s a s' → f a s' = f' a s') : (p >>= f) s = (p' >>= f') s := by
  change EStateM.bind p f s = EStateM.bind p' f' s
  unfold EStateM.bind
  rw [first]
  cases result : p' s with
  | ok a s' => exact later a s' result
  | error e s' => rfl

/-- Loops with the same rounds run alike, whatever they do when a count is used up. -/
theorem Loop.run_eq {l l' : Loop α β} {limit : Nat} (consumes : l'.Consumes)
    (same : ∀ a (c : Cursor) scope, c.size ≤ limit →
      l.round a (c.state scope) = l'.round a (c.state scope))
    {n m : Nat} {a : α} {c : Cursor} {scope : Table FieldType} (small : c.size ≤ limit)
    (enough : c.size < n) (enough' : c.size < m) :
    l.run n a (c.state scope) = l'.run m a (c.state scope) := by
  induction n generalizing m a c scope with
  | zero => omega
  | succ n ih =>
    cases m with
    | zero => omega
    | succ m =>
      refine bind_eq_of_ok (same a c scope small) fun result s' yields => ?_
      cases result with
      | inr b => rfl
      | inl a' =>
        obtain ⟨ts, c', scope', some_, reads, rfl⟩ := consumes yields
        have one := List.length_pos_iff.mpr some_
        have fewer := reads.length_add_size
        exact ih (by omega) (by omega) (by omega)

/-- An operand goes into a group only behind a parenthesis that it has read. -/
theorem operand_congr {group group' : Parser Node} {c : Cursor} {scope : Table FieldType}
    (same : ∀ (t : Token) (c' : Cursor), Reads c [t] c' →
      group (c'.state scope) = group' (c'.state scope)) :
    operand group (c.state scope) = operand group' (c.state scope) := by
  unfold operand
  refine bind_eq_of_ok rfl fun t s' here => ?_
  obtain ⟨rfl, rfl⟩ : t = c.current ∧ s' = c.state scope := yields_pure.mp here
  cases kind : c.current.kind with
  | delimiter d =>
    cases d with
    | leftParen =>
      refine bind_eq_of_ok rfl fun t s' advanced => ?_
      obtain ⟨c', reads, rfl⟩ := (yields_advance_of_kind (by simp [kind])).mp advanced
      exact bind_eq_of_ok (same t c' reads) fun _ _ _ => rfl
    | _ => rfl
  | _ => rfl

theorem operatorRound_congr {one one' : Parser Node} {c : Cursor} {scope : Table FieldType}
    (same : ∀ (t : Token) (c' : Cursor), Reads c [t] c' →
      one (c'.state scope) = one' (c'.state scope)) (tree : ChainTree) :
    operatorRound one tree (c.state scope) = operatorRound one' tree (c.state scope) := by
  unfold operatorRound
  refine bind_eq_of_ok rfl fun t s' here => ?_
  obtain ⟨rfl, rfl⟩ : t = c.current ∧ s' = c.state scope := yields_pure.mp here
  cases kind : c.current.kind with
  | operator op =>
    refine bind_eq_of_ok rfl fun p s' read => ?_
    obtain ⟨t, c', reads, _, rfl⟩ := (yields_binaryOperator kind).mp read
    exact bind_eq_of_ok (same t c' reads) fun _ _ _ => rfl
  | _ => rfl

/-- Chains in groups, nested as deep as the count allows, with anything done beyond that. -/
def nested (spent : Parser Node) (stop : ChainTree → Parser ChainTree) : Nat → Parser Node
  | 0 => spent
  | n + 1 => do
    let first ← operand (nested spent stop n)
    let tree ← Loop.run ⟨operatorRound (operand (nested spent stop n)), stop⟩ n (.leaf first)
    return tree.node

/-- Every group and every operator takes a token, so that no count above the number of tokens is
used up. -/
theorem nested_eq_chainWithin {spent : Parser Node} {stop : ChainTree → Parser ChainTree} {n m : Nat}
    {c : Cursor} {scope : Table FieldType} (enough : c.size < n) (enough' : c.size < m) :
    nested spent stop n (c.state scope) = chainWithin m (c.state scope) := by
  induction n generalizing m c scope with
  | zero => omega
  | succ n ih =>
    cases m with
    | zero => omega
    | succ m =>
      have fewer {d d' : Cursor} {t : Token} (reads : Reads d [t] d') : d'.size < d.size := by
        have := reads.length_add_size
        rw [List.length_singleton] at this
        omega
      have operands (d : Cursor) (scope' : Table FieldType) (small : d.size ≤ c.size) :
          operand (nested spent stop n) (d.state scope') =
            operand (chainWithin m) (d.state scope') := by
        refine operand_congr fun t d' reads => ?_
        have := fewer reads
        exact ih (by omega) (by omega)
      have rounds (tree : ChainTree) (d : Cursor) (scope' : Table FieldType)
          (small : d.size ≤ c.size) :
          operatorRound (operand (nested spent stop n)) tree (d.state scope') =
            operatorRound (operand (chainWithin m)) tree (d.state scope') := by
        refine operatorRound_congr (fun t d' reads => ?_) tree
        have := fewer reads
        exact operands d' scope' (by omega)
      refine bind_eq_of_ok (operands c scope (Nat.le_refl _)) fun first s' read => ?_
      obtain ⟨ts, c', scope', reads, ⟨phrase, _⟩, rfl⟩ :=
        operand_sound (chainWithin_sound m) read
      have one := List.length_pos_iff.mpr (operand_ne_nil phrase)
      have rest := reads.length_add_size
      rw [chainFrom_eq_run]
      refine bind_eq_of_ok ?_ fun _ _ _ => rfl
      exact Loop.run_eq (operatorLoop_consumes (operand_sound (chainWithin_sound m))) rounds
        (by omega) (by omega) (by omega)

/-! ## Sessions -/

/-- Nothing that the parser repeats or nests goes on for ever where it holds `h`. -/
structure Terminates (h : Head) (s : State) : Prop where
  /-- A round that does not end its loop leaves less. -/
  rounds : ∀ {α β : Type} {f : Nat → α → Parser β} {l : Loop α β}, Repeats f l → ∀ a a' s',
    Yields (l.round a) s (.inl a') s' → h.Lightens s'
  /-- What stands in parentheses is parsed with less. -/
  groups : ∀ group group' : Parser Node, (∀ s', h.Lightens s' → group s' = group' s') →
    operand group s = operand group' s
  /-- A loop may count from any number above the weight, and do anything when the count is used up. -/
  counts : ∀ {α β : Type} {f : Nat → α → Parser β} {l : Loop α β}, Repeats f l → ∀ spent n a,
    h.weight < n → Loop.run ⟨l.round, spent⟩ n a s = f s.bound a s
  /-- So may a chain, for its operators and for the groups in it. -/
  depths : ∀ spent stop n, h.weight < n → nested spent stop n s = chain s
  /-- The number that is counted from. -/
  bounded : s.bound ≤ h.weight + 2

theorem Head.Shows.terminates {h : Head} {s : State} (shows_ : h.Shows s) : Terminates h s := by
  obtain ⟨c, scope, rfl⟩ := shows_.placed.exists_cursor
  have small := shows_.size_le_weight
  have bound := c.size_lt_bound scope
  refine ⟨?_, ?_, ?_, ?_, shows_.bound_le_weight⟩
  · intro α β f l repeats a a' s' yields
    obtain ⟨ts, c', scope', some_, reads, rfl⟩ := repeats.consumes yields
    exact reads.lightens some_ shows_ scope'
  · intro group group' same
    exact operand_congr fun t c' reads => same _ (reads.lightens (by simp) shows_ scope)
  · intro α β f l repeats spent n a enough
    rw [repeats.eq_run]
    exact Loop.run_eq (l := ⟨l.round, spent⟩) repeats.consumes (fun _ _ _ _ => rfl) (Nat.le_refl _)
      (by omega) bound
  · intro spent stop n enough
    exact nested_eq_chainWithin (by omega) bound

/-- Whatever a parser is asked for, and whether it has failed before or not, it ends. It starts with
no more than the text, every call leads it to a place where it holds no more, and wherever that is,
every round of a loop and every group takes from what it holds. A scanner passes over comments by
steps that leave less text each. -/
theorem parsing_ends {text : String} {s : State} (started : start text = .ok s) :
    (∀ scanner : Scanner,
      (TokenStream.ofScanner scanner).next =
        (scanner.significant.1, .ofScanner scanner.significant.2) ∧
      (scanner.next.1.isSignificant = false →
        scanner.next.2.rest.length < scanner.rest.length)) ∧
    ∃ h, Head.ofString text = .ok h ∧ h.Shows s ∧
      (∀ calls, ∃ h', h.Leads h' ∧ h'.Shows (afterCalls calls s)) ∧
      ∀ h' s', h.Leads h' → h'.Shows s' → h'.weight ≤ text.length ∧ Terminates h' s' := by
  refine ⟨fun scanner => ⟨TokenStream.next_ofScanner scanner, Scanner.rest_next_lt_of_comment⟩, ?_⟩
  obtain ⟨h, first, shows_, light⟩ := exists_head_of_start started
  refine ⟨h, first, shows_, fun calls => ?_, fun h' s' leads shows' => ?_⟩
  · exact afterCalls_keeps calls (stable_shows h) ⟨h, .refl, shows_⟩
  · exact ⟨Nat.le_trans leads.weight_le light, shows'.terminates⟩

/-- A group in an argument, a comment, and a character that starts no token. -/
theorem parsing_ends_nested :
    ∃ s, start "f((a + 1), # b\n c) * 2 ? (" = .ok s ∧ s.current.literal = "f" ∧
      ∃ h, Head.ofString "f((a + 1), # b\n c) * 2 ? (" = .ok h ∧ h.Shows s ∧
        (∀ calls, ∃ h', h.Leads h' ∧ h'.Shows (afterCalls calls s)) ∧
        ∀ h' s', h.Leads h' → h'.Shows s' → h'.weight ≤ 26 ∧ Terminates h' s' := by
  have answer : (start "f((a + 1), # b\n c) * 2 ? (").toOption.map (·.current.literal) =
      some "f" := by
    decide +kernel
  have length : "f((a + 1), # b\n c) * 2 ? (".length = 26 := by decide
  cases started : start "f((a + 1), # b\n c) * 2 ? (" with
  | error e =>
    rw [started] at answer
    cases answer
  | ok s =>
    rw [started] at answer
    obtain ⟨_, h, first, shows_, calls, all⟩ := parsing_ends started
    rw [length] at all
    exact ⟨s, rfl, Option.some.inj answer, h, first, shows_, calls, all⟩

end Rulebook.Parser
