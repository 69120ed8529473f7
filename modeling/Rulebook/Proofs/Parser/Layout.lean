import Mathlib
import Rulebook.Compiler
import Rulebook.Proofs.Token.Outline

/-!
# Layout does not matter

Two texts whose outlines say the same are parsed side by side. `Agree` relates two parsers at one
place of both outlines: both succeed, with values that are related, at one place again, or both fail
with errors that say the same about results of the same number.

The loops of the parsers count down, and the two texts give them different counts. A count that is no
less than the number of results to come is never used up, so the counts do not show.
-/

namespace Rulebook

namespace ParseError

/-- The error without its place. -/
def placeless : ParseError → ParseError
  | scan e => scan { e with position := {} }
  | unexpected expected found => unexpected expected { found with position := {} }
  | integer digits _ => integer digits {}
  | notBinary op _ => notBinary op {}
  | duplicate what name _ => duplicate what name {}

theorem detail_placeless (e : ParseError) : e.placeless.detail = e.detail := by cases e <;> rfl

end ParseError

/-- Two errors that differ in their places only. Each is at the result of its outline that has one and
the same number. -/
structure SameError (a b : List ScanResult) (e e' : ParseError) : Prop where
  placeless : e.placeless = e'.placeless
  detail : e.detail = e'.detail
  place : ∃ i : Nat, a[i]?.map ScanResult.position = some e.position ∧
    b[i]?.map ScanResult.position = some e'.position

/-- Equal values, or errors that differ in their places only. -/
inductive SameOutcome {α : Type} (a b : List ScanResult) :
    Except ParseError α → Except ParseError α → Prop
  | ok (v : α) : SameOutcome a b (.ok v) (.ok v)
  | error {e e' : ParseError} : SameError a b e e' → SameOutcome a b (.error e) (.error e')

/-- The error without its place. -/
def CompileError.placeless : CompileError → CompileError
  | lexical e => lexical { e with position := {} }
  | unexpected expected found => unexpected expected { found with position := {} }
  | integer digits _ => integer digits {}
  | notBinary op _ => notBinary op {}
  | semantic e => semantic e
  | options e => options e
  | cache e => cache e

theorem ParseError.placeless_ofParseError (e : ParseError) :
    (CompileError.ofParseError e).placeless = .ofParseError e.placeless := by
  cases e <;> rfl

theorem SameOutcome.eq_ok {α : Type} {a b : List ScanResult} {x y : Except ParseError α} {v : α}
    (same : SameOutcome a b x y) (known : y = .ok v) : x = .ok v := by
  cases same with
  | ok v => exact known
  | error _ => cases known

/-- The places are all that the answers to a user can differ in. -/
theorem SameOutcome.placeless_eq {α : Type} {a b : List ScanResult} {x y : Except ParseError α}
    (same : SameOutcome a b x y) :
    (x.mapError CompileError.ofParseError).mapError CompileError.placeless =
      (y.mapError CompileError.ofParseError).mapError CompileError.placeless := by
  cases same with
  | ok v => rfl
  | @error e e' same =>
    have placeless : (CompileError.ofParseError e).placeless =
        (CompileError.ofParseError e').placeless := by
      rw [e.placeless_ofParseError, e'.placeless_ofParseError, same.placeless]
    exact congrArg Except.error placeless

namespace Parser

variable {α β γ δ : Type}

/-! ## Places in an outline -/

/-- The number of the result that follows; the last one follows itself. -/
def following (outline : List ScanResult) (i : Nat) : Nat := min (i + 1) (outline.length - 1)

/-- The state is at the result with this number: its token is current, and what follows is ahead. -/
structure State.At (outline : List ScanResult) (i : Nat) (s : State) : Prop where
  current : outline[i]? = some (.ok s.current)
  ahead : s.ahead.outline = outline.drop (following outline i)

namespace State.At

variable {outline : List ScanResult} {i : Nat} {s : State}

theorem lt (at_ : s.At outline i) : i < outline.length :=
  (List.getElem?_eq_some_iff.mp at_.current).1

theorem le_bound (at_ : s.At outline i) : outline.length ≤ i + s.bound := by
  have short := s.ahead.outline_length_le
  rw [at_.ahead, List.length_drop] at short
  have := at_.lt
  unfold State.bound
  unfold following at short
  omega

theorem next_ok {ahead : TokenStream} {t : Token} (at_ : s.At outline i)
    (next : s.ahead.next = (.ok t, ahead)) (scope : Table FieldType) :
    State.At outline (following outline i) ⟨t, ahead, scope⟩ := by
  have inside := at_.lt
  have low : following outline i < outline.length := by
    unfold following
    omega
  have first : (outline.drop (following outline i))[0]? = outline[following outline i]? := by
    rw [List.getElem?_drop, Nat.add_zero]
  have size := List.length_drop (i := following outline i) (l := outline)
  rcases TokenStream.outline_of_next_ok next with ⟨here, later⟩ | here
  · rw [at_.ahead] at here
    rw [here] at first size
    refine ⟨first.symm, ?_⟩
    have last : following outline (following outline i) = following outline i := by
      rw [List.length_singleton] at size
      unfold following at size ⊢
      omega
    rw [last]
    exact later.trans here.symm
  · rw [at_.ahead] at here
    rw [here] at first size
    refine ⟨first.symm, ?_⟩
    have some := List.length_pos_iff.mpr ahead.outline_ne_nil
    have more : following outline (following outline i) = following outline i + 1 := by
      rw [List.length_cons] at size
      show min (following outline i + 1) (outline.length - 1) = following outline i + 1
      omega
    rw [more, ← List.drop_drop, here]
    rfl

theorem next_error {ahead : TokenStream} {e : ScanError} (at_ : s.At outline i)
    (next : s.ahead.next = (.error e, ahead)) :
    outline[following outline i]? = some (.error e) := by
  have here := TokenStream.outline_of_next_error next
  rw [at_.ahead] at here
  have first : (outline.drop (following outline i))[0]? = outline[following outline i]? := by
    rw [List.getElem?_drop, Nat.add_zero]
  rw [here] at first
  exact first.symm

end State.At

/-! ## Two outlines side by side -/

/-- Two outlines that differ in positions only. -/
structure Pair where
  left : List ScanResult
  right : List ScanResult
  said : left.map ScanResult.said = right.map ScanResult.said
  ends : ∀ t, left.getLast? = some (.ok t) → t.kind = .endOfInput

variable {o : Pair} {i : Nat}

theorem Pair.length_eq (o : Pair) : o.left.length = o.right.length := by
  simpa using congrArg List.length o.said

theorem Pair.following_eq (o : Pair) (i : Nat) : following o.left i = following o.right i := by
  unfold following
  rw [o.length_eq]

theorem Pair.said_eq {r r' : ScanResult} (left : o.left[i]? = some r)
    (right : o.right[i]? = some r') : r.said = r'.said := by
  have same := congrArg (·[i]?) o.said
  simpa [left, right] using same

/-- The two tokens with this number. -/
structure Twins (o : Pair) (i : Nat) (t u : Token) : Prop where
  left : o.left[i]? = some (.ok t)
  right : o.right[i]? = some (.ok u)

namespace Twins

variable {t u : Token}

theorem lexeme (twins : Twins o i t u) : t.toLexeme = u.toLexeme :=
  Except.ok.inj (Pair.said_eq twins.left twins.right)

theorem kind (twins : Twins o i t u) : t.kind = u.kind := congrArg Lexeme.kind twins.lexeme

theorem literal (twins : Twins o i t u) : t.literal = u.literal :=
  congrArg Lexeme.literal twins.lexeme

/-- Two errors at these tokens. -/
theorem sameError (twins : Twins o i t u) {e e' : ParseError} (placeless : e.placeless = e'.placeless)
    (left : e.position = t.position) (right : e'.position = u.position) :
    SameError o.left o.right e e' where
  placeless := placeless
  detail := by rw [← e.detail_placeless, placeless, e'.detail_placeless]
  place := ⟨i, by rw [twins.left, left]; rfl, by rw [twins.right, right]; rfl⟩

theorem unexpected (twins : Twins o i t u) (expected : Expected) :
    SameError o.left o.right (.unexpected expected t) (.unexpected expected u) := by
  refine twins.sameError ?_ rfl rfl
  simp only [ParseError.placeless, twins.lexeme]

/-- Only the end of the text is not followed by another result. -/
theorem following_gt (twins : Twins o i t u) (more : t.kind ≠ .endOfInput) :
    i < following o.left i := by
  have inside := (List.getElem?_eq_some_iff.mp twins.left).1
  have notLast : i + 1 ≠ o.left.length := by
    intro last
    apply more
    apply o.ends
    rw [List.getLast?_eq_getElem?, ← last]
    exact twins.left
  unfold following
  omega

end Twins

/-- Errors of the scans with one number. -/
theorem sameError_scan {e e' : ScanError} (left : o.left[i]? = some (.error e))
    (right : o.right[i]? = some (.error e')) :
    SameError o.left o.right (.scan e) (.scan e') := by
  have fault : e.fault = e'.fault :=
    ScanFault.message_injective (Except.error.inj (Pair.said_eq left right))
  have placeless : (ParseError.scan e).placeless = (ParseError.scan e').placeless := by
    simp only [ParseError.placeless, fault]
  refine ⟨placeless, ?_, i, by rw [left]; rfl, by rw [right]; rfl⟩
  rw [← ParseError.detail_placeless, placeless, ParseError.detail_placeless]

/-- Two states at the same place, with the same variables in scope. -/
structure Beside (o : Pair) (i : Nat) (s t : State) : Prop where
  left : s.At o.left i
  right : t.At o.right i
  scope : s.scope = t.scope

theorem Beside.twins {s t : State} (beside : Beside o i s t) : Twins o i s.current t.current :=
  ⟨beside.left.current, beside.right.current⟩

/-! ## Parsers side by side -/

/-- Two runs that come to the same: related values at the same place, or the same error. -/
inductive Together (o : Pair) (post : Nat → α → β → Prop) :
    EStateM.Result ParseError State α → EStateM.Result ParseError State β → Prop
  | ok {j : Nat} {v : α} {w : β} {s t : State} :
      Beside o j s t → post j v w → Together o post (.ok v s) (.ok w t)
  | error {e e' : ParseError} {s t : State} :
      SameError o.left o.right e e' → Together o post (.error e s) (.error e' t)

/-- Two parsers come to the same from any two states at this place. -/
def Agree (o : Pair) (i : Nat) (p : Parser α) (q : Parser β) (post : Nat → α → β → Prop) : Prop :=
  ∀ s t, Beside o i s t → Together o post (p s) (q t)

/-- The same value, here or further on. -/
abbrev From (i : Nat) (j : Nat) (v w : α) : Prop := i ≤ j ∧ v = w

/-- The same value, further on. -/
abbrev After (i : Nat) (j : Nat) (v w : α) : Prop := i < j ∧ v = w

variable {post : Nat → α → β → Prop}

theorem agree_pure {v : α} {w : β} (related : post i v w) : Agree o i (pure v) (pure w) post :=
  fun _ _ beside => .ok beside related

theorem agree_throw {e e' : ParseError} (same : SameError o.left o.right e e') :
    Agree o i (throw e) (throw e') post :=
  fun _ _ _ => .error same

theorem agree_bind {p : Parser γ} {q : Parser δ} {f : γ → Parser α} {g : δ → Parser β}
    {mid : Nat → γ → δ → Prop} (first : Agree o i p q mid)
    (later : ∀ j v w, mid j v w → Agree o j (f v) (g w) post) :
    Agree o i (p >>= f) (q >>= g) post := by
  intro s t beside
  have both := first s t beside
  change Together o post (EStateM.bind p f s) (EStateM.bind q g t)
  unfold EStateM.bind
  generalize p s = x at both
  generalize q t = y at both
  cases both with
  | ok beside' related => exact later _ _ _ related _ _ beside'
  | error same => exact .error same

theorem agree_ite {c d : Prop} [Decidable c] [Decidable d] {p p' : Parser α} {q q' : Parser β}
    (same : c ↔ d) (yes : c → Agree o i p q post) (no : ¬ c → Agree o i p' q' post) :
    Agree o i (if c then p else p') (if d then q else q') post := by
  by_cases h : c
  · rw [if_pos h, if_pos (same.mp h)]
    exact yes h
  · rw [if_neg h, if_neg (mt same.mpr h)]
    exact no h

/-- A check that both runs pass or fail, with the same error. -/
theorem agree_unless {refused : Prop} [Decidable refused] {e e' : ParseError}
    {next : Unit → Parser α} {next' : Unit → Parser β} (same : SameError o.left o.right e e')
    (later : Agree o i (next ()) (next' ()) post) :
    Agree o i (if refused then throw e >>= next else next ())
      (if refused then throw e' >>= next' else next' ()) post :=
  agree_ite Iff.rfl (fun _ _ _ _ => .error same) fun _ => later

/-- There is a result at every place. -/
theorem agree_of_lt {p : Parser α} {q : Parser β}
    (h : i < o.left.length → i < o.right.length → Agree o i p q post) : Agree o i p q post :=
  fun s t beside => h beside.left.lt beside.right.lt s t beside

theorem agree_current {f : Token → Parser α} {g : Token → Parser β}
    (h : ∀ t u, Twins o i t u → Agree o i (f t) (g u) post) :
    Agree o i (current >>= f) (current >>= g) post :=
  fun s t beside => h s.current t.current beside.twins s t beside

/-- The counts may differ, but both are enough. -/
theorem agree_bound {f g : Nat → Parser α} {post : Nat → α → α → Prop}
    (h : ∀ m n, o.left.length ≤ i + m → o.right.length ≤ i + n → Agree o i (f m) (g n) post) :
    Agree o i (bound >>= f) (bound >>= g) post :=
  fun s t beside => h s.bound t.bound beside.left.le_bound beside.right.le_bound s t beside

theorem agree_unexpected (expected : Expected) :
    Agree o i (unexpected expected) (unexpected expected) post :=
  fun _ _ beside => .error (beside.twins.unexpected expected)

/-- What comes next is a token for both runs or an error for both. -/
theorem next_together {s t : State} (beside : Beside o i s t) :
    (∃ u v ahead ahead', s.ahead.next = (.ok u, ahead) ∧ t.ahead.next = (.ok v, ahead') ∧
      Twins o (following o.left i) u v) ∨
    ∃ e e' ahead ahead', s.ahead.next = (.error e, ahead) ∧ t.ahead.next = (.error e', ahead') ∧
      SameError o.left o.right (.scan e) (.scan e') := by
  have right := o.following_eq i
  cases left : s.ahead.next with
  | mk r ahead =>
    cases there : t.ahead.next with
    | mk r' ahead' =>
      cases r with
      | ok u =>
        have first := (beside.left.next_ok left s.scope).current
        cases r' with
        | ok v =>
          have second := (beside.right.next_ok there t.scope).current
          rw [← right] at second
          exact .inl ⟨u, v, ahead, ahead', rfl, rfl, first, second⟩
        | error e' =>
          have second := beside.right.next_error there
          rw [← right] at second
          cases Pair.said_eq first second
      | error e =>
        have first := beside.left.next_error left
        cases r' with
        | ok v =>
          have second := (beside.right.next_ok there t.scope).current
          rw [← right] at second
          cases Pair.said_eq first second
        | error e' =>
          have second := beside.right.next_error there
          rw [← right] at second
          exact .inr ⟨e, e', ahead, ahead', rfl, rfl, sameError_scan first second⟩

theorem agree_advance : Agree o i advance advance fun j t u =>
    Twins o i t u ∧ i ≤ j ∧ (t.kind ≠ .endOfInput → i < j) := by
  intro s t beside
  unfold advance
  rcases next_together beside with ⟨u, v, ahead, ahead', left, right, _⟩ |
    ⟨e, e', ahead, ahead', left, right, same⟩
  · simp only [left, right]
    have there := beside.right.next_ok right t.scope
    rw [← o.following_eq i] at there
    refine .ok ⟨beside.left.next_ok left s.scope, there, beside.scope⟩ ⟨beside.twins, ?_, ?_⟩
    · have := beside.left.lt
      unfold following
      omega
    · exact beside.twins.following_gt
  · simp only [left, right]
    exact .error same

theorem agree_peek : Agree o i peek peek fun j t u => j = i ∧ t.kind = u.kind := by
  intro s t beside
  unfold peek
  rcases next_together beside with ⟨u, v, ahead, ahead', left, right, twins⟩ |
    ⟨e, e', ahead, ahead', left, right, same⟩
  · simp only [left, right]
    exact .ok beside ⟨rfl, twins.kind⟩
  · simp only [left, right]
    exact .error same

theorem agree_clearScope : Agree o i clearScope clearScope fun j _ _ => j = i := by
  intro s t beside
  exact .ok ⟨⟨beside.left.current, beside.left.ahead⟩,
    ⟨beside.right.current, beside.right.ahead⟩, rfl⟩ rfl

theorem agree_declare (name : String) (type : FieldType) :
    Agree o i (declare name type) (declare name type) fun j v w => j = i ∧ v = w := by
  intro s t beside
  unfold declare
  rw [beside.scope]
  exact .ok ⟨⟨beside.left.current, beside.left.ahead⟩,
    ⟨beside.right.current, beside.right.ahead⟩, rfl⟩ ⟨rfl, rfl⟩

/-- A token of a kind that is known is not the end of the text. -/
theorem agree_advance_of {t u : Token} (twins : Twins o i t u) (more : t.kind ≠ .endOfInput) :
    Agree o i advance advance fun j t' u' => i < j ∧ Twins o i t' u' := by
  intro s s' beside
  have run := agree_advance s s' beside
  generalize advance s = x at run
  generalize advance s' = y at run
  cases run with
  | ok beside' related =>
    obtain ⟨same, _, further⟩ := related
    have here := twins.left.symm.trans same.left
    cases here
    exact .ok beside' ⟨further more, same⟩
  | error same => exact .error same

theorem agree_expect {kind : Token.Kind} (more : kind ≠ .endOfInput) :
    Agree o i (expect kind) (expect kind) fun j _ _ => i < j := by
  refine agree_current fun t u twins => ?_
  refine agree_ite (by rw [twins.kind]) (fun here => ?_) fun _ => agree_unexpected _
  intro s s' beside
  have run := agree_advance_of twins (by rwa [here]) s s' beside
  generalize advance s = x at run
  generalize advance s' = y at run
  cases run with
  | ok beside' related => exact .ok beside' related.1
  | error same => exact .error same

theorem agree_identifier : Agree o i identifier identifier (After i) := by
  refine agree_current fun t u twins => ?_
  refine agree_ite (by rw [twins.kind]) (fun here => ?_) fun _ => agree_unexpected _
  refine agree_bind (agree_advance_of twins (by simp [here])) fun j t u ⟨further, twins⟩ => ?_
  exact agree_pure ⟨further, twins.literal⟩

theorem agree_mono {p : Parser α} {q : Parser β} {post' : Nat → α → β → Prop}
    (agree : Agree o i p q post) (weaker : ∀ j v w, post j v w → post' j v w) :
    Agree o i p q post' := by
  intro s t beside
  have run := agree s t beside
  generalize p s = x at run
  generalize q t = y at run
  cases run with
  | ok beside' related => exact .ok beside' (weaker _ _ _ related)
  | error same => exact .error same

/-- What is further on from a later place is further on from an earlier one. -/
theorem agree_later {j : Nat} {p q : Parser α} (agree : Agree o j p q (After j)) (later : i ≤ j) :
    Agree o j p q (After i) :=
  agree_mono agree fun _ _ _ ⟨further, same⟩ => ⟨by omega, same⟩

/-! ## Lists -/

variable {m n : Nat}

theorem agree_itemsFrom {item : List α → Parser α}
    (hitem : ∀ i before, Agree o i (item before) (item before) (After i))
    {before : List α} (left : o.left.length ≤ i + m) (right : o.right.length ≤ i + n) :
    Agree o i (itemsFrom item m before) (itemsFrom item n before) (After i) := by
  refine agree_of_lt fun here there => ?_
  induction m generalizing i n before with
  | zero => omega
  | succ m ih =>
    cases n with
    | zero => omega
    | succ n =>
      refine agree_bind (hitem i before) fun j v w ⟨further, same⟩ => ?_
      subst same
      refine agree_current fun t u twins => ?_
      rw [← twins.kind]
      split
      · rename_i comma
        refine agree_bind (agree_advance_of twins (by simp [comma])) fun k _ _ ⟨further', _⟩ => ?_
        refine agree_of_lt fun here' there' => ?_
        exact agree_later (ih (by omega) (by omega) here' there') (by omega)
      · rename_i brace
        refine agree_bind (agree_advance_of twins (by simp [brace])) fun k _ _ ⟨further', _⟩ => ?_
        exact agree_pure ⟨by omega, rfl⟩
      · exact agree_unexpected _

theorem agree_bracedSome {item : List α → Parser α}
    (hitem : ∀ i before, Agree o i (item before) (item before) (After i)) :
    Agree o i (bracedSome item) (bracedSome item) (After i) := by
  refine agree_bind (agree_expect (by simp)) fun j _ _ further => ?_
  refine agree_bound fun m n left right => ?_
  exact agree_later (agree_itemsFrom hitem left right) (by omega)

theorem agree_bracedMany {item : List α → Parser α}
    (hitem : ∀ i before, Agree o i (item before) (item before) (After i)) :
    Agree o i (bracedMany item) (bracedMany item) (After i) := by
  refine agree_bind (agree_expect (by simp)) fun j _ _ further => ?_
  refine agree_current fun t u twins => ?_
  refine agree_ite (by rw [twins.kind]) (fun brace => ?_) fun _ => ?_
  · refine agree_bind (agree_advance_of twins (by simp [brace])) fun k _ _ ⟨further', _⟩ => ?_
    exact agree_pure ⟨by omega, rfl⟩
  · refine agree_bound fun m n left right => ?_
    exact agree_later (agree_itemsFrom hitem left right) (by omega)

/-! ## Expressions -/

theorem agree_resolve (name : String) :
    Agree o i (resolve name) (resolve name) fun j v w => j = i ∧ v = w := by
  intro s t beside
  simp only [resolve, bind, EStateM.bind, get, getThe, MonadStateOf.get, EStateM.get, beside.scope]
  cases t.scope.find? name <;> exact .ok beside ⟨rfl, rfl⟩

theorem agree_literal : Agree o i literal literal (After i) := by
  refine agree_bind agree_advance fun j t u ⟨twins, _, further⟩ => ?_
  rw [← twins.kind, ← twins.literal]
  split
  · rename_i kind
    have := further (by simp [kind])
    exact agree_mono (agree_resolve _) fun _ _ _ ⟨here, same⟩ => ⟨by omega, same⟩
  · rename_i kind
    have := further (by simp [kind])
    split
    · exact agree_pure ⟨by omega, rfl⟩
    · exact agree_throw (twins.sameError rfl rfl rfl)
  · rename_i kind
    exact agree_pure ⟨further (by simp [kind]), rfl⟩
  · rename_i kind
    exact agree_pure ⟨further (by simp [kind]), rfl⟩
  · exact agree_throw (twins.unexpected _)

theorem agree_binaryOperator (op : Operator) :
    Agree o i (binaryOperator op) (binaryOperator op) (From i) := by
  refine agree_bind agree_advance fun j t u ⟨twins, later, _⟩ => ?_
  split
  · exact agree_pure ⟨later, rfl⟩
  · exact agree_throw (twins.sameError rfl rfl rfl)

theorem agree_operand {group group' : Parser Node}
    (hgroup : ∀ j, i < j → Agree o j group group' (After j)) :
    Agree o i (operand group) (operand group') (After i) := by
  refine agree_current fun t u twins => ?_
  rw [← twins.kind]
  split
  · rename_i paren
    refine agree_bind (agree_advance_of twins (by simp [paren])) fun j _ _ ⟨further, _⟩ => ?_
    refine agree_bind (hgroup j further) fun k v w ⟨further', same⟩ => ?_
    refine agree_bind (agree_expect (by simp)) fun l _ _ further'' => ?_
    exact agree_pure ⟨by omega, same⟩
  · refine agree_ite Iff.rfl (fun _ => ?_) fun _ => agree_unexpected _
    refine agree_bind agree_literal fun j v w ⟨further, same⟩ => ?_
    exact agree_pure ⟨further, by rw [same]⟩

theorem agree_chainFrom {operand operand' : Parser Node}
    (hoperand : ∀ j, i ≤ j → Agree o j operand operand' (After j)) {tree : ChainTree}
    (left : o.left.length ≤ i + m) (right : o.right.length ≤ i + n) :
    Agree o i (chainFrom operand m tree) (chainFrom operand' n tree) (From i) := by
  refine agree_of_lt fun here there => ?_
  induction m generalizing i n tree with
  | zero => omega
  | succ m ih =>
    cases n with
    | zero => omega
    | succ n =>
      refine agree_current fun t u twins => ?_
      rw [← twins.kind]
      split
      · refine agree_bind (agree_binaryOperator _) fun j p p' ⟨later, same⟩ => ?_
        subst same
        refine agree_bind (hoperand j later) fun k v w ⟨further, same⟩ => ?_
        subst same
        refine agree_of_lt fun here' there' => ?_
        refine agree_mono (ih (fun l far => hoperand l (by omega)) (by omega) (by omega) here'
          there') fun _ _ _ ⟨h, same⟩ => ⟨by omega, same⟩
      · exact agree_pure ⟨Nat.le_refl i, rfl⟩

theorem agree_chainWithin (left : o.left.length ≤ i + m) (right : o.right.length ≤ i + n) :
    Agree o i (chainWithin m) (chainWithin n) (After i) := by
  refine agree_of_lt fun here there => ?_
  induction m generalizing i n with
  | zero => omega
  | succ m ih =>
    cases n with
    | zero => omega
    | succ n =>
      have operands (j : Nat) (later : i ≤ j) :
          Agree o j (operand (chainWithin m)) (operand (chainWithin n)) (After j) :=
        agree_operand fun k further => agree_of_lt fun here' there' =>
          ih (by omega) (by omega) here' there'
      refine agree_bind (operands i (Nat.le_refl i)) fun j v w ⟨further, same⟩ => ?_
      subst same
      refine agree_bind (agree_chainFrom (fun k later => operands k (by omega)) (by omega)
        (by omega)) fun k v w ⟨later, same⟩ => ?_
      exact agree_pure ⟨by omega, by rw [same]⟩

theorem agree_chain : Agree o i chain chain (After i) :=
  agree_bound fun _ _ left right => agree_chainWithin left right

theorem agree_argumentsFrom {before : List Node} (left : o.left.length ≤ i + m)
    (right : o.right.length ≤ i + n) :
    Agree o i (argumentsFrom m before) (argumentsFrom n before) (After i) := by
  refine agree_of_lt fun here there => ?_
  induction m generalizing i n before with
  | zero => omega
  | succ m ih =>
    cases n with
    | zero => omega
    | succ n =>
      refine agree_bind agree_chain fun j v w ⟨further, same⟩ => ?_
      subst same
      refine agree_current fun t u twins => ?_
      refine agree_ite (by rw [twins.kind]) (fun comma => ?_) fun _ => agree_pure ⟨further, rfl⟩
      refine agree_bind (agree_advance_of twins (by simp [comma])) fun k _ _ ⟨further', _⟩ => ?_
      refine agree_of_lt fun here' there' => ?_
      exact agree_later (ih (by omega) (by omega) here' there') (by omega)

theorem agree_invocation : Agree o i invocation invocation (After i) := by
  refine agree_bind agree_identifier fun j functor functor' ⟨further, same⟩ => ?_
  subst same
  refine agree_bind (agree_expect (by simp)) fun k _ _ further' => ?_
  have close (l : Nat) (later : i ≤ l) (args : List Node) : Agree o l (do
      let _ ← expect (.delimiter .rightParen)
      return ⟨functor, args⟩ : Parser Expr) (do
      let _ ← expect (.delimiter .rightParen)
      return ⟨functor, args⟩) (After i) :=
    agree_bind (agree_expect (by simp)) fun _ _ _ _ => agree_pure ⟨by omega, rfl⟩
  refine agree_current fun t u twins => ?_
  refine agree_ite (by rw [twins.kind]) (fun _ => close k (by omega) []) fun _ => ?_
  refine agree_bound fun m n left right => ?_
  refine agree_bind (agree_argumentsFrom left right) fun l args args' ⟨further'', same⟩ => ?_
  subst same
  exact close l (by omega) args

theorem agree_atInvocation :
    Agree o i atInvocation atInvocation fun j v w => j = i ∧ v = w := by
  refine agree_current fun t u twins => ?_
  refine agree_ite (by rw [twins.kind]) (fun _ => ?_) fun _ => agree_pure ⟨rfl, rfl⟩
  refine agree_bind agree_peek fun j t u ⟨here, same⟩ => ?_
  exact agree_pure ⟨here, by rw [same]⟩

theorem agree_expression : Agree o i expression expression (After i) := by
  refine agree_bind agree_atInvocation fun j v w ⟨here, same⟩ => ?_
  subst here same
  refine agree_ite Iff.rfl (fun _ => agree_invocation) fun _ => ?_
  refine agree_bind agree_chain fun k v w ⟨further, same⟩ => ?_
  subst same
  split
  · exact agree_pure ⟨further, rfl⟩
  · exact agree_unexpected _

theorem agree_endOfInput : Agree o i endOfInput endOfInput (From i) := by
  have ends : Agree o i (expect .endOfInput) (expect .endOfInput) fun j _ _ => i ≤ j := by
    refine agree_current fun t u twins => ?_
    refine agree_ite (by rw [twins.kind]) (fun _ => ?_) fun _ => agree_unexpected _
    exact agree_mono agree_advance fun _ _ _ ⟨_, later, _⟩ => later
  exact agree_bind ends fun j _ _ later => agree_pure ⟨later, rfl⟩

/-! ## Declarations -/

theorem agree_field : Agree o i field field (After i) := by
  refine agree_bind agree_identifier fun j name name' ⟨further, same⟩ => ?_
  subst same
  refine agree_bind (agree_expect (by simp)) fun k _ _ further' => ?_
  refine agree_bind agree_identifier fun l type type' ⟨further'', same⟩ => ?_
  exact agree_pure ⟨by omega, by rw [same]⟩

theorem agree_newField (owner : String) (before : List Field) :
    Agree o i (newField owner before) (newField owner before) (After i) := by
  refine agree_current fun t u twins => ?_
  refine agree_bind agree_field fun j f f' ⟨further, same⟩ => ?_
  subst same
  exact agree_unless (twins.sameError rfl rfl rfl) (agree_pure ⟨further, rfl⟩)

theorem agree_fields (owner : String) : Agree o i (fields owner) (fields owner) (After i) :=
  agree_bracedSome fun _ => agree_newField owner

/-- A name and fields, whatever is made of them. -/
theorem agree_named_fields (make : String → List Field → α) :
    let named : Parser α := do
      let name ← identifier
      return make name (← fields name)
    Agree o i named named (After i) := by
  refine agree_bind agree_identifier fun j name name' ⟨further, same⟩ => ?_
  subst same
  refine agree_bind (agree_fields name) fun k fs fs' ⟨further', same⟩ => ?_
  exact agree_pure ⟨by omega, by rw [same]⟩

theorem agree_param : Agree o i param param (After i) := by
  refine agree_current fun t u twins => ?_
  refine agree_bind agree_field fun j f f' ⟨further, same⟩ => ?_
  subst same
  refine agree_bind (agree_declare _ _) fun k taken taken' ⟨here, same⟩ => ?_
  subst same
  exact agree_unless (twins.sameError rfl rfl rfl) (agree_pure ⟨by omega, rfl⟩)

/-- A rule or a test: a name, two braced lists with a keyword before each, and a brace. -/
theorem agree_sections {δ : Type} {named : Parser γ} {item : List α → Parser α}
    {item' : List β → Parser β} (word : Keyword) (make : γ → List α → List β → δ)
    (hnamed : ∀ i, Agree o i named named (After i))
    (hitem : ∀ i before, Agree o i (item before) (item before) (After i))
    (hitem' : ∀ i before, Agree o i (item' before) (item' before) (After i)) :
    let sections : Parser δ := do
      clearScope
      let name ← named
      let _ ← expect (.delimiter .leftBrace)
      let _ ← expect (.keyword word)
      let first ← bracedMany item
      let _ ← expect (.keyword .rules)
      let second ← bracedMany item'
      let _ ← expect (.delimiter .rightBrace)
      clearScope
      return make name first second
    Agree o i sections sections (After i) := by
  refine agree_bind agree_clearScope fun j _ _ here => ?_
  refine agree_bind (hnamed j) fun k name name' ⟨further, same⟩ => ?_
  subst same
  refine agree_bind (agree_expect (by simp)) fun k₁ _ _ further₁ => ?_
  refine agree_bind (agree_expect (by simp)) fun k₂ _ _ further₂ => ?_
  refine agree_bind (agree_bracedMany hitem) fun k₃ first first' ⟨further₃, same⟩ => ?_
  subst same
  refine agree_bind (agree_expect (by simp)) fun k₄ _ _ further₄ => ?_
  refine agree_bind (agree_bracedMany hitem') fun k₅ second second' ⟨further₅, same⟩ => ?_
  subst same
  refine agree_bind (agree_expect (by simp)) fun k₆ _ _ further₆ => ?_
  refine agree_bind agree_clearScope fun k₇ _ _ here' => ?_
  exact agree_pure ⟨by omega, rfl⟩

theorem agree_rule : Agree o i rule rule (After i) :=
  agree_sections .input Rule.mk (fun _ => agree_identifier) (fun _ _ => agree_param)
    fun _ _ => agree_expression

theorem agree_assignment (owner : String) (before : List (String × Term)) :
    Agree o i (assignment owner before) (assignment owner before) (After i) := by
  refine agree_current fun t u twins => ?_
  refine agree_bind agree_identifier fun j name name' ⟨further, same⟩ => ?_
  subst same
  refine agree_bind (agree_expect (by simp)) fun k _ _ further' => ?_
  refine agree_bind agree_literal fun l value value' ⟨further'', same⟩ => ?_
  subst same
  exact agree_unless (twins.sameError rfl rfl rfl) (agree_pure ⟨by omega, rfl⟩)

theorem agree_instantiation : Agree o i instantiation instantiation (After i) := by
  refine agree_current fun t u twins => ?_
  refine agree_bind agree_identifier fun j name name' ⟨further, same⟩ => ?_
  subst same
  refine agree_bind (agree_expect (by simp)) fun k _ _ further₁ => ?_
  refine agree_bind agree_identifier fun k₁ type type' ⟨further₂, same⟩ => ?_
  subst same
  refine agree_bind (agree_bracedSome fun _ => agree_assignment name) fun k₂ assigned assigned'
    ⟨further₃, same⟩ => ?_
  subst same
  refine agree_bind (agree_declare _ _) fun k₃ taken taken' ⟨here, same⟩ => ?_
  subst same
  exact agree_unless (twins.sameError rfl rfl rfl) (agree_pure ⟨by omega, rfl⟩)

theorem agree_fact : Agree o i fact fact (After i) := by
  refine agree_bind agree_atInvocation fun j v w ⟨here, same⟩ => ?_
  subst here same
  exact agree_ite Iff.rfl (fun _ => agree_invocation) fun _ => agree_instantiation

theorem agree_testName : Agree o i testName testName (After i) := by
  refine agree_current fun t u twins => ?_
  have name (more : t.kind ≠ .endOfInput) :
      Agree o i (do return (← advance).literal : Parser String) (do return (← advance).literal)
        (After i) :=
    agree_bind (agree_advance_of twins more) fun _ _ _ ⟨further, twins⟩ =>
      agree_pure ⟨further, twins.literal⟩
  rw [← twins.kind]
  split
  · rename_i kind
    exact name (by simp [kind])
  · rename_i kind
    exact name (by simp [kind])
  · exact agree_unexpected _

theorem agree_test : Agree o i test test (After i) :=
  agree_sections .facts Test.mk (fun _ => agree_testName) (fun _ _ => agree_fact)
    fun _ _ => agree_invocation

/-- A keyword and what it announces. -/
theorem agree_after_keyword {t u : Token} (twins : Twins o i t u) {word : Keyword}
    (kind : t.kind = .keyword word) {p : Parser α} (make : α → Declaration)
    (hp : ∀ j, Agree o j p p (After j)) :
    let announced : Parser Declaration := do
      let _ ← advance
      return make (← p)
    Agree o i announced announced (After i) := by
  refine agree_bind (agree_advance_of twins (by simp [kind])) fun j _ _ ⟨further, _⟩ => ?_
  refine agree_bind (hp j) fun k v w ⟨further', same⟩ => ?_
  exact agree_pure ⟨by omega, by rw [same]⟩

theorem agree_declaration : Agree o i declaration declaration (After i) := by
  refine agree_current fun t u twins => ?_
  rw [← twins.kind]
  split
  · exact agree_after_keyword twins ‹_› .object fun _ => agree_named_fields Object.mk
  · exact agree_after_keyword twins ‹_› .relation fun _ => agree_named_fields Relation.mk
  · exact agree_after_keyword twins ‹_› .rule fun _ => agree_rule
  · exact agree_after_keyword twins ‹_› .test fun _ => agree_test
  · exact agree_unexpected _

theorem agree_declarationsFrom {document : Document} (left : o.left.length ≤ i + m)
    (right : o.right.length ≤ i + n) :
    Agree o i (declarationsFrom m document) (declarationsFrom n document) (From i) := by
  refine agree_of_lt fun here there => ?_
  induction m generalizing i n document with
  | zero => omega
  | succ m ih =>
    cases n with
    | zero => omega
    | succ n =>
      refine agree_current fun t u twins => ?_
      refine agree_ite (by rw [twins.kind]) (fun _ => agree_pure ⟨Nat.le_refl i, rfl⟩) fun _ => ?_
      refine agree_bind agree_declaration fun j d d' ⟨further, same⟩ => ?_
      subst same
      refine agree_unless (twins.sameError rfl rfl rfl) ?_
      refine agree_of_lt fun here' there' => ?_
      exact agree_mono (ih (by omega) (by omega) here' there') fun _ _ _ ⟨later, same⟩ =>
        ⟨by omega, same⟩

theorem agree_document : Agree o i document document (From i) :=
  agree_bound fun _ _ left right => agree_declarationsFrom left right

/-- An expression and nothing after it. -/
theorem agree_only_expression :
    let only : Parser Expr := do
      let e ← expression
      endOfInput
      return e
    Agree o i only only (From i) := by
  refine agree_bind agree_expression fun j e e' ⟨further, same⟩ => ?_
  refine agree_bind agree_endOfInput fun k _ _ ⟨later, _⟩ => ?_
  exact agree_pure ⟨by omega, same⟩

/-! ## Whole texts -/

theorem State.At.of_next {stream ahead : TokenStream} {t : Token}
    (next : stream.next = (.ok t, ahead)) (scope : Table FieldType) :
    State.At stream.outline 0 ⟨t, ahead, scope⟩ := by
  rcases TokenStream.outline_of_next_ok next with ⟨here, later⟩ | here
  · exact ⟨by rw [here]; rfl, by rw [here, later]; rfl⟩
  · have some := List.length_pos_iff.mpr ahead.outline_ne_nil
    refine ⟨by rw [here]; rfl, ?_⟩
    have second : following stream.outline 0 = 1 := by
      unfold following
      rw [here, List.length_cons]
      omega
    rw [second, here]
    rfl

/-- Streams that show the same give the same outcome. -/
theorem runFrom_same {a b : TokenStream} (proper : a.Proper)
    (same : a.outline.map ScanResult.said = b.outline.map ScanResult.said) {p : Parser α}
    (agree : ∀ o, Agree o 0 p p (From 0)) :
    SameOutcome a.outline b.outline (runFrom p a) (runFrom p b) := by
  let o : Pair := ⟨a.outline, b.outline, same, fun t => proper.outline_ends⟩
  have first {stream ahead : TokenStream} {e : ScanError} (next : stream.next = (.error e, ahead)) :
      stream.outline[0]? = some (.error e) := by
    rw [TokenStream.outline_of_next_error next]
    rfl
  unfold runFrom
  rcases left : a.next with ⟨_ | t, ahead⟩ <;> rcases right : b.next with ⟨_ | u, ahead'⟩
  · exact .error (sameError_scan (o := o) (first left) (first right))
  · cases Pair.said_eq (o := o) (first left) (State.At.of_next right .empty).current
  · cases Pair.said_eq (o := o) (State.At.of_next left .empty).current (first right)
  · have run := agree o ⟨t, ahead, .empty⟩ ⟨u, ahead', .empty⟩
      ⟨.of_next left .empty, .of_next right .empty, rfl⟩
    dsimp only
    generalize p ⟨t, ahead, .empty⟩ = x at run
    generalize p ⟨u, ahead', .empty⟩ = y at run
    cases run with
    | @ok j v w s s' _ related =>
      cases related.2
      exact .ok v
    | error same => exact .error same

end Parser

open Rulebook.Parser

/-- Layout and comments do not matter. Texts whose scans say the same, comments left out and up to the
first error, have the same document or errors that differ in their places only; each error is at the
result with the same number. So it is with expressions. -/
theorem layout_immaterial {a b : String}
    (same : (Scanner.outline a).map ScanResult.said = (Scanner.outline b).map ScanResult.said) :
    (SameOutcome (Scanner.outline a) (Scanner.outline b) (Document.parse a) (Document.parse b) ∧
      (Compiler.parse a).mapError CompileError.placeless =
        (Compiler.parse b).mapError CompileError.placeless) ∧
    SameOutcome (Scanner.outline a) (Scanner.outline b) (Expr.parse a) (Expr.parse b) ∧
      (Compiler.parseExpr a).mapError CompileError.placeless =
        (Compiler.parseExpr b).mapError CompileError.placeless := by
  have outcome {α : Type} {p : Parser α} (agree : ∀ o, Agree o 0 p p (From 0)) :
      SameOutcome (Scanner.outline a) (Scanner.outline b) (p.runOn a) (p.runOn b) := by
    rw [runOn_eq_runFrom, runOn_eq_runFrom, ← TokenStream.outline_ofString,
      ← TokenStream.outline_ofString]
    refine runFrom_same (TokenStream.ofString_proper a) ?_ agree
    rw [TokenStream.outline_ofString, TokenStream.outline_ofString]
    exact same
  have documents := outcome fun _ => agree_document
  have expressions := outcome fun _ => agree_only_expression
  exact ⟨⟨documents, documents.placeless_eq⟩, expressions, expressions.placeless_eq⟩

/-- A text that is refused, in two layouts. -/
theorem layout_immaterial_refused :
    SameOutcome (Scanner.outline "object x { }") (Scanner.outline "# no fields\nobject\n  x { }")
      (Document.parse "object x { }") (Document.parse "# no fields\nobject\n  x { }") ∧
    Document.parse "object x { }" =
      .error (.unexpected .identifier ⟨⟨.delimiter .rightBrace, ""⟩, ⟨1, 12⟩⟩) ∧
    Document.parse "# no fields\nobject\n  x { }" =
      .error (.unexpected .identifier ⟨⟨.delimiter .rightBrace, ""⟩, ⟨3, 7⟩⟩) :=
  ⟨(layout_immaterial (by cbv)).1.1, by cbv, by cbv⟩

end Rulebook
