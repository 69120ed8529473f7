import Rulebook.Proofs.Parser.Layout
import Rulebook.Proofs.Token.Places

/-!
# The first error

Two texts that have their first tokens in common are parsed side by side, until one run looks past
the last of these tokens. `Local` says of a parser that up to there both runs do the same, and that
from there on each run fails further on only. So an error at a token of the common part is found in
both texts.

Some errors are late: the parser moves past their token first. Then an error of the scanner that
comes next is reported in their place.
-/

namespace Rulebook

namespace ParseError

/-- The error is about one token, which stands where it should not. -/
def isMisplaced : ParseError → Bool
  | unexpected _ _ | integer _ _ | notBinary _ _ => true
  | scan _ | duplicate _ _ _ => false

/-- The error is found after the parser has moved past its token. -/
def isLate : ParseError → Bool
  | unexpected .literal _ | integer _ _ | notBinary _ _ => true
  | unexpected _ _ | scan _ | duplicate _ _ _ => false

/-- The error is at the token with this number. -/
def AtToken (outline : List ScanResult) (i : Nat) (e : ParseError) : Prop :=
  ∃ t, outline[i]? = some (.ok t) ∧ e.position = t.position

end ParseError

/-- Errors that say the same about one and the same result are equal. -/
theorem SameError.eq {outline : List ScanResult} {e e' : ParseError}
    (same : SameError outline outline e e') : e = e' := by
  obtain ⟨i, left, right⟩ := same.place
  have position : e.position = e'.position := Option.some.inj (left.symm.trans right)
  have placeless := same.placeless
  cases e <;> cases e' <;>
    grind [ParseError.placeless, ParseError.position, cases Token, cases ScanError]

namespace Parser

variable {α β : Type} {outline : List ScanResult} {i j : Nat} {s : State}

/-! ## One run -/

/-- What a run comes to: a value or an error, and a state. -/
abbrev Outcome (α : Type) := EStateM.Result ParseError State α

/-- A run that goes on from where another ends. -/
def Outcome.andThen (x : Outcome α) (f : α → Parser β) : Outcome β :=
  match x with
  | .ok v s => f v s
  | .error e s => .error e s

theorem bind_apply_andThen (p : Parser α) (f : α → Parser β) (s : State) :
    (p >>= f) s = Outcome.andThen (p s) f := by
  change EStateM.bind p f s = _
  unfold EStateM.bind Outcome.andThen
  cases p s <;> rfl

/-- The run comes to this result or further on if it succeeds, and a token that it refuses is there
too. -/
inductive Ahead (outline : List ScanResult) (i : Nat) : Outcome α → Prop
  | ok {v : α} {s : State} {j : Nat} : i ≤ j → s.At outline j → Ahead outline i (.ok v s)
  | error {e : ParseError} {s : State} :
      (e.isMisplaced = true → ∃ j, i ≤ j ∧ e.AtToken outline j) → Ahead outline i (.error e s)

/-- The parser never goes back. -/
def Forward (p : Parser α) : Prop :=
  ∀ (outline : List ScanResult) (i : Nat) (s : State), s.At outline i → Ahead outline i (p s)

theorem Ahead.mono {x : Outcome α} (ahead : Ahead outline j x) (le : i ≤ j) :
    Ahead outline i x := by
  cases ahead with
  | ok le' at_ => exact .ok (le.trans le') at_
  | error place =>
    refine .error fun misplaced => ?_
    obtain ⟨k, le', here⟩ := place misplaced
    exact ⟨k, le.trans le', here⟩

theorem Ahead.scan {e : ScanError} : Ahead outline i (.error (.scan e) s : Outcome α) :=
  .error nofun

theorem Ahead.andThen {x : Outcome α} {f : α → Parser β} (first : Ahead outline i x)
    (later : ∀ v, Forward (f v)) : Ahead outline i (x.andThen f) := by
  cases first with
  | ok le at_ => exact (later _ _ _ _ at_).mono le
  | error place => exact .error place

theorem le_following (at_ : s.At outline i) : i ≤ following outline i := by
  have := at_.lt
  unfold following
  omega

theorem State.At.next_result (at_ : s.At outline i) :
    outline[following outline i]? = some s.ahead.next.1 := by
  rcases next : s.ahead.next with ⟨e | t, ahead⟩
  · exact at_.next_error next
  · exact (at_.next_ok next s.scope).current

/-! ## Two runs -/

/-- Two outlines that are the same up to a token, which is not the end of either. -/
structure Fork where
  left : List ScanResult
  right : List ScanResult
  /-- The number of the last token that they have in common. -/
  last : Nat
  same : ∀ i ≤ last, left[i]? = right[i]?
  moreLeft : last + 1 < left.length
  moreRight : last + 1 < right.length
  endsLeft : ∀ t, left.getLast? = some (.ok t) → t.kind = .endOfInput
  endsRight : ∀ t, right.getLast? = some (.ok t) → t.kind = .endOfInput

/-- A late error at a token is not reported if the scanner fails right after the token. -/
def overtaken (outline : List ScanResult) (i : Nat) (e : ParseError) : ParseError :=
  match outline[i + 1]? with
  | some (.error e') => .scan e'
  | _ => e

theorem overtaken_of_error {e : ParseError} {e' : ScanError}
    (error : outline[i + 1]? = some (.error e')) : overtaken outline i e = .scan e' := by
  unfold overtaken
  rw [error]

theorem overtaken_eq_iff {e : ParseError} (misplaced : e.isMisplaced = true) :
    overtaken outline i e = e ↔ ¬ ∃ e', outline[i + 1]? = some (.error e') := by
  constructor
  · rintro same ⟨e', error⟩
    rw [overtaken_of_error error] at same
    rw [← same] at misplaced
    cases misplaced
  · intro none
    unfold overtaken
    split
    · exact absurd ⟨_, ‹_›⟩ none
    · rfl

theorem overtaken_of_isMisplaced {e : ParseError}
    (misplaced : (overtaken outline i e).isMisplaced = true) : overtaken outline i e = e := by
  unfold overtaken at misplaced ⊢
  split at misplaced
  · cases misplaced
  · rfl

/-- Two states at one place of the common part, with the same variables in scope. -/
structure Abreast (o : Fork) (i : Nat) (s t : State) : Prop where
  inside : i ≤ o.last
  left : s.At o.left i
  right : t.At o.right i
  scope : s.scope = t.scope

/-- Two runs come to the same before the last common token or at it. Otherwise a late error at that
token is reported as far as each text lets it be, or both runs are behind the token. -/
inductive Parallel (o : Fork) : Outcome α → Outcome α → Prop
  | ok {v : α} {s t : State} {j : Nat} : Abreast o j s t → Parallel o (.ok v s) (.ok v t)
  | error {e : ParseError} {s t : State} :
      (e.isLate = true → ∃ j < o.last, e.AtToken o.left j) → Parallel o (.error e s) (.error e t)
  | late {e : ParseError} {s t : State} : e.isLate = true →
      Parallel o (.error (overtaken o.left o.last e) s) (.error (overtaken o.right o.last e) t)
  | beyond {x y : Outcome α} : Ahead o.left (o.last + 1) x → Ahead o.right (o.last + 1) y →
      Parallel o x y

/-- What the parser does at a token does not depend on what follows the token. -/
structure Local (p : Parser α) : Prop where
  forward : Forward p
  parallel : ∀ (o : Fork) (i : Nat) (s t : State), Abreast o i s t → Parallel o (p s) (p t)

theorem Parallel.andThen {o : Fork} {x y : Outcome α} {f : α → Parser β} (first : Parallel o x y)
    (later : ∀ v, Local (f v)) : Parallel o (x.andThen f) (y.andThen f) := by
  cases first with
  | ok abreast => exact (later _).parallel o _ _ _ abreast
  | error place => exact .error place
  | late late => exact .late late
  | beyond left right =>
    exact .beyond (left.andThen fun v => (later v).forward)
      (right.andThen fun v => (later v).forward)

namespace Abreast

variable {o : Fork} {t : State}

theorem current (abreast : Abreast o i s t) : s.current = t.current := by
  have same := o.same i abreast.inside
  rw [abreast.left.current, abreast.right.current] at same
  exact Except.ok.inj (Option.some.inj same)

theorem following_left (abreast : Abreast o i s t) : following o.left i = i + 1 := by
  have := abreast.inside
  have := o.moreLeft
  unfold following
  omega

theorem following_right (abreast : Abreast o i s t) : following o.right i = i + 1 := by
  have := abreast.inside
  have := o.moreRight
  unfold following
  omega

theorem eq_last (abreast : Abreast o i s t) (notBefore : ¬ i < o.last) : i = o.last :=
  Nat.le_antisymm abreast.inside (Nat.le_of_not_lt notBefore)

/-- Before the last common token both runs come to the same next. -/
theorem next_same (abreast : Abreast o i s t) (before : i < o.last) :
    (∃ e ahead ahead', s.ahead.next = (.error e, ahead) ∧ t.ahead.next = (.error e, ahead')) ∨
    ∃ u ahead ahead', s.ahead.next = (.ok u, ahead) ∧ t.ahead.next = (.ok u, ahead') ∧
      Abreast o (i + 1) { s with current := u, ahead }
        { t with current := u, ahead := ahead' } := by
  have first := abreast.left.next_result
  have second := abreast.right.next_result
  rw [abreast.following_left] at first
  rw [abreast.following_right, ← o.same (i + 1) before, first] at second
  rcases left : s.ahead.next with ⟨e | u, ahead⟩ <;>
    rcases right : t.ahead.next with ⟨r, ahead'⟩ <;>
    rw [left, right] at second <;> cases second
  · exact .inl ⟨e, ahead, ahead', rfl, rfl⟩
  · have atLeft := abreast.left.next_ok left s.scope
    have atRight := abreast.right.next_ok right t.scope
    rw [abreast.following_left] at atLeft
    rw [abreast.following_right] at atRight
    exact .inr ⟨u, ahead, ahead', rfl, rfl, before, atLeft, atRight, abreast.scope⟩

end Abreast

/-! ## Steps -/

section Steps

variable {p q : Parser α} {f : α → Parser β}

theorem local_pure (v : α) : Local (pure v) where
  forward _ _ _ at_ := .ok (Nat.le_refl _) at_
  parallel _ _ _ _ abreast := .ok abreast

theorem local_bind (hp : Local p) (hf : ∀ v, Local (f v)) : Local (p >>= f) where
  forward outline i s at_ := by
    rw [bind_apply_andThen]
    exact (hp.forward outline i s at_).andThen fun v => (hf v).forward
  parallel o i s t abreast := by
    rw [bind_apply_andThen, bind_apply_andThen]
    exact (hp.parallel o i s t abreast).andThen hf

theorem local_ite {c : Prop} [Decidable c] (hp : Local p) (hq : Local q) :
    Local (if c then p else q) := by
  split
  · exact hp
  · exact hq

theorem local_current : Local current where
  forward _ _ _ at_ := .ok (Nat.le_refl _) at_
  parallel o i s t abreast := by
    change Parallel o (.ok s.current s) (.ok t.current t)
    rw [abreast.current]
    exact .ok abreast

theorem local_unexpected {expected : Expected} (early : expected ≠ .literal) :
    Local (unexpected expected : Parser α) where
  forward outline i s at_ := .error fun _ => ⟨i, Nat.le_refl i, s.current, at_.current, rfl⟩
  parallel o i s t abreast := by
    unfold unexpected
    rw [abreast.current]
    refine .error fun late => ?_
    cases expected <;> first | exact absurd rfl early | cases late

/-- Errors that are about no single token are the same in both runs. -/
theorem local_throw {e : ParseError} (placed : e.isMisplaced = false) (early : e.isLate = false) :
    Local (throw e : Parser α) where
  forward _ _ _ _ := .error fun misplaced => by simp [placed] at misplaced
  parallel _ _ _ _ _ := .error fun late => by simp [early] at late

/-- A check that both runs pass or fail. -/
theorem local_unless {refused : Prop} [Decidable refused] {what : Declared} {name : String}
    {position : Position} {next : Unit → Parser α} (hnext : Local (next ())) :
    Local (if refused then throw (.duplicate what name position) >>= next else next ()) := by
  split
  · exact local_throw (e := .duplicate what name position) rfl rfl
  · exact hnext

theorem local_clearScope : Local clearScope where
  forward _ _ _ at_ := .ok (Nat.le_refl _) ⟨at_.current, at_.ahead⟩
  parallel _ _ _ _ abreast := .ok ⟨abreast.inside, ⟨abreast.left.current, abreast.left.ahead⟩,
    ⟨abreast.right.current, abreast.right.ahead⟩, rfl⟩

theorem local_declare (name : String) (type : FieldType) : Local (declare name type) where
  forward _ _ _ at_ := .ok (Nat.le_refl _) ⟨at_.current, at_.ahead⟩
  parallel _ _ _ _ abreast := by
    unfold declare
    rw [abreast.scope]
    exact .ok ⟨abreast.inside, ⟨abreast.left.current, abreast.left.ahead⟩,
      ⟨abreast.right.current, abreast.right.ahead⟩, rfl⟩

theorem local_resolve (name : String) : Local (resolve name) where
  forward outline i s at_ := by
    simp only [resolve, bind, EStateM.bind, get, getThe, MonadStateOf.get, EStateM.get]
    cases s.scope.find? name <;> exact .ok (Nat.le_refl _) at_
  parallel o i s t abreast := by
    simp only [resolve, bind, EStateM.bind, get, getThe, MonadStateOf.get, EStateM.get,
      abreast.scope]
    cases t.scope.find? name <;> exact .ok abreast

theorem advance_bind_apply (f : Token → Parser α) (s : State) :
    (advance >>= f) s = match s.ahead.next with
      | (.ok t, ahead) => f s.current { s with current := t, ahead }
      | (.error e, ahead) => .error (.scan e) { s with ahead } := by
  rw [bind_apply_andThen]
  unfold advance
  rcases s.ahead.next with ⟨e | t, ahead⟩ <;> rfl

/-- To move on leads past the current token, unless it is the last. -/
theorem ahead_advance_bind {f : Token → Parser α} (at_ : s.At outline i)
    (later : Forward (f s.current)) : Ahead outline (following outline i) ((advance >>= f) s) := by
  rw [advance_bind_apply]
  rcases next : s.ahead.next with ⟨e | t, ahead⟩
  · exact .scan
  · exact later _ _ _ (at_.next_ok next s.scope)

/-- A token that is refused only after the parser has moved on. -/
theorem advance_bind_late {f : Token → Parser α} {e : ParseError} (at_ : s.At outline i)
    (more : following outline i = i + 1) (refused : f s.current = throw e) :
    ∃ s', (advance >>= f) s = .error (overtaken outline i e) s' := by
  have result := at_.next_result
  rw [more] at result
  unfold overtaken
  rw [advance_bind_apply, result, refused]
  rcases s.ahead.next with ⟨e' | t, ahead⟩
  · exact ⟨_, rfl⟩
  · exact ⟨_, rfl⟩

/-- A step over a token, which may be refused after the step. -/
theorem local_advance_bind {f : Token → Parser α}
    (judged : ∀ t, Local (f t) ∨
      ∃ e : ParseError, f t = throw e ∧ e.isLate = true ∧ e.position = t.position) :
    Local (advance >>= f) where
  forward outline i s at_ := by
    rcases judged s.current with later | ⟨e, refused, _, place⟩
    · exact (ahead_advance_bind at_ later.forward).mono (le_following at_)
    · rw [advance_bind_apply]
      rcases s.ahead.next with ⟨e' | t, ahead⟩
      · exact .scan
      · dsimp only
        rw [refused]
        exact .error fun _ => ⟨i, Nat.le_refl i, s.current, at_.current, place⟩
  parallel o i s t abreast := by
    by_cases before : i < o.last
    · rw [advance_bind_apply, advance_bind_apply, ← abreast.current]
      rcases abreast.next_same before with ⟨e, ahead, ahead', left, right⟩ |
        ⟨u, ahead, ahead', left, right, next⟩
      · rw [left, right]
        exact .error nofun
      · rw [left, right]
        dsimp only
        rcases judged s.current with later | ⟨e, refused, _, place⟩
        · exact later.parallel o _ _ _ next
        · rw [refused]
          exact .error fun _ => ⟨i, before, s.current, abreast.left.current, place⟩
    · -- From the last common token the runs part: what comes next is each text's own.
      have last := abreast.eq_last before
      have moreLeft := abreast.following_left
      have moreRight := abreast.following_right
      rcases judged s.current with later | ⟨e, refused, late, _⟩
      · have left := ahead_advance_bind abreast.left later.forward
        have right := ahead_advance_bind abreast.right (abreast.current ▸ later.forward)
        rw [moreLeft, last] at left
        rw [moreRight, last] at right
        exact .beyond left right
      · obtain ⟨s', left⟩ := advance_bind_late abreast.left moreLeft refused
        obtain ⟨t', right⟩ := advance_bind_late abreast.right moreRight (abreast.current ▸ refused)
        rw [left, right, last]
        exact .late late

theorem local_advance : Local advance := by
  rw [← bind_pure advance]
  exact local_advance_bind fun t => .inl (local_pure t)

theorem local_expect (kind : Token.Kind) : Local (expect kind) :=
  local_bind local_current fun _ => local_ite local_advance (local_unexpected nofun)

end Steps

/-! ## Past an identifier -/

/-- A parser that takes an identifier fails only behind it. -/
structure Past (p : Parser α) : Prop extends Local p where
  past : ∀ (outline : List ScanResult) (i : Nat) (s : State), s.At outline i →
    s.current.kind = .identifier → Ahead outline (following outline i) (p s)

section Past

variable {p q : Parser α} {f : α → Parser β}

theorem past_bind (hp : Past p) (hf : ∀ v, Local (f v)) : Past (p >>= f) where
  toLocal := local_bind hp.toLocal hf
  past outline i s at_ identifier := by
    rw [bind_apply_andThen]
    exact (hp.past outline i s at_ identifier).andThen fun v => (hf v).forward

theorem past_current_bind {f : Token → Parser α} (hf : ∀ t, Local (f t))
    (taken : ∀ t, t.kind = .identifier → Past (f t)) : Past (current >>= f) where
  toLocal := local_bind local_current hf
  past outline i s at_ kind := (taken s.current kind).past outline i s at_ kind

theorem past_current_bind_all {f : Token → Parser α} (hf : ∀ t, Past (f t)) :
    Past (current >>= f) :=
  past_current_bind (fun t => (hf t).toLocal) fun t _ => hf t

theorem past_advance_bind {f : Token → Parser α} (whole : Local (advance >>= f))
    (taken : ∀ t, t.kind = .identifier → Local (f t)) : Past (advance >>= f) where
  toLocal := whole
  past _ _ s at_ kind := ahead_advance_bind at_ (taken s.current kind).forward

theorem past_identifier : Past identifier := by
  have named : Local (do return (← advance).literal : Parser String) :=
    local_bind local_advance fun t => local_pure t.literal
  refine past_current_bind (fun t => local_ite named (local_unexpected nofun)) fun t kind => ?_
  rw [if_pos kind]
  exact past_advance_bind named fun t _ => local_pure t.literal

theorem local_identifier : Local identifier := past_identifier.toLocal

theorem atInvocation_bind_apply (s : State) :
    (do if ← atInvocation then p else q) s =
      if s.current.kind = .identifier then
        match s.ahead.next with
        | (.ok t, _) => (if t.kind = .delimiter .leftParen then p else q) s
        | (.error e, ahead) => .error (.scan e) { s with ahead }
      else q s := by
  have run : atInvocation s = (if s.current.kind = .identifier then
      (do return (← peek).kind = .delimiter .leftParen : Parser Bool) else pure false) s := rfl
  rw [bind_apply_andThen, run]
  split
  · rw [bind_apply_andThen]
    unfold peek
    rcases s.ahead.next with ⟨e | t, ahead⟩
    · rfl
    · by_cases paren : t.kind = .delimiter .leftParen
      · simp [paren, Outcome.andThen, pure, EStateM.pure]
      · simp [paren, Outcome.andThen, pure, EStateM.pure]
  · simp [Outcome.andThen, pure, EStateM.pure]

/-- What stands behind an identifier decides between two parsers, but both of them take the
identifier. -/
theorem local_atInvocation_bind (hp : Past p) (hq : Past q) :
    Local (do if ← atInvocation then p else q) := by
  have chosen (t : Token) : Past (if t.kind = .delimiter .leftParen then p else q) := by
    split
    · exact hp
    · exact hq
  have past {outline : List ScanResult} {i : Nat} {s : State} (at_ : s.At outline i)
      (kind : s.current.kind = .identifier) :
      Ahead outline (following outline i) ((do if ← atInvocation then p else q) s) := by
    rw [atInvocation_bind_apply, if_pos kind]
    rcases s.ahead.next with ⟨e | t, ahead⟩
    · exact .scan
    · exact (chosen t).past outline i s at_ kind
  refine ⟨fun outline i s at_ => ?_, fun o i s t abreast => ?_⟩
  · by_cases kind : s.current.kind = .identifier
    · exact (past at_ kind).mono (le_following at_)
    · rw [atInvocation_bind_apply, if_neg kind]
      exact hq.forward outline i s at_
  · have same := abreast.current
    by_cases kind : s.current.kind = .identifier
    · by_cases before : i < o.last
      · rw [atInvocation_bind_apply, atInvocation_bind_apply, if_pos kind, if_pos (same ▸ kind)]
        rcases abreast.next_same before with ⟨e, ahead, ahead', left, right⟩ |
          ⟨u, ahead, ahead', left, right, _⟩
        · rw [left, right]
          exact .error nofun
        · rw [left, right]
          exact (chosen u).parallel o i s t abreast
      · -- The tokens behind the identifier may differ, and so may the choices.
        have left := past abreast.left kind
        have right := past abreast.right (same ▸ kind)
        rw [abreast.following_left, abreast.eq_last before] at left
        rw [abreast.following_right, abreast.eq_last before] at right
        exact .beyond left right
    · rw [atInvocation_bind_apply, atInvocation_bind_apply, if_neg kind, if_neg (same ▸ kind)]
      exact hq.parallel o i s t abreast

end Past

/-! ## Counts -/

/-- Two states that show the same. -/
structure State.Like (s t : State) : Prop where
  current : s.current = t.current
  ahead : s.ahead.outline = t.ahead.outline
  scope : s.scope = t.scope

theorem State.Like.at_ {t : State} (like : s.Like t) (at_ : s.At outline i) : t.At outline i where
  current := like.current ▸ at_.current
  ahead := like.ahead ▸ at_.ahead

/-- Two outcomes that cannot be told apart. -/
inductive Alike : Outcome α → Outcome α → Prop
  | ok {v : α} {s t : State} : s.Like t → Alike (.ok v s) (.ok v t)
  | error {e : ParseError} {s t : State} : Alike (.error e s) (.error e t)

/-- Two parsers that agree at a place of one outline. -/
theorem alike_of_agree {p q : Parser α}
    (ends : ∀ t, outline.getLast? = some (.ok t) → t.kind = .endOfInput)
    (agree : Agree ⟨outline, outline, rfl, ends⟩ i p q fun _ v w => v = w)
    (at_ : s.At outline i) : Alike (p s) (q s) := by
  have run := agree s s ⟨at_, at_, rfl⟩
  generalize p s = x at run
  generalize q s = y at run
  cases run with
  | ok beside same =>
    cases same
    refine .ok ⟨?_, beside.left.ahead.trans beside.right.ahead.symm, beside.scope⟩
    have here := beside.left.current.symm.trans beside.right.current
    exact Except.ok.inj (Option.some.inj here)
  | error same =>
    cases same.eq
    exact .error

theorem Ahead.alike {x y : Outcome α} (ahead : Ahead outline i x) (alike : Alike x y) :
    Ahead outline i y := by
  cases ahead with
  | ok le at_ =>
    cases alike with
    | ok like => exact .ok le (like.at_ at_)
  | error place =>
    cases alike with
    | error => exact .error place

theorem Parallel.alike {o : Fork} {x y x' y' : Outcome α} (parallel : Parallel o x y)
    (left : Alike x x') (right : Alike y y') : Parallel o x' y' := by
  cases parallel with
  | ok abreast =>
    cases left with
    | ok like =>
      cases right with
      | ok like' =>
        exact .ok ⟨abreast.inside, like.at_ abreast.left, like'.at_ abreast.right,
          like.scope.symm.trans (abreast.scope.trans like'.scope)⟩
  | error place =>
    cases left with
    | error =>
      cases right with
      | error => exact .error place
  | late late =>
    cases left with
    | error =>
      cases right with
      | error => exact .late late
  | beyond atLeft atRight => exact .beyond (atLeft.alike left) (atRight.alike right)

/-- The counts of the two runs differ, but both are enough. -/
theorem local_bound {f : Nat → Parser α} (hf : ∀ n, Local (f n))
    (enough : ∀ (o : Pair) (i m n : Nat), o.left.length ≤ i + m → o.right.length ≤ i + n →
      Agree o i (f m) (f n) fun _ v w => v = w) :
    Local (bound >>= f) where
  forward outline i s at_ := (hf s.bound).forward outline i s at_
  parallel o i s t abreast := by
    -- With one count for both runs they are parallel, and neither count can be told from it.
    let most := max s.bound t.bound
    have both : Parallel o (f most s) (f most t) := (hf most).parallel o i s t abreast
    have boundLeft := abreast.left.le_bound
    have boundRight := abreast.right.le_bound
    have left : Alike (f most s) (f s.bound s) :=
      alike_of_agree o.endsLeft (enough _ i _ _ (by dsimp only; omega) boundLeft) abreast.left
    have right : Alike (f most t) (f t.bound t) :=
      alike_of_agree o.endsRight (enough _ i _ _ (by dsimp only; omega) boundRight) abreast.right
    exact both.alike left right

/-! ## Lists -/

theorem local_itemsFrom {item : List α → Parser α} (hitem : ∀ before, Local (item before))
    (steps : Nat) (before : List α) : Local (itemsFrom item steps before) := by
  induction steps generalizing before with
  | zero => exact local_unexpected nofun
  | succ steps ih =>
    refine local_bind (hitem before) fun a => local_bind local_current fun t => ?_
    split
    · exact local_bind local_advance fun _ => ih _
    · exact local_bind local_advance fun _ => local_pure _
    · exact local_unexpected nofun

section Braced

variable {item : List α → Parser α} (hitem : ∀ before, Local (item before))
  (agree : ∀ o i before, Agree o i (item before) (item before) (After i))

include hitem agree

theorem local_items : Local (do itemsFrom item (← bound) []) := by
  refine local_bound (fun n => local_itemsFrom hitem n []) fun o i m n left right => ?_
  exact agree_mono (agree_itemsFrom (agree o) left right) fun _ _ _ ⟨_, same⟩ => same

theorem local_bracedSome : Local (bracedSome item) :=
  local_bind (local_expect _) fun _ => local_items hitem agree

theorem local_bracedMany : Local (bracedMany item) :=
  local_bind (local_expect _) fun _ => local_bind local_current fun _ =>
    local_ite (local_bind local_advance fun _ => local_pure _) (local_items hitem agree)

end Braced

/-! ## Expressions -/

theorem past_literal : Past literal := by
  refine past_advance_bind (local_advance_bind fun t => ?_) fun t kind => ?_
  · split
    · exact .inl (local_resolve _)
    · split
      · exact .inl (local_pure _)
      · exact .inr ⟨_, rfl, rfl, rfl⟩
    · exact .inl (local_pure _)
    · exact .inl (local_pure _)
    · exact .inr ⟨_, rfl, rfl, rfl⟩
  · rw [kind]
    exact local_resolve _

theorem local_binaryOperator (op : Operator) : Local (binaryOperator op) := by
  refine local_advance_bind fun t => ?_
  split
  · exact .inl (local_pure _)
  · exact .inr ⟨_, rfl, rfl, rfl⟩

theorem past_operand {group : Parser Node} (hgroup : Local group) : Past (operand group) := by
  have leaf : Past (do return .term (← literal) : Parser Node) :=
    past_bind past_literal fun _ => local_pure _
  refine past_current_bind (fun t => ?_) fun t kind => ?_
  · split
    · exact local_bind local_advance fun _ => local_bind hgroup fun _ =>
        local_bind (local_expect _) fun _ => local_pure _
    · exact local_ite leaf.toLocal (local_unexpected nofun)
  · rw [kind]
    exact leaf

theorem local_chainFrom {operand : Parser Node} (hoperand : Local operand) (steps : Nat)
    (tree : ChainTree) : Local (chainFrom operand steps tree) := by
  induction steps generalizing tree with
  | zero => exact local_pure tree
  | succ steps ih =>
    refine local_bind local_current fun t => ?_
    split
    · exact local_bind (local_binaryOperator _) fun _ => local_bind hoperand fun _ => ih _
    · exact local_pure _

theorem local_chainWithin (steps : Nat) : Local (chainWithin steps) := by
  induction steps with
  | zero => exact local_unexpected nofun
  | succ steps ih =>
    have operands := (past_operand ih).toLocal
    exact local_bind operands fun _ =>
      local_bind (local_chainFrom operands _ _) fun _ => local_pure _

theorem past_chainWithin (steps : Nat) : Past (chainWithin (steps + 1)) := by
  have operands := past_operand (local_chainWithin steps)
  exact past_bind operands fun _ =>
    local_bind (local_chainFrom operands.toLocal _ _) fun _ => local_pure _

theorem past_chain : Past chain where
  toLocal := local_bound local_chainWithin fun _ _ _ _ left right =>
    agree_mono (agree_chainWithin left right) fun _ _ _ ⟨_, same⟩ => same
  past outline i s at_ kind := (past_chainWithin _).past outline i s at_ kind

theorem local_argumentsFrom (steps : Nat) (before : List Node) :
    Local (argumentsFrom steps before) := by
  induction steps generalizing before with
  | zero => exact local_pure before
  | succ steps ih =>
    exact local_bind past_chain.toLocal fun _ => local_bind local_current fun _ =>
      local_ite (local_bind local_advance fun _ => ih _) (local_pure _)

theorem local_arguments : Local (do argumentsFrom (← bound) []) := by
  refine local_bound (fun n => local_argumentsFrom n []) fun o i m n left right => ?_
  exact agree_mono (agree_argumentsFrom left right) fun _ _ _ ⟨_, same⟩ => same

theorem past_invocation : Past invocation := by
  refine past_bind past_identifier fun functor => local_bind (local_expect _) fun _ => ?_
  have close (args : List Node) : Local (do
      let _ ← expect (.delimiter .rightParen)
      return ⟨functor, args⟩ : Parser Expr) :=
    local_bind (local_expect _) fun _ => local_pure _
  refine local_bind local_current fun _ => local_ite (close []) ?_
  simpa only [bind_assoc] using local_bind local_arguments close

theorem local_expression : Local expression := by
  refine local_atInvocation_bind past_invocation (past_bind past_chain fun node => ?_)
  split
  · exact local_pure _
  · exact local_unexpected nofun

/-! ## Declarations -/

theorem local_field : Local field :=
  local_bind local_identifier fun _ => local_bind (local_expect _) fun _ =>
    local_bind local_identifier fun _ => local_pure _

theorem local_fields (owner : String) : Local (fields owner) := by
  refine local_bracedSome (fun before => ?_) fun _ _ => agree_newField owner
  exact local_bind local_current fun _ => local_bind local_field fun _ =>
    local_unless (local_pure _)

theorem local_named_fields (make : String → List Field → α) : Local (do
    let name ← identifier
    return make name (← fields name)) :=
  local_bind local_identifier fun name => local_bind (local_fields name) fun _ => local_pure _

theorem local_param : Local param :=
  local_bind local_current fun _ => local_bind local_field fun _ =>
    local_bind (local_declare _ _) fun _ => local_unless (local_pure _)

theorem local_rule : Local rule :=
  local_bind local_clearScope fun _ => local_bind local_identifier fun _ =>
    local_bind (local_expect _) fun _ => local_bind (local_expect _) fun _ =>
    local_bind (local_bracedMany (fun _ => local_param) fun _ _ _ => agree_param) fun _ =>
    local_bind (local_expect _) fun _ =>
    local_bind (local_bracedMany (fun _ => local_expression) fun _ _ _ => agree_expression) fun _ =>
    local_bind (local_expect _) fun _ => local_bind local_clearScope fun _ => local_pure _

theorem local_assignment (owner : String) (before : List (String × Term)) :
    Local (assignment owner before) :=
  local_bind local_current fun _ => local_bind local_identifier fun _ =>
    local_bind (local_expect _) fun _ => local_bind past_literal.toLocal fun _ =>
    local_unless (local_pure _)

theorem past_instantiation : Past instantiation := by
  refine past_current_bind_all fun _ => past_bind past_identifier fun name => ?_
  exact local_bind (local_expect _) fun _ => local_bind local_identifier fun _ =>
    local_bind (local_bracedSome (local_assignment name) fun _ _ => agree_assignment name) fun _ =>
    local_bind (local_declare _ _) fun _ => local_unless (local_pure _)

theorem local_fact : Local fact := local_atInvocation_bind past_invocation past_instantiation

theorem local_testName : Local testName := by
  refine local_bind local_current fun t => ?_
  split
  · exact local_bind local_advance fun _ => local_pure _
  · exact local_bind local_advance fun _ => local_pure _
  · exact local_unexpected nofun

theorem local_test : Local test :=
  local_bind local_clearScope fun _ => local_bind local_testName fun _ =>
    local_bind (local_expect _) fun _ => local_bind (local_expect _) fun _ =>
    local_bind (local_bracedMany (fun _ => local_fact) fun _ _ _ => agree_fact) fun _ =>
    local_bind (local_expect _) fun _ =>
    local_bind (local_bracedMany (fun _ => past_invocation.toLocal) fun _ _ _ => agree_invocation)
      fun _ => local_bind (local_expect _) fun _ =>
    local_bind local_clearScope fun _ => local_pure _

theorem local_declaration : Local declaration := by
  refine local_bind local_current fun t => ?_
  split
  · exact local_bind local_advance fun _ => local_bind (local_named_fields Object.mk) fun _ =>
      local_pure _
  · exact local_bind local_advance fun _ => local_bind (local_named_fields Relation.mk) fun _ =>
      local_pure _
  · exact local_bind local_advance fun _ => local_bind local_rule fun _ => local_pure _
  · exact local_bind local_advance fun _ => local_bind local_test fun _ => local_pure _
  · exact local_unexpected nofun

theorem local_declarationsFrom (steps : Nat) (d : Document) :
    Local (declarationsFrom steps d) := by
  induction steps generalizing d with
  | zero => exact local_unexpected nofun
  | succ steps ih =>
    exact local_bind local_current fun _ => local_ite (local_pure _)
      (local_bind local_declaration fun _ => local_unless (ih _))

theorem local_document : Local document :=
  local_bound (fun n => local_declarationsFrom n {}) fun _ _ _ _ left right =>
    agree_mono (agree_declarationsFrom left right) fun _ _ _ ⟨_, same⟩ => same

/-! ## Whole texts -/

/-- If one run fails at the last common token so does the other, in the way that its text allows. -/
theorem Parallel.reported {o : Fork} {e : ParseError} {y : Outcome α}
    (parallel : Parallel o (.error e s) y) (misplaced : e.isMisplaced = true)
    (here : ∀ j, e.AtToken o.left j → j = o.last) :
    ∃ t, y = .error (if e.isLate then overtaken o.right o.last e else e) t := by
  generalize failed : (.error e s : Outcome α) = x at parallel
  cases parallel with
  | ok => cases failed
  | error place =>
    cases failed
    have early : ¬ e.isLate = true := by
      intro late
      obtain ⟨j, before, there⟩ := place late
      have := here j there
      omega
    exact ⟨_, by rw [if_neg early]⟩
  | @late e₀ _ _ late =>
    have shown : e = overtaken o.left o.last e₀ := (EStateM.Result.error.inj failed).1
    have reported : e = e₀ := shown.trans (overtaken_of_isMisplaced (shown ▸ misplaced))
    subst reported
    exact ⟨_, by rw [if_pos late]⟩
  | beyond behind _ =>
    cases failed
    cases behind with
    | error place =>
      obtain ⟨j, further, there⟩ := place misplaced
      have := here j there
      omega

/-- Runs from the start are abreast: the first results of the two texts are the same. -/
theorem exists_abreast (o : Fork) {a b ahead : TokenStream} {t : Token} (left : a.outline = o.left)
    (right : b.outline = o.right) (first : a.next = (.ok t, ahead)) :
    ∃ ahead', b.next = (.ok t, ahead') ∧
      Abreast o 0 ⟨t, ahead, .empty⟩ ⟨t, ahead', .empty⟩ := by
  have atLeft := State.At.of_next first .empty
  have same := o.same 0 (Nat.zero_le _)
  rw [← left, ← right, atLeft.current] at same
  rcases second : b.next with ⟨e | t', ahead'⟩
  · rw [TokenStream.outline_of_next_error second] at same
    cases same
  · have atRight := State.At.of_next second .empty
    rw [atRight.current] at same
    cases same
    exact ⟨ahead', rfl, Nat.zero_le _, left ▸ atLeft, right ▸ atRight, rfl⟩

theorem runFrom_parallel (o : Fork) {a b : TokenStream} (left : a.outline = o.left)
    (right : b.outline = o.right) {p : Parser α} (hp : Local p) {e : ParseError}
    (failed : runFrom p a = .error e) (misplaced : e.isMisplaced = true)
    (here : ∀ j, e.AtToken o.left j → j = o.last) :
    runFrom p b = .error (if e.isLate then overtaken o.right o.last e else e) := by
  unfold runFrom at failed ⊢
  rcases first : a.next with ⟨e' | t, ahead⟩
  · rw [first] at failed
    cases failed
    cases misplaced
  · obtain ⟨ahead', second, abreast⟩ := exists_abreast o left right first
    have run := hp.parallel o 0 _ _ abreast
    rw [first] at failed
    rw [second]
    dsimp only at failed ⊢
    generalize p ⟨t, ahead, .empty⟩ = x at run failed
    cases x with
    | ok v s => cases failed
    | error e' s =>
      cases failed
      obtain ⟨s', outcome⟩ := run.reported misplaced here
      rw [outcome]

end Parser

/-- The last token of a text, comments left out. -/
def IsLastToken (text : String) (t : Token) : Prop :=
  (Scanner.outline text).dropLast.getLast? = some (.ok t)

/-- What the scan of a text that goes on shows behind the tokens that the text had before. -/
def Scanner.resultAfter (text more : String) : Option ScanResult :=
  (outline (text ++ more))[(outline text).length - 1]?

open Rulebook.Parser

/-- Texts that have their tokens in common, up to the last of `u`. -/
theorem exists_fork {u r₁ r₂ : String} {t : Token} (starts₁ : StartsLine r₁)
    (starts₂ : StartsLine r₂) (last : IsLastToken u t) :
    ∃ o : Fork, o.left = Scanner.outline (u ++ r₁) ∧ o.right = Scanner.outline (u ++ r₂) ∧
      o.left[o.last]? = some (.ok t) ∧ Scanner.resultAfter u r₂ = o.right[o.last + 1]? := by
  obtain ⟨tokens, common⟩ := List.getLast?_eq_some_iff.mp last
  obtain ⟨later₁, some₁, left⟩ := Scanner.outline_goesOn u starts₁
  obtain ⟨later₂, some₂, right⟩ := Scanner.outline_goesOn u starts₂
  rw [common, List.append_assoc] at left right
  have ends (text : String) (t : Token) (last : (Scanner.outline text).getLast? = some (.ok t)) :
      t.kind = .endOfInput := by
    rw [← TokenStream.outline_ofString] at last
    exact (TokenStream.ofString_proper text).outline_ends last
  refine ⟨⟨_, _, tokens.length, fun i inside => ?_, ?_, ?_, ends (u ++ r₁), ends (u ++ r₂)⟩,
    rfl, rfl, ?_, ?_⟩
  · rw [left, right]
    rcases Nat.lt_or_eq_of_le inside with before | rfl
    · rw [List.getElem?_append_left before, List.getElem?_append_left before]
    · simp
  · have := List.length_pos_iff.mpr some₁
    simp [left, this]
  · have := List.length_pos_iff.mpr some₂
    simp [right, this]
  · simp [left]
  · have size := congrArg List.length common
    rw [List.length_dropLast, List.length_append, List.length_singleton] at size
    rw [Scanner.resultAfter, size]

/-- The first error is reported. Let `u` go on on a new line in two ways. If one of the texts is
refused at the last token of `u`, so is the other, with the same error. There is one exception: an
error that is found late gives way to an error of the scanner right behind its token. -/
theorem first_error_reported {u r₁ r₂ : String} {t : Token} {e : ParseError}
    (starts₁ : StartsLine r₁) (starts₂ : StartsLine r₂) (last : IsLastToken u t)
    (failed : Document.parse (u ++ r₁) = .error e) (misplaced : e.isMisplaced = true)
    (place : e.position = t.position) :
    (Document.parse (u ++ r₂) = .error e ↔
      ¬ (e.isLate = true ∧ ∃ e', Scanner.resultAfter u r₂ = some (.error e'))) ∧
    ∀ e', e.isLate = true → Scanner.resultAfter u r₂ = some (.error e') →
      Document.parse (u ++ r₂) = .error (.scan e') := by
  obtain ⟨o, left, right, there, next⟩ := exists_fork starts₁ starts₂ last
  -- The position tells the number of the token.
  have here (j : Nat) (at_ : e.AtToken o.left j) : j = o.last := by
    obtain ⟨t', token, place'⟩ := at_
    rw [left] at token there
    exact Scanner.outline_place_inj token there (place'.symm.trans place)
  have outcome : Document.parse (u ++ r₂) =
      .error (if e.isLate then overtaken o.right o.last e else e) := by
    unfold Document.parse at failed ⊢
    rw [runOn_eq_runFrom] at failed ⊢
    refine runFrom_parallel o ?_ ?_ local_document failed misplaced here
    · rw [TokenStream.outline_ofString, left]
    · rw [TokenStream.outline_ofString, right]
  rw [next, outcome]
  constructor
  · rw [Except.error.injEq]
    by_cases late : e.isLate = true
    · rw [if_pos late, overtaken_eq_iff misplaced]
      simp [late]
    · simp [late]
  · intro e' late error
    rw [if_pos late, overtaken_of_error error]

/-- An error that is found in time, and one that is found late. -/
theorem first_error_reported_twice :
    (Document.parse ("rule\n1" ++ "") =
      .error (.unexpected .identifier ⟨⟨.int, "1"⟩, ⟨2, 1⟩⟩) ∧
    Document.parse ("rule\n1" ++ "\n@") =
      .error (.unexpected .identifier ⟨⟨.int, "1"⟩, ⟨2, 1⟩⟩)) ∧
    Document.parse ("rule r \x7b input { } rules \x7b a !" ++ "") =
      .error (.notBinary .bang ⟨1, 30⟩) ∧
    Document.parse ("rule r \x7b input { } rules \x7b a !" ++ "\n@") =
      .error (.scan ⟨.unexpected '@', ⟨2, 1⟩⟩) := by
  have starts : StartsLine "" ∧ StartsLine "\n@" := by decide
  have early : Document.parse ("rule\n1" ++ "") =
      .error (.unexpected .identifier ⟨⟨.int, "1"⟩, ⟨2, 1⟩⟩) := by cbv
  have late : Document.parse ("rule r \x7b input { } rules \x7b a !" ++ "") =
      .error (.notBinary .bang ⟨1, 30⟩) := by cbv
  refine ⟨⟨early, ?_⟩, late, ?_⟩
  · refine (first_error_reported starts.1 starts.2 (t := ⟨⟨.int, "1"⟩, ⟨2, 1⟩⟩) ?_ early rfl
      rfl).1.mpr ?_
    · cbv
    · rintro ⟨late, _⟩
      cases late
  · refine (first_error_reported starts.1 starts.2 (t := ⟨⟨.operator .bang, ""⟩, ⟨1, 30⟩⟩) ?_ late
      rfl rfl).2 _ rfl ?_
    · cbv
    · cbv

/-- A late error is not reported if what follows its token is no token. -/
theorem late_error_overtaken :
    ¬ ∀ (u r₁ r₂ : String) (t : Token) (e : ParseError), StartsLine r₁ → StartsLine r₂ →
      IsLastToken u t → Document.parse (u ++ r₁) = .error e → e.isMisplaced = true →
      e.position = t.position → Document.parse (u ++ r₂) = .error e := by
  intro always
  have starts : StartsLine "" ∧ StartsLine "\n@" := by decide
  have last : IsLastToken "rule r \x7b input { } rules \x7b a !"
      ⟨⟨.operator .bang, ""⟩, ⟨1, 30⟩⟩ := by cbv
  have late : Document.parse ("rule r \x7b input { } rules \x7b a !" ++ "") =
      .error (.notBinary .bang ⟨1, 30⟩) := by cbv
  have overtaken : Document.parse ("rule r \x7b input { } rules \x7b a !" ++ "\n@") =
      .error (.scan ⟨.unexpected '@', ⟨2, 1⟩⟩) := by cbv
  have same := always _ "" "\n@" _ _ starts.1 starts.2 last late rfl rfl
  rw [overtaken] at same
  cases same

end Rulebook
