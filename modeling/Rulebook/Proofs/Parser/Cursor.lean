import Rulebook.Parser.Document
import Rulebook.Proofs.Token.Scanned

/-!
# What parsers read

A cursor is what a parser state says about the text: the current token and the results after it.
`Reads c ts c'` says that the tokens `ts` stand between two cursors. Every statement about a parser
that succeeds has this form: it reads the tokens of a phrase and leaves the cursor behind them.
-/

namespace Rulebook

/-! ## Streams -/

namespace TokenStream

/-- All tokens are proper, and only the last result can be the end of the text. -/
structure Proper (stream : TokenStream) : Prop where
  pending : ∀ t, .ok t ∈ stream.pending → t.Proper ∧ t.kind ≠ .endOfInput
  last : ∀ t, stream.last = .ok t → t.kind = .endOfInput

theorem ofScanner_proper (s : Scanner) : (ofScanner s).Proper := by
  refine ⟨fun t member => ?_, fun t last => Scanner.results_last last⟩
  exact Scanner.proper_of_mem_results (List.mem_filter.mp member).1

theorem ofString_proper (text : String) : (ofString text).Proper := ofScanner_proper _

/-- Whatever comes next is proper, and so is all that follows. -/
theorem Proper.next {stream ahead : TokenStream} {t : Token} (proper : stream.Proper)
    (h : stream.next = (.ok t, ahead)) : t.Proper ∧ ahead.Proper := by
  unfold TokenStream.next at h
  split at h
  · simp only [Prod.mk.injEq] at h
    rcases h with ⟨last, rfl⟩
    have ends := proper.last t last
    exact ⟨⟨by simp [ends], by simp [ends]⟩, proper⟩
  · rename_i result pending more
    simp only [Prod.mk.injEq] at h
    rcases h with ⟨rfl, rfl⟩
    have all : ∀ u, .ok u ∈ Except.ok t :: pending → u.Proper ∧ u.kind ≠ .endOfInput := by
      rw [← more]
      exact proper.pending
    exact ⟨(all t (by simp)).1, fun u hu => all u (List.mem_cons_of_mem _ hu), proper.last⟩

end TokenStream

namespace Parser

/-! ## Places in a text -/

/-- A place in a scanned text: the token there and what follows it. -/
structure Cursor where
  current : Token
  ahead : TokenStream
  proper : current.Proper
  properAhead : ahead.Proper

namespace Cursor

/-- The parser state at this place. -/
def state (c : Cursor) (scope : Table FieldType) : State := ⟨c.current, c.ahead, scope⟩

theorem ext {c c' : Cursor} (current : c.current = c'.current) (ahead : c.ahead = c'.ahead) :
    c = c' := by
  cases c
  cases c'
  cases current
  cases ahead
  rfl

/-- The cursor is at the first result of a stream. -/
def Starts (stream : TokenStream) (c : Cursor) : Prop := stream.next = (.ok c.current, c.ahead)

/-- The place after the current token, where the scanner gives a token too. -/
def Next (c c' : Cursor) : Prop := c'.Starts c.ahead

theorem Starts.unique {stream : TokenStream} {c c' : Cursor} (h : c.Starts stream)
    (h' : c'.Starts stream) : c = c' := by
  have same := h.symm.trans h'
  simp only [Prod.mk.injEq, Except.ok.injEq] at same
  exact ext same.1 same.2

theorem exists_starts {stream ahead : TokenStream} {t : Token} (proper : stream.Proper)
    (h : stream.next = (.ok t, ahead)) : ∃ c : Cursor, c.current = t ∧ c.ahead = ahead := by
  obtain ⟨here, later⟩ := proper.next h
  exact ⟨⟨t, ahead, here, later⟩, rfl, rfl⟩

/-- A stream without errors gives a token. -/
theorem exists_starts_of_ok {stream : TokenStream} {ts : List Token} (proper : stream.Proper)
    (pending : stream.pending = ts.map .ok) (last : ∃ e, stream.last = .ok e) :
    ∃ c : Cursor, c.Starts stream := by
  rcases last with ⟨e, last⟩
  have gives : ∃ t ahead, stream.next = (.ok t, ahead) := by
    cases ts with
    | nil => exact ⟨e, stream, by simp [TokenStream.next, pending, last]⟩
    | cons t ts =>
      refine ⟨t, { stream with pending := ts.map .ok }, ?_⟩
      simp only [TokenStream.next, pending, List.map_cons]
  rcases gives with ⟨t, ahead, h⟩
  obtain ⟨c, rfl, rfl⟩ := exists_starts proper h
  exact ⟨c, h⟩

/-- How many tokens there are to read at most. -/
def size (c : Cursor) : Nat :=
  if c.current.kind = .endOfInput then 0 else c.ahead.pending.length + 1

theorem size_lt_bound (c : Cursor) (scope : Table FieldType) : c.size < (c.state scope).bound := by
  simp only [size, state, State.bound]
  split <;> omega

theorem Next.size_lt {c c' : Cursor} (h : c.Next c') (more : c.current.kind ≠ .endOfInput) :
    c'.size < c.size := by
  unfold Next Starts TokenStream.next at h
  split at h
  · simp only [Prod.mk.injEq] at h
    have ends := c.properAhead.last _ h.1
    simp [size, ends, more]
  · rename_i pending hp
    simp only [Prod.mk.injEq] at h
    have shorter : c'.ahead.pending = pending := by rw [← h.2]
    unfold size
    rw [if_neg more, hp, shorter, List.length_cons]
    split <;> omega

end Cursor

/-- The tokens between two places. -/
inductive Reads : Cursor → List Token → Cursor → Prop
  | nil {c : Cursor} : Reads c [] c
  | cons {c c' c'' : Cursor} {ts : List Token} :
      c.current.kind ≠ .endOfInput → c.Next c' → Reads c' ts c'' → Reads c (c.current :: ts) c''

namespace Reads

variable {c c' c'' : Cursor} {t : Token} {ts us : List Token}

@[simp] theorem nil_iff : Reads c [] c' ↔ c' = c := by
  constructor
  · intro h
    cases h
    rfl
  · rintro rfl
    exact .nil

theorem one_iff : Reads c [t] c' ↔ c.current = t ∧ t.kind ≠ .endOfInput ∧ c.Next c' := by
  constructor
  · intro h
    cases h with
    | cons more next rest =>
      cases rest
      exact ⟨rfl, more, next⟩
  · intro h
    rcases h with ⟨rfl, more, next⟩
    exact .cons more next .nil

theorem cons_iff : Reads c (t :: ts) c'' ↔ ∃ c', Reads c [t] c' ∧ Reads c' ts c'' := by
  constructor
  · intro h
    cases h with
    | cons more next rest => exact ⟨_, .cons more next .nil, rest⟩
  · intro h
    rcases h with ⟨c', first, rest⟩
    obtain ⟨rfl, more, next⟩ := one_iff.mp first
    exact .cons more next rest

theorem append_iff : Reads c (ts ++ us) c'' ↔ ∃ c', Reads c ts c' ∧ Reads c' us c'' := by
  induction ts generalizing c with
  | nil => simp
  | cons t ts ih =>
    rw [List.cons_append, cons_iff]
    constructor
    · intro h
      rcases h with ⟨d, first, rest⟩
      obtain ⟨c', hts, hus⟩ := ih.mp rest
      exact ⟨c', cons_iff.mpr ⟨d, first, hts⟩, hus⟩
    · intro h
      rcases h with ⟨c', h, hus⟩
      obtain ⟨d, first, hts⟩ := cons_iff.mp h
      exact ⟨d, first, ih.mpr ⟨c', hts, hus⟩⟩

theorem append (h : Reads c ts c') (h' : Reads c' us c'') : Reads c (ts ++ us) c'' :=
  append_iff.mpr ⟨c', h, h'⟩

theorem length_add_size (h : Reads c ts c') : ts.length + c'.size ≤ c.size := by
  induction h with
  | nil => simp
  | cons more next _ ih =>
    have := next.size_lt more
    rw [List.length_cons]
    omega

theorem length_le_size (h : Reads c ts c') : ts.length ≤ c.size := by
  have := h.length_add_size
  omega

theorem proper (h : Reads c ts c') : ∀ t ∈ ts, t.Proper := by
  induction h with
  | nil => simp
  | cons _ _ _ ih =>
    intro t member
    rcases List.mem_cons.mp member with rfl | member
    · exact Cursor.proper _
    · exact ih t member

theorem current_eq (h : Reads c (t :: ts) c') : c.current = t := by
  obtain ⟨_, first, _⟩ := cons_iff.mp h
  exact (one_iff.mp first).1

/-- Where there is something to read, the text has not come to its end. -/
theorem not_ends (h : Reads c ts c') (some : ts ≠ []) : c.current.kind ≠ .endOfInput := by
  cases h with
  | nil => exact absurd rfl some
  | cons more _ _ => exact more

end Reads

/-! ## First steps -/

variable {α β : Type} {c : Cursor} {scope : Table FieldType} {s s' : State}

/-- The parser succeeds: it gives a value and leaves a state. -/
def Yields (p : Parser α) (s : State) (a : α) (s' : State) : Prop := p s = .ok a s'

/-- A sequence succeeds if both of its steps do. -/
theorem yields_bind {p : Parser α} {f : α → Parser β} {b : β} :
    Yields (p >>= f) s b s' ↔ ∃ a s₁, Yields p s a s₁ ∧ Yields (f a) s₁ b s' := by
  change EStateM.bind p f s = .ok b s' ↔ _
  unfold EStateM.bind Yields
  cases p s with
  | ok a s₁ =>
    constructor
    · intro h
      exact ⟨a, s₁, rfl, h⟩
    · intro h
      rcases h with ⟨a', s₂, h, h'⟩
      cases h
      exact h'
  | error e s₁ => simp

theorem yields_pure {a b : α} : Yields (pure a) s b s' ↔ b = a ∧ s' = s := by
  change EStateM.Result.ok a s = .ok b s' ↔ _
  simp [eq_comm]

theorem not_yields_throw {e : ParseError} {b : α} : ¬ Yields (throw e) s b s' := by
  change ¬ EStateM.Result.error e s = .ok b s'
  simp

theorem not_yields_unexpected {expected : Expected} {b : α} :
    ¬ Yields (unexpected expected) s b s' := by
  simp [Yields, unexpected]

theorem yields_get {f : State → Parser β} {b : β} :
    Yields (get >>= f) s b s' ↔ Yields (f s) s b s' :=
  Iff.rfl

theorem yields_current {f : Token → Parser β} {b : β} :
    Yields (current >>= f) (c.state scope) b s' ↔ Yields (f c.current) (c.state scope) b s' :=
  Iff.rfl

theorem yields_bound {f : Nat → Parser β} {b : β} :
    Yields (bound >>= f) (c.state scope) b s' ↔
      Yields (f (c.state scope).bound) (c.state scope) b s' :=
  Iff.rfl

theorem yields_advance {t : Token} :
    Yields advance (c.state scope) t s' ↔
      t = c.current ∧ ∃ c', c.Next c' ∧ s' = c'.state scope := by
  unfold Yields advance
  constructor
  · intro h
    simp only [Cursor.state] at h
    split at h
    · rename_i u ahead next
      obtain ⟨c', rfl, rfl⟩ := Cursor.exists_starts c.properAhead next
      cases h
      exact ⟨rfl, c', next, rfl⟩
    · cases h
  · intro h
    rcases h with ⟨rfl, c', next, rfl⟩
    have next : c.ahead.next = (.ok c'.current, c'.ahead) := next
    simp [Cursor.state, next]

theorem yields_advance_of_kind {t : Token} (more : c.current.kind ≠ .endOfInput) :
    Yields advance (c.state scope) t s' ↔ ∃ c', Reads c [t] c' ∧ s' = c'.state scope := by
  rw [yields_advance]
  constructor
  · intro h
    rcases h with ⟨rfl, c', next, rfl⟩
    exact ⟨c', .cons more next .nil, rfl⟩
  · intro h
    rcases h with ⟨c', h, rfl⟩
    obtain ⟨rfl, _, next⟩ := Reads.one_iff.mp h
    exact ⟨rfl, c', next, rfl⟩

theorem yields_expect {kind : Token.Kind} {t : Token} (more : kind ≠ .endOfInput) :
    Yields (expect kind) (c.state scope) t s' ↔
      ∃ c', Reads c [t] c' ∧ t.kind = kind ∧ s' = c'.state scope := by
  unfold expect
  rw [yields_current]
  split
  · rename_i here
    rw [yields_advance_of_kind (by rw [here]; exact more)]
    constructor
    · intro h
      rcases h with ⟨c', h, rfl⟩
      exact ⟨c', h, h.current_eq ▸ here, rfl⟩
    · intro h
      rcases h with ⟨c', h, _, rfl⟩
      exact ⟨c', h, rfl⟩
  · rename_i other
    constructor
    · intro h
      exact absurd h not_yields_unexpected
    · intro h
      rcases h with ⟨c', h, rfl, _⟩
      exact absurd (by rw [h.current_eq]) other

theorem yields_identifier {x : String} :
    Yields identifier (c.state scope) x s' ↔
      ∃ t c', Reads c [t] c' ∧ t.kind = .identifier ∧ x = t.literal ∧ s' = c'.state scope := by
  unfold identifier
  rw [yields_current]
  split
  · rename_i here
    simp only [yields_bind, yields_pure]
    constructor
    · intro h
      rcases h with ⟨t, s, h, rfl, rfl⟩
      obtain ⟨c', reads, rfl⟩ := (yields_advance_of_kind (by simp [here])).mp h
      exact ⟨t, c', reads, reads.current_eq ▸ here, rfl, rfl⟩
    · intro h
      rcases h with ⟨t, c', h, _, rfl, rfl⟩
      exact ⟨t, _, (yields_advance_of_kind (by simp [here])).mpr ⟨c', h, rfl⟩, rfl, rfl⟩
  · rename_i other
    constructor
    · intro h
      exact absurd h not_yields_unexpected
    · intro h
      rcases h with ⟨t, c', h, kind, _⟩
      exact absurd (h.current_eq ▸ kind) other

/-! ## Runs -/

/-- Run a parser from the first result of a stream on. -/
def runFrom (p : Parser α) (stream : TokenStream) : Except ParseError α :=
  match stream.next with
  | (.ok t, ahead) =>
    match p ⟨t, ahead, .empty⟩ with
    | .ok a _ => .ok a
    | .error e _ => .error e
  | (.error e, _) => .error (.scan e)

theorem runOn_eq_runFrom (p : Parser α) (text : String) :
    p.runOn text = runFrom p (.ofString text) := by
  unfold runOn start runFrom
  cases (TokenStream.ofString text).next with
  | mk result ahead => cases result <;> rfl

/-- A run gives what the parser yields at the first token. -/
theorem runFrom_ok_iff {p : Parser α} {stream : TokenStream} (proper : stream.Proper) {a : α} :
    runFrom p stream = .ok a ↔
      ∃ c : Cursor, c.Starts stream ∧ ∃ s', Yields p (c.state .empty) a s' := by
  unfold runFrom
  cases first : stream.next with
  | mk result ahead =>
    cases result with
    | error e => simp [Cursor.Starts, first]
    | ok t =>
      obtain ⟨c, rfl, rfl⟩ := Cursor.exists_starts proper first
      have starts : c.Starts stream := first
      constructor
      · intro h
        refine ⟨c, starts, ?_⟩
        dsimp only at h
        split at h
        · rename_i s' run
          cases h
          exact ⟨s', run⟩
        · cases h
      · intro ⟨c', starts', s', run⟩
        obtain rfl := starts.unique starts'
        have run : p ⟨c.current, c.ahead, .empty⟩ = .ok a s' := run
        simp only [run]

end Parser

end Rulebook
