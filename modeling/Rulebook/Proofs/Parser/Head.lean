import Rulebook.Proofs.Parser.Session
import Rulebook.Proofs.Token.Tiling

/-!
# Scanning on demand

A parser state holds all results of the scan that are still to come. A parser that reads its text
only once holds less: the current token, the token that it has looked at, and a scanner behind them,
which it moves on when it needs one more token. `Head` is what such a parser holds, and a head `Shows`
a state if the results to come are those that its scanner will give. Every step of a parser on states
is a step on heads (`stable_shows`).

The weight of a head counts the characters not yet scanned, and the tokens that it holds. No step adds
to it, and moving over a token takes from it.
-/

namespace Rulebook

/-! ## Results on demand -/

/-- A token weighs one, the end of the text nothing. -/
def Token.weight (t : Token) : Nat := if t.kind = .endOfInput then 0 else 1

/-- An error weighs nothing. -/
def ScanResult.weight : ScanResult → Nat
  | .ok t => t.weight
  | .error _ => 0

theorem Token.weight_le_one (t : Token) : t.weight ≤ 1 := by
  unfold Token.weight
  split <;> omega

theorem ScanResult.weight_le_one (r : ScanResult) : r.weight ≤ 1 := by
  cases r with
  | ok t => exact t.weight_le_one
  | error e => exact Nat.zero_le 1

/-- A result that repeats for ever weighs nothing. -/
theorem ScanResult.weight_of_isLast {r : ScanResult} (last : r.isLast = true) : r.weight = 0 := by
  cases r with
  | ok t =>
    have ends : t.kind = .endOfInput := by simpa [ScanResult.isLast] using last
    exact if_pos ends
  | error e => rfl

/-- Only a character that starts no token is left where it stands. -/
theorem Reading.taken_of_unexpected {c d : Char} {rest : List Char}
    (h : (read c rest).result = .error (.unexpected d)) : (read c rest).taken = [] := by
  unfold read at h ⊢
  split at h
  case h_1 => cases h
  case h_2 =>
    unfold string at h
    split at h <;> cases h
  case h_18 | h_19 | h_20 | h_21 => exact absurd h markOrWithEquals_ne_error
  case h_22 =>
    split at h
    · rename_i digit
      rcases number_cases digit rest with ⟨_, _, _, _, read⟩ | ⟨_, _, _, _, _, read⟩
      · rw [read] at h
        cases h
      · rw [read, int] at h
        split at h <;> cases h
    · rename_i digit
      rw [if_neg digit]
      split at h
      · cases h
      · rename_i word
        rw [if_neg word]
  all_goals cases h

namespace Scanner

/-- A step takes what its result weighs at least. -/
theorem next_weight (s : Scanner) : s.next.2.rest.length + s.next.1.weight ≤ s.rest.length := by
  by_cases more : s.next.1.isLast = false
  · have := rest_next_lt more
    have := s.next.1.weight_le_one
    omega
  · rw [ScanResult.weight_of_isLast (by simpa using more)]
    have blanks := congrArg List.length
      (List.takeWhile_append_dropWhile (p := Text.isBlank) (l := s.rest))
    rw [List.length_append] at blanks
    unfold next
    split
    · exact Nat.zero_le _
    · rename_i c rest starts
      have size := congrArg List.length (Reading.read_taken_append_rest c rest)
      rw [List.length_append] at size
      rw [starts] at blanks
      dsimp only
      omega

/-- A result that repeats for ever does so. -/
theorem next_of_isLast {s : Scanner} (last : s.next.1.isLast = true) : s.next.2.next = s.next := by
  have stops := stops_dropWhile Text.isBlank s.rest
  unfold next at last ⊢
  cases starts : s.rest.dropWhile Text.isBlank with
  | nil => rfl
  | cons c rest =>
    simp only [starts] at last ⊢
    have stays : (Reading.read c rest).taken = [] := by
      cases read : (Reading.read c rest).result with
      | ok t =>
        have ends : t.kind = .endOfInput := by
          simpa [Reading.located, read, ScanResult.isLast] using last
        obtain ⟨_, longest⟩ := Reading.read_exact read
        have form := longest.holds
        rw [ends] at form
        exact absurd form id
      | error fault =>
        cases fault with
        | unexpected d => exact Reading.taken_of_unexpected read
        | unterminated | outOfRange _ => simp [Reading.located, read, ScanResult.isLast] at last
    have whole := Reading.read_taken_append_rest c rest
    rw [stays, List.nil_append] at whole
    have blank : Text.isBlank c = false := stops c (by simp [starts])
    simp [stays, whole, blank]

/-- A comment leaves less text. -/
theorem rest_next_lt_of_comment {s : Scanner} (comment : s.next.1.isSignificant = false) :
    s.next.2.rest.length < s.rest.length := by
  apply rest_next_lt
  cases result : s.next.1 with
  | error e =>
    rw [result] at comment
    cases comment
  | ok t =>
    rw [result] at comment
    have kind : t.kind = .comment := by simpa [ScanResult.isSignificant] using comment
    simp [ScanResult.isLast, kind]

/-- The next result that is no comment, and the scanner after it. -/
def significant (s : Scanner) : ScanResult × Scanner :=
  let step := s.next
  if _comment : step.1.isSignificant = false then step.2.significant else step
termination_by s.rest.length
decreasing_by exact rest_next_lt_of_comment _comment

theorem significant_weight (s : Scanner) :
    s.significant.2.rest.length + s.significant.1.weight ≤ s.rest.length := by
  fun_induction significant s with
  | case1 s step comment ih =>
    have shorter : step.2.rest.length < s.rest.length := rest_next_lt_of_comment comment
    omega
  | case2 s step significant => exact s.next_weight

/-- There are no more results than characters. -/
theorem results_length_le (s : Scanner) : s.results.1.length ≤ s.rest.length := by
  fun_induction results s with
  | case1 s step more later ih =>
    have shorter : step.2.rest.length < s.rest.length := rest_next_lt more
    show step.2.results.1.length + 1 ≤ s.rest.length
    omega
  | case2 s step last => exact Nat.zero_le _

end Scanner

namespace TokenStream

/-- A stream gives its results on demand. -/
theorem next_ofScanner (s : Scanner) :
    (ofScanner s).next = (s.significant.1, ofScanner s.significant.2) := by
  fun_induction Scanner.significant s with
  | case1 s step comment ih =>
    have more : s.next.1.isLast = false := by
      cases result : s.next.1 with
      | error e =>
        simp only [step, result] at comment
        cases comment
      | ok t =>
        simp only [step, result] at comment
        have kind : t.kind = .comment := by simpa [ScanResult.isSignificant] using comment
        simp [ScanResult.isLast, kind]
    have skipped : ofScanner s = ofScanner s.next.2 := by
      unfold ofScanner
      rw [Scanner.results]
      simp only [more, dite_true]
      rw [List.filter_cons_of_neg (by simpa [step] using comment)]
    rw [skipped]
    exact ih
  | case2 s step significant =>
    by_cases more : s.next.1.isLast = false
    · have first : ofScanner s =
          ⟨s.next.1 :: (ofScanner s.next.2).pending, (ofScanner s.next.2).last⟩ := by
        unfold ofScanner
        rw [Scanner.results]
        simp only [more, dite_true]
        rw [List.filter_cons_of_pos (by simpa [step] using significant)]
      rw [first]
      rfl
    · have last (s : Scanner) (last : ¬ s.next.1.isLast = false) :
          ofScanner s = ⟨[], s.next.1⟩ := by
        unfold ofScanner
        rw [Scanner.results]
        simp [last]
      have again := Scanner.next_of_isLast (s := s) (by simpa using more)
      rw [last s more, last s.next.2 (by rwa [again]), again]
      rfl

/-- A stream is known from what comes next, if that is a token. -/
theorem Proper.eq_of_next {stream stream' ahead : TokenStream} {t : Token} (proper : stream.Proper)
    (proper' : stream'.Proper) (next : stream.next = (.ok t, ahead))
    (next' : stream'.next = (.ok t, ahead)) : stream = stream' := by
  have ends {a b : TokenStream} (ha : a.Proper) (hb : b.Proper) (none : a.pending = [])
      {r : ScanResult} {pending : List ScanResult} (more : b.pending = r :: pending)
      (last : a.next = (.ok t, ahead)) (first : b.next = (.ok t, ahead)) : False := by
    simp only [TokenStream.next, none, more, Prod.mk.injEq] at last first
    exact (hb.pending t (by simp [more, first.1])).2 (ha.last t last.1)
  rcases stream with ⟨pending, last⟩
  rcases stream' with ⟨pending', last'⟩
  cases pending with
  | nil =>
    cases pending' with
    | nil => exact (Prod.mk.inj next).2.trans (Prod.mk.inj next').2.symm
    | cons r' rest' => exact (ends proper proper' rfl rfl next next').elim
  | cons r rest =>
    cases pending' with
    | nil => exact (ends proper' proper rfl rfl next' next).elim
    | cons r' rest' =>
      obtain ⟨rfl, rfl⟩ := Prod.mk.inj next
      obtain ⟨rfl, rests⟩ := Prod.mk.inj next'
      cases rests
      rfl

end TokenStream

namespace Parser

/-! ## Heads -/

/-- What a parser holds that scans on demand: the current token, the token after it if it was looked
at, and the scanner behind them. -/
structure Head where
  current : Token
  peeked : Option Token
  scanner : Scanner

namespace Head

/-- What follows the current token, and the scanner behind it. -/
def following (h : Head) : ScanResult × Scanner :=
  match h.peeked with
  | some t => (.ok t, h.scanner)
  | none => h.scanner.significant

/-- Move to the next token. If there is an error instead, the current token stays. -/
def advance (h : Head) : Head :=
  match h.following with
  | (.ok t, scanner) => ⟨t, none, scanner⟩
  | (.error _, scanner) => ⟨h.current, none, scanner⟩

/-- Look at the next token. -/
def peek (h : Head) : Head :=
  match h.following with
  | (.ok t, scanner) => ⟨h.current, some t, scanner⟩
  | (.error _, scanner) => ⟨h.current, none, scanner⟩

theorem advance_of_ok {h : Head} {t : Token} (next : h.following.1 = .ok t) :
    h.advance = ⟨t, none, h.following.2⟩ := by
  unfold advance
  rw [← Prod.eta h.following, next]

theorem advance_of_error {h : Head} {e : ScanError} (next : h.following.1 = .error e) :
    h.advance = ⟨h.current, none, h.following.2⟩ := by
  unfold advance
  rw [← Prod.eta h.following, next]

theorem peek_of_ok {h : Head} {t : Token} (next : h.following.1 = .ok t) :
    h.peek = ⟨h.current, some t, h.following.2⟩ := by
  unfold peek
  rw [← Prod.eta h.following, next]

theorem peek_of_error {h : Head} {e : ScanError} (next : h.following.1 = .error e) :
    h.peek = ⟨h.current, none, h.following.2⟩ := by
  unfold peek
  rw [← Prod.eta h.following, next]

/-- Some steps lead from one head to another. -/
inductive Leads : Head → Head → Prop
  | refl {h : Head} : Leads h h
  | advance {h h' : Head} : Leads h h' → Leads h h'.advance
  | peek {h h' : Head} : Leads h h' → Leads h h'.peek

/-- The characters that are not scanned yet, and the tokens that are held. -/
def weight (h : Head) : Nat :=
  h.scanner.rest.length + h.current.weight + h.peeked.elim 0 Token.weight

theorem weight_mk (t : Token) (peeked : Option Token) (scanner : Scanner) :
    weight ⟨t, peeked, scanner⟩ = scanner.rest.length + t.weight + peeked.elim 0 Token.weight := rfl

theorem following_weight (h : Head) :
    h.following.2.rest.length + h.following.1.weight + h.current.weight ≤ h.weight := by
  unfold following weight
  cases h.peeked with
  | some t =>
    simp only [ScanResult.weight, Option.elim_some]
    omega
  | none =>
    have := h.scanner.significant_weight
    simp only [Option.elim_none]
    omega

theorem weight_peek_le (h : Head) : h.peek.weight ≤ h.weight := by
  have lighter := h.following_weight
  cases next : h.following.1 with
  | ok t =>
    rw [next, ScanResult.weight] at lighter
    rw [peek_of_ok next, weight_mk, Option.elim_some]
    omega
  | error e =>
    rw [peek_of_error next, weight_mk, Option.elim_none]
    omega

theorem weight_advance_le (h : Head) : h.advance.weight ≤ h.weight := by
  have lighter := h.following_weight
  cases next : h.following.1 with
  | ok t =>
    rw [next, ScanResult.weight] at lighter
    rw [advance_of_ok next, weight_mk, Option.elim_none]
    omega
  | error e =>
    rw [advance_of_error next, weight_mk, Option.elim_none]
    omega

/-- Moving over a token takes from the weight. -/
theorem weight_advance_lt {h : Head} {t : Token} (more : h.current.kind ≠ .endOfInput)
    (next : h.following.1 = .ok t) : h.advance.weight < h.weight := by
  have lighter := h.following_weight
  have one : h.current.weight = 1 := if_neg more
  rw [next, ScanResult.weight] at lighter
  rw [advance_of_ok next, weight_mk, Option.elim_none]
  omega

theorem Leads.weight_le {h h' : Head} (leads : Leads h h') : h'.weight ≤ h.weight := by
  induction leads with
  | refl => exact Nat.le_refl _
  | advance _ ih => exact Nat.le_trans (weight_advance_le _) ih
  | peek _ ih => exact Nat.le_trans (weight_peek_le _) ih

theorem Leads.trans {h h' h'' : Head} (first : Leads h h') (later : Leads h' h'') :
    Leads h h'' := by
  induction later with
  | refl => exact first
  | advance _ ih => exact ih.advance
  | peek _ ih => exact ih.peek

/-- The head stands where the state does: the token is the same, and the results to come are those
that the scanner will give. -/
structure Shows (h : Head) (s : State) : Prop where
  placed : s.Placed
  current : s.current = h.current
  ahead : match h.peeked with
    | some t => s.ahead.next = (.ok t, .ofScanner h.scanner)
    | none => s.ahead = .ofScanner h.scanner

namespace Shows

variable {h : Head} {s : State}

theorem next (shows_ : h.Shows s) :
    s.ahead.next = (h.following.1, .ofScanner h.following.2) := by
  have ahead := shows_.ahead
  unfold following
  cases peeked : h.peeked with
  | some t =>
    rw [peeked] at ahead
    exact ahead
  | none =>
    rw [peeked] at ahead
    rw [ahead]
    exact TokenStream.next_ofScanner h.scanner

/-- Looking ahead changes nothing that is shown. -/
theorem peek (shows_ : h.Shows s) {t : Token} (next : h.following.1 = .ok t) :
    h.peek.Shows s := by
  rw [peek_of_ok next]
  refine ⟨shows_.placed, shows_.current, ?_⟩
  rw [shows_.next, next]

/-- The variables in scope are not seen. -/
theorem scope (shows_ : h.Shows s) (table : Table FieldType) :
    h.Shows { s with scope := table } :=
  ⟨stable_placed.scope s table shows_.placed, shows_.current, shows_.ahead⟩

end Shows

end Head

/-- A step of a parser on states is a step on heads. -/
theorem stable_shows (start : Head) :
    Stable (fun s => ∃ h, start.Leads h ∧ h.Shows s) fun _ => True where
  scope := fun s table ⟨h, leads, shows_⟩ => ⟨h, leads, shows_.scope table⟩
  advance := by
    rintro s ⟨h, leads, shows_⟩
    have placed := stable_placed.advance s shows_.placed
    have moved := leads.advance
    unfold advance at placed ⊢
    rw [shows_.next] at placed ⊢
    cases next : h.following.1 with
    | ok t =>
      rw [next] at placed
      rw [Head.advance_of_ok next] at moved
      exact ⟨_, moved, placed, rfl, rfl⟩
    | error e =>
      rw [next] at placed
      rw [Head.advance_of_error next] at moved
      exact ⟨⟨_, moved, placed.1, shows_.current, rfl⟩, trivial⟩
  peek := by
    rintro s ⟨h, leads, shows_⟩
    have placed := stable_placed.peek s shows_.placed
    have looked := leads.peek
    unfold peek at placed ⊢
    rw [shows_.next] at placed ⊢
    cases next : h.following.1 with
    | ok t => exact ⟨h.peek, looked, shows_.peek next⟩
    | error e =>
      rw [next] at placed
      rw [Head.peek_of_error next] at looked
      exact ⟨⟨_, looked, placed.1, shows_.current, rfl⟩, trivial⟩
  integer _ _ _ _ := trivial
  unexpected _ _ := trivial
  notBinary _ _ := trivial
  duplicate _ _ _ := trivial

/-- The head of a parser that is started on a text. -/
def Head.ofString (text : String) : Except ParseError Head :=
  match (Scanner.ofString text).significant with
  | (.ok t, scanner) => .ok ⟨t, none, scanner⟩
  | (.error e, _) => .error (.scan e)

theorem exists_head_of_start {text : String} {s : State} (started : start text = .ok s) :
    ∃ h, Head.ofString text = .ok h ∧ h.Shows s ∧ h.weight ≤ text.length := by
  have next := TokenStream.next_ofScanner (.ofString text)
  have lighter := (Scanner.ofString text).significant_weight
  have placed := placed_of_start started
  unfold start at started
  split at started
  · rename_i t ahead first
    cases started
    have known := next.symm.trans first
    rw [Prod.mk.injEq] at known
    refine ⟨⟨t, none, (Scanner.ofString text).significant.2⟩, ?_, ⟨placed, rfl, known.2.symm⟩, ?_⟩
    · unfold Head.ofString
      rw [← Prod.eta (Scanner.significant _), known.1]
    · rw [known.1] at lighter
      simpa [Head.weight, ScanResult.weight, Scanner.ofString, String.length_toList] using lighter
  · cases started

/-! ## Reading tokens -/

namespace Head

variable {h h' : Head} {c c' : Cursor} {scope scope' : Table FieldType}

/-- A head shows one place only. -/
theorem Shows.cursor_eq (shows_ : h.Shows (c.state scope)) (shows' : h.Shows (c'.state scope')) :
    c = c' := by
  refine Cursor.ext (shows_.current.trans shows'.current.symm) ?_
  have ahead : match h.peeked with
      | some t => c.ahead.next = (.ok t, .ofScanner h.scanner)
      | none => c.ahead = .ofScanner h.scanner := shows_.ahead
  have ahead' : match h.peeked with
      | some t => c'.ahead.next = (.ok t, .ofScanner h.scanner)
      | none => c'.ahead = .ofScanner h.scanner := shows'.ahead
  cases peeked : h.peeked with
  | none =>
    rw [peeked] at ahead ahead'
    exact ahead.trans ahead'.symm
  | some t =>
    rw [peeked] at ahead ahead'
    exact c.properAhead.eq_of_next c'.properAhead ahead ahead'

theorem Shows.advance (shows_ : h.Shows (c.state scope)) (next : c.Next c')
    (scope' : Table FieldType) :
    h.following.1 = .ok c'.current ∧ h.advance.Shows (c'.state scope') := by
  have there : c.ahead.next = (.ok c'.current, c'.ahead) := next
  have known := shows_.next.symm.trans there
  rw [Prod.mk.injEq] at known
  refine ⟨known.1, ?_⟩
  rw [advance_of_ok known.1]
  exact ⟨⟨c'.proper, c'.properAhead⟩, rfl, known.2.symm⟩

/-- Before the current token is left, nothing but the token after it can be looked at. -/
theorem Leads.eq_or_weight_lt (leads : Leads h h') (more : h.current.kind ≠ .endOfInput)
    {t : Token} (next : h.following.1 = .ok t) :
    h' = h ∨ h' = h.peek ∨ h'.weight < h.weight := by
  induction leads with
  | refl => exact .inl rfl
  | @advance h' _ ih =>
    rcases ih with rfl | rfl | lighter
    · exact .inr (.inr (weight_advance_lt more next))
    · refine .inr (.inr (Nat.lt_of_lt_of_le ?_ h.weight_peek_le))
      rw [peek_of_ok next]
      exact weight_advance_lt more (t := t) rfl
    · exact .inr (.inr (Nat.lt_of_le_of_lt h'.weight_advance_le lighter))
  | @peek h' _ ih =>
    rcases ih with rfl | rfl | lighter
    · exact .inr (.inl rfl)
    · refine .inr (.inl ?_)
      rw [peek_of_ok next]
      rfl
    · exact .inr (.inr (Nat.lt_of_le_of_lt h'.weight_peek_le lighter))

/-- The state is reached with less: some head that `h` leads to shows it, and every such head is
lighter than `h`. -/
structure Lightens (h : Head) (s : State) : Prop where
  reached : ∃ h', h.Leads h' ∧ h'.Shows s
  lighter : ∀ h', h.Leads h' → h'.Shows s → h'.weight < h.weight

end Head

/-- Reading tokens moves the head over them. -/
theorem Reads.exists_head {c c' : Cursor} {ts : List Token} (reads : Reads c ts c') {h : Head}
    {scope : Table FieldType} (shows_ : h.Shows (c.state scope)) (scope' : Table FieldType) :
    ∃ h' : Head, h.Leads h' ∧ h'.Shows (c'.state scope') := by
  induction reads generalizing h scope with
  | nil => exact ⟨h, .refl, shows_.scope scope'⟩
  | cons _ next _ ih =>
    obtain ⟨h', leads, shows'⟩ := ih (shows_.advance next scope).2
    exact ⟨h', .trans (.advance .refl) leads, shows'⟩

/-- Behind tokens that were read the parser holds less. -/
theorem Reads.lightens {c c' : Cursor} {ts : List Token} (reads : Reads c ts c') (some_ : ts ≠ [])
    {h : Head} {scope : Table FieldType} (shows_ : h.Shows (c.state scope))
    (scope' : Table FieldType) : h.Lightens (c'.state scope') := by
  refine ⟨reads.exists_head shows_ scope', fun h' leads shows' => ?_⟩
  -- The head cannot be where it was, since it would show both places.
  have moved : c ≠ c' := by
    rintro rfl
    have none := reads.length_add_size
    exact some_ (List.eq_nil_of_length_eq_zero (by omega))
  cases reads with
  | nil => exact absurd rfl some_
  | cons more next _ =>
    have more : h.current.kind ≠ .endOfInput := shows_.current ▸ more
    have next := (shows_.advance next scope).1
    rcases leads.eq_or_weight_lt more next with rfl | rfl | lighter
    · exact absurd (shows_.cursor_eq shows') moved
    · exact absurd ((shows_.peek next).cursor_eq shows') moved
    · exact lighter

namespace Head.Shows

variable {h : Head} {s : State}

/-- A head weighs as much as there are results to come, and the current token. -/
theorem pending_le_weight (shows_ : h.Shows s) :
    s.ahead.pending.length + h.current.weight ≤ h.weight := by
  have few : (TokenStream.ofScanner h.scanner).pending.length ≤ h.scanner.rest.length :=
    Nat.le_trans (List.length_filter_le ..) h.scanner.results_length_le
  have ahead := shows_.ahead
  unfold weight
  cases peeked : h.peeked with
  | none =>
    rw [peeked] at ahead
    rw [ahead, Option.elim_none]
    omega
  | some t =>
    rw [peeked] at ahead
    rw [Option.elim_some]
    cases pending : s.ahead.pending with
    | nil =>
      rw [List.length_nil]
      omega
    | cons r rest =>
      simp only [TokenStream.next, pending, Prod.mk.injEq] at ahead
      have token : t.weight = 1 :=
        if_neg (shows_.placed.ahead.pending t (by simp [pending, ahead.1])).2
      rw [← ahead.2] at few
      have few : rest.length ≤ h.scanner.rest.length := few
      rw [List.length_cons, token]
      omega

theorem bound_le_weight (shows_ : h.Shows s) : s.bound ≤ h.weight + 2 := by
  have few := shows_.pending_le_weight
  unfold State.bound
  omega

theorem size_le_weight {c : Cursor} {scope : Table FieldType} (shows_ : h.Shows (c.state scope)) :
    c.size ≤ h.weight := by
  have few : c.ahead.pending.length + h.current.weight ≤ h.weight := shows_.pending_le_weight
  have current : c.current = h.current := shows_.current
  unfold Cursor.size
  split
  · exact Nat.zero_le _
  · rename_i more
    have one : h.current.weight = 1 := if_neg (current ▸ more)
    omega

end Head.Shows

end Parser

end Rulebook
