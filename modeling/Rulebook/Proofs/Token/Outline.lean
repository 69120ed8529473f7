import Rulebook.Proofs.Parser.Cursor

/-!
# What a scan shows

A parser looks at the results of a scan in their order and never past the first error. The `outline`
of a text holds what there is to see: its tokens without the comments, and then the first error or
the end of the text. Two outlines say the same if they differ in positions only.
-/

namespace Rulebook

namespace ScanFault

theorem message_unexpected (c : Char) :
    (unexpected c).message = "Unexpected character: '" ++ String.singleton c ++ "'" := rfl

theorem message_outOfRange (digits : String) :
    (outOfRange digits).message = "Invalid int: " ++ digits := rfl

/-- A fault is known by its message. -/
theorem message_injective {f g : ScanFault} (same : f.message = g.message) : f = g := by
  -- Messages of different faults differ in their third letter.
  have third := congrArg (fun text : String => text.toList[2]?) same
  have unterminated : message .unterminated = "Unterminated string" := rfl
  cases f <;> cases g
  case unexpected.unexpected c c' =>
    simp only [message_unexpected, String.append_left_inj, String.append_right_inj,
      String.singleton_inj] at same
    rw [same]
  case outOfRange.outOfRange digits digits' =>
    simp only [message_outOfRange, String.append_right_inj] at same
    rw [same]
  case unterminated.unterminated => rfl
  all_goals simp [message_unexpected, message_outOfRange, unterminated] at third

end ScanFault

namespace ScanResult

/-- What a result says, wherever it stands: a lexeme, or the message of a fault. -/
def said : ScanResult → Except String Lexeme
  | .ok t => .ok t.toLexeme
  | .error e => .error e.fault.message

/-- Where a result stands. -/
def position : ScanResult → Position
  | .ok t => t.position
  | .error e => e.position

/-- The results up to the first error, which is one of them. -/
def upToError : List ScanResult → List ScanResult
  | [] => []
  | .ok t :: rest => .ok t :: upToError rest
  | .error e :: _ => [.error e]

theorem upToError_length_le (results : List ScanResult) :
    (upToError results).length ≤ results.length := by
  induction results with
  | nil => exact Nat.le_refl 0
  | cons result rest ih =>
    cases result with
    | ok t => exact Nat.succ_le_succ ih
    | error e => simp [upToError]

theorem upToError_map_ok (ts : List Token) : upToError (ts.map .ok) = ts.map .ok := by
  induction ts with
  | nil => rfl
  | cons t ts ih => rw [List.map_cons, upToError, ih]

theorem upToError_ne_nil {results : List ScanResult} (some : results ≠ []) :
    upToError results ≠ [] := by
  cases results with
  | nil => exact absurd rfl some
  | cons result rest => cases result <;> simp [upToError]

end ScanResult

open ScanResult (upToError)

/-- What the scan of a text shows: everything but comments, up to the first error or the end. -/
def Scanner.outline (text : String) : List ScanResult :=
  let results := (Scanner.ofString text).results
  upToError ((results.1 ++ [results.2]).filter (ScanResult.isSignificant ·))

namespace TokenStream

/-- What a stream shows up to its first error or its end. -/
def outline (stream : TokenStream) : List ScanResult :=
  upToError (stream.pending ++ [stream.last])

theorem outline_ofString (text : String) : (ofString text).outline = Scanner.outline text := by
  have last : ScanResult.isSignificant (Scanner.ofString text).results.2 = true := by
    cases ends : (Scanner.ofString text).results.2 with
    | error e => rfl
    | ok t => simp [ScanResult.isSignificant, Scanner.results_last ends]
  unfold Scanner.outline outline
  dsimp only
  rw [List.filter_append, List.filter_cons_of_pos last, List.filter_nil]
  rfl

theorem outline_ne_nil (stream : TokenStream) : stream.outline ≠ [] :=
  ScanResult.upToError_ne_nil (by simp)

theorem outline_length_le (stream : TokenStream) :
    stream.outline.length ≤ stream.pending.length + 1 := by
  have := ScanResult.upToError_length_le (stream.pending ++ [stream.last])
  rwa [List.length_append, List.length_singleton] at this

/-- An error that comes next is all that a stream shows. -/
theorem outline_of_next_error {stream ahead : TokenStream} {e : ScanError}
    (next : stream.next = (.error e, ahead)) : stream.outline = [.error e] := by
  unfold TokenStream.next at next
  split at next
  · rename_i none
    rw [outline, none, (Prod.mk.inj next).1]
    rfl
  · rename_i first pending more
    rw [outline, more, (Prod.mk.inj next).1]
    rfl

/-- A token that comes next is all that a stream shows, now and later, or the first of it. -/
theorem outline_of_next_ok {stream ahead : TokenStream} {t : Token}
    (next : stream.next = (.ok t, ahead)) :
    (stream.outline = [.ok t] ∧ ahead.outline = [.ok t]) ∨
      stream.outline = .ok t :: ahead.outline := by
  unfold TokenStream.next at next
  split at next
  · rename_i none
    obtain ⟨last, rfl⟩ := Prod.mk.inj next
    have alone : stream.outline = [.ok t] := by
      rw [outline, none, last]
      rfl
    exact .inl ⟨alone, alone⟩
  · rename_i first pending more
    obtain ⟨rfl, rfl⟩ := Prod.mk.inj next
    refine .inr ?_
    rw [outline, more]
    rfl

/-- A token at the end of what a stream shows is the end of the text. -/
theorem Proper.outline_ends {stream : TokenStream} (proper : stream.Proper) {t : Token}
    (last : stream.outline.getLast? = some (.ok t)) : t.kind = .endOfInput := by
  obtain ⟨pending, final⟩ := stream
  replace proper := proper.last
  unfold outline at last
  dsimp only at proper last
  induction pending with
  | nil =>
    cases final with
    | error e => simp [upToError] at last
    | ok u =>
      simp only [List.nil_append, upToError, List.getLast?_singleton, Option.some.injEq] at last
      exact proper t last
  | cons result rest ih =>
    cases result with
    | error e => simp [upToError] at last
    | ok u =>
      rw [List.cons_append, upToError, List.getLast?_cons_of_ne_nil] at last
      · exact ih last
      · exact ScanResult.upToError_ne_nil (by simp)

end TokenStream

end Rulebook
