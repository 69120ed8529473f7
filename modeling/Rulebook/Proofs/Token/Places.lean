import Rulebook.Proofs.Token.Outline
import Rulebook.Proofs.Token.Seam

/-!
# Places in an outline

No two results of an outline are at one place (`outline_place_inj`). A text that goes on with a line
feed shows the tokens that it showed before, and then more (`outline_goesOn`).
-/

namespace Rulebook

/-! ## Places -/

namespace Position

/-- What follows some characters is not at the place of the first of them. -/
theorem after_ne {cs : List Char} (some : cs ≠ []) (p : Position) : p.after cs ≠ p := by
  -- A line feed leaves the line for good, and every other character moves on in it.
  have moves (cs : List Char) (p : Position) : p.line < (p.after cs).line ∨
      p.line = (p.after cs).line ∧ (p.after cs).column = p.column + cs.length := by
    induction cs generalizing p with
    | nil => exact .inr ⟨rfl, rfl⟩
    | cons c cs ih =>
      have later := ih (p.next c)
      rw [after_cons, List.length_cons]
      by_cases feed : c = '\n'
      · simp only [next, feed, if_pos] at later ⊢
        omega
      · simp only [next, feed, if_neg, not_false_eq_true] at later ⊢
        omega
  intro same
  have further := moves cs p
  have := List.length_pos_iff.mpr some
  rw [same] at further
  omega

end Position

namespace ScanResult

/-- One result stands behind another, with characters between their places. -/
def Behind (r r' : ScanResult) : Prop := ∃ cs, cs ≠ [] ∧ r'.position = r.position.after cs

theorem upToError_sublist (results : List ScanResult) : (upToError results).Sublist results := by
  induction results with
  | nil => exact .slnil
  | cons result rest ih =>
    cases result with
    | ok t => exact ih.cons_cons _
    | error e => exact (List.nil_sublist rest).cons_cons _

end ScanResult

theorem Reading.position_located (r : Reading) (p : Position) : (r.located p).position = p := by
  unfold Reading.located
  split <;> rfl

open ScanResult (upToError)

namespace Scanner

/-- Where a step reads, and what it takes. -/
theorem next_place (s : Scanner) :
    ∃ blanks taken, s.next.1.position = s.position.after blanks ∧
      s.next.2.position = s.next.1.position.after taken ∧
      (s.next.1.isLast = false → taken ≠ []) := by
  unfold next
  split
  · exact ⟨_, [], rfl, rfl, by simp [ScanResult.isLast]⟩
  · rename_i c rest _
    obtain ⟨_, stuck⟩ := Reading.read_splits c rest
    dsimp only
    rw [Reading.position_located]
    refine ⟨_, _, rfl, rfl, fun more none => ?_⟩
    obtain ⟨c', error⟩ := stuck none
    simp [Reading.located, error, ScanResult.isLast] at more

/-- All results of a scanner; the one that repeats is taken once. -/
def allResults (s : Scanner) : List ScanResult := s.results.1 ++ [s.results.2]

theorem allResults_of_last {s : Scanner} (last : s.next.1.isLast = true) :
    s.allResults = [s.next.1] := by
  rw [allResults, results]
  simp [last]

theorem allResults_of_more {s : Scanner} (more : s.next.1.isLast = false) :
    s.allResults = s.next.1 :: s.next.2.allResults := by
  rw [allResults, results]
  simp [more, allResults]

/-- Results are found from the place of the scanner on, each behind those before it. -/
theorem allResults_places (s : Scanner) :
    (∀ r ∈ s.allResults, ∃ cs, r.position = s.position.after cs) ∧
      s.allResults.Pairwise ScanResult.Behind := by
  obtain ⟨blanks, taken, here, there, moves⟩ := s.next_place
  by_cases more : s.next.1.isLast = false
  · obtain ⟨places, pairs⟩ := s.next.2.allResults_places
    rw [allResults_of_more more]
    have behind : ∀ r ∈ s.next.2.allResults, s.next.1.Behind r := by
      intro r member
      obtain ⟨cs, place⟩ := places r member
      exact ⟨taken ++ cs, by simp [moves more], by rw [place, there, Position.after_append]⟩
    refine ⟨fun r member => ?_, List.pairwise_cons.mpr ⟨behind, pairs⟩⟩
    rcases List.mem_cons.mp member with rfl | member
    · exact ⟨blanks, here⟩
    · obtain ⟨cs, _, place⟩ := behind r member
      exact ⟨blanks ++ cs, by rw [place, here, Position.after_append]⟩
  · rw [allResults_of_last (by simpa using more)]
    refine ⟨fun r member => ?_, List.pairwise_singleton _ _⟩
    rw [List.mem_singleton.mp member]
    exact ⟨blanks, here⟩
termination_by s.rest.length
decreasing_by exact rest_next_lt more

/-- What a scanner shows: everything but comments, up to the first error or the end. -/
def shown (s : Scanner) : List ScanResult :=
  upToError (s.allResults.filter (ScanResult.isSignificant ·))

theorem outline_eq_shown (text : String) : outline text = (ofString text).shown := rfl

/-- No two results of an outline are at one place. -/
theorem outline_place_inj {text : String} {i j : Nat} {r r' : ScanResult}
    (here : (outline text)[i]? = some r) (there : (outline text)[j]? = some r')
    (same : r.position = r'.position) : i = j := by
  have pairs : (outline text).Pairwise ScanResult.Behind :=
    (ofString text).allResults_places.2.sublist
      ((ScanResult.upToError_sublist _).trans List.filter_sublist)
  have apart {a b : Nat} {x y : ScanResult} (lt : a < b) (hx : (outline text)[a]? = some x)
      (hy : (outline text)[b]? = some y) : x.position ≠ y.position := by
    obtain ⟨inside, rfl⟩ := List.getElem?_eq_some_iff.mp hx
    obtain ⟨inside', rfl⟩ := List.getElem?_eq_some_iff.mp hy
    obtain ⟨cs, some, place⟩ := List.pairwise_iff_getElem.mp pairs a b inside inside' lt
    intro same
    exact Position.after_ne some _ (place.symm.trans same.symm)
  rcases Nat.lt_trichotomy i j with lt | eq | gt
  · exact absurd same (apart lt here there)
  · exact eq
  · exact absurd same.symm (apart gt there here)

/-! ## Texts that go on -/

theorem rest_lt_of_token {s s' : Scanner} {t : Token} (step : s.next = (.ok t, s'))
    (more : t.kind ≠ .endOfInput) : s'.rest.length < s.rest.length := by
  have shorter := rest_next_lt (s := s) (by simpa [step, ScanResult.isLast] using more)
  rwa [step] at shorter

theorem shown_of_end {s s' : Scanner} {t : Token} (step : s.next = (.ok t, s'))
    (ends : t.kind = .endOfInput) : s.shown = [.ok t] := by
  have last : s.next.1.isLast = true := by simp [step, ScanResult.isLast, ends]
  rw [shown, allResults_of_last last, step]
  simp [ScanResult.isSignificant, ends, upToError]

theorem shown_of_error {s s' : Scanner} {e : ScanError} (step : s.next = (.error e, s')) :
    s.shown = [.error e] := by
  rw [shown]
  by_cases more : s.next.1.isLast = false
  · rw [allResults_of_more more, step]
    rfl
  · rw [allResults_of_last (by simpa using more), step]
    rfl

theorem shown_of_token {s s' : Scanner} {t : Token} (step : s.next = (.ok t, s'))
    (more : t.kind ≠ .endOfInput) :
    s.shown = if t.kind = .comment then s'.shown else .ok t :: s'.shown := by
  have goesOn : s.next.1.isLast = false := by simpa [step, ScanResult.isLast] using more
  rw [shown, allResults_of_more goesOn, step]
  by_cases comment : t.kind = .comment
  · simp [ScanResult.isSignificant, comment, shown]
  · simp [ScanResult.isSignificant, comment, upToError, shown]

theorem shown_ne_nil (s : Scanner) : s.shown ≠ [] := by
  rcases step : s.next with ⟨e | t, s'⟩
  · rw [shown_of_error step]
    exact List.cons_ne_nil _ _
  · by_cases ends : t.kind = .endOfInput
    · rw [shown_of_end step ends]
      exact List.cons_ne_nil _ _
    · have shorter := rest_lt_of_token step ends
      rw [shown_of_token step ends]
      split
      · exact s'.shown_ne_nil
      · exact List.cons_ne_nil _ _
termination_by s.rest.length

/-- The tokens before a line feed are shown as they were, and then more. -/
theorem shown_lineFeed (s : Scanner) (tail : List Char) :
    ∃ later, later ≠ [] ∧
      shown ⟨s.rest ++ '\n' :: tail, s.position⟩ = s.shown.dropLast ++ later := by
  let whole : Scanner := ⟨s.rest ++ '\n' :: tail, s.position⟩
  rcases step : s.next with ⟨e | t, s'⟩
  · refine ⟨whole.shown, whole.shown_ne_nil, ?_⟩
    rw [shown_of_error step]
    rfl
  · by_cases ends : t.kind = .endOfInput
    · refine ⟨whole.shown, whole.shown_ne_nil, ?_⟩
      rw [shown_of_end step ends]
      rfl
    · have shorter := rest_lt_of_token step ends
      obtain ⟨later, some, rest⟩ := s'.shown_lineFeed tail
      refine ⟨later, some, ?_⟩
      rw [shown_of_token step ends, shown_of_token (next_lineFeed step ends tail) ends, rest]
      split
      · rfl
      · rw [List.dropLast_cons_of_ne_nil s'.shown_ne_nil, List.cons_append]
termination_by s.rest.length

end Scanner

/-- The text is empty or starts with a line feed, so no token of a text before it goes on in it. -/
def StartsLine (text : String) : Prop := ∀ c ∈ text.toList.head?, c = '\n'

instance : DecidablePred StartsLine := fun text =>
  decidable_of_iff (text.toList.head?.all (· == '\n') = true) (by
    unfold StartsLine
    cases text.toList.head? <;> simp)

/-- A text that goes on on a new line shows the tokens that it showed, and then more. -/
theorem Scanner.outline_goesOn (text : String) {more : String} (starts : StartsLine more) :
    ∃ later, later ≠ [] ∧ outline (text ++ more) = (outline text).dropLast ++ later := by
  have whole : ofString (text ++ more) = ⟨text.toList ++ more.toList, .start⟩ := by
    simp [ofString]
  rw [outline_eq_shown, outline_eq_shown, whole]
  cases chars : more.toList with
  | nil =>
    rw [List.append_nil]
    refine ⟨[(ofString text).shown.getLast (shown_ne_nil _)], by simp, ?_⟩
    exact (List.dropLast_concat_getLast (shown_ne_nil _)).symm
  | cons c tail =>
    have feed : c = '\n' := starts c (by simp [chars])
    subst feed
    exact shown_lineFeed (ofString text) tail

end Rulebook
