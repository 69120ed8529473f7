import Mathlib
import Rulebook.Compiler
import Rulebook.Proofs.Grammar.Unambiguous
import Rulebook.Proofs.Parser.Document

/-!
# The parser accepts the grammar

A text has a document exactly if its tokens, comments left out, are declarations with distinct
names, and the document is then what these declarations mean. Every text has one reading at most, so
the document is the tree of the only derivation.
-/

namespace Rulebook

open Rulebook.Parser

/-- The text consists of these tokens, comments included, and no piece of it is anything else. -/
def Scans (text : String) (tokens : List Token) : Prop :=
  ∃ last, (Scanner.ofString text).results = (tokens.map .ok, .ok last)

/-- The tokens that are not comments. -/
def significant (tokens : List Token) : List Token := tokens.filter (·.kind != .comment)

/-- A text can be read up to its end exactly if it has no lexical error. -/
theorem Parser.Cursor.Starts.reads_all {stream : TokenStream} {c : Cursor} {ts : List Token}
    (starts : c.Starts stream) (proper : stream.Proper) :
    (∃ c', Reads c ts c' ∧ c'.current.kind = .endOfInput) ↔
      stream.pending = ts.map .ok ∧ ∃ e, stream.last = .ok e := by
  induction ts generalizing stream c with
  | nil =>
    have here : stream.next = (.ok c.current, c.ahead) := starts
    simp only [Reads.nil_iff, exists_eq_left, List.map_nil]
    cases pending : stream.pending with
    | nil =>
      simp only [TokenStream.next, pending, Prod.mk.injEq] at here
      have ends := proper.last _ here.1
      simp [here.1, ends]
    | cons result later =>
      simp only [TokenStream.next, pending, Prod.mk.injEq] at here
      have more := (proper.pending c.current (by simp [pending, here.1])).2
      simp [more]
  | cons t ts ih =>
    have here : stream.next = (.ok c.current, c.ahead) := starts
    cases pending : stream.pending with
    | nil =>
      simp only [TokenStream.next, pending, Prod.mk.injEq] at here
      have ends := proper.last _ here.1
      constructor
      · intro ⟨c', reads, _⟩
        obtain ⟨_, first, _⟩ := Reads.cons_iff.mp reads
        obtain ⟨rfl, more, _⟩ := Reads.one_iff.mp first
        exact absurd ends more
      · intro h
        simp at h
    | cons result later =>
      simp only [TokenStream.next, pending, Prod.mk.injEq] at here
      rcases here with ⟨rfl, ahead⟩
      have more := (proper.pending c.current (by simp [pending])).2
      have same : c.ahead.pending = later ∧ c.ahead.last = stream.last := by simp [← ahead]
      constructor
      · intro ⟨c', reads, ends⟩
        obtain ⟨c₁, first, rest⟩ := Reads.cons_iff.mp reads
        obtain ⟨rfl, _, next⟩ := Reads.one_iff.mp first
        have whole := (ih next c.properAhead).mp ⟨c', rest, ends⟩
        rw [same.1, same.2] at whole
        exact ⟨by rw [whole.1, List.map_cons], whole.2⟩
      · intro ⟨whole, last⟩
        simp only [List.map_cons, List.cons.injEq, Except.ok.injEq] at whole
        rw [← same.1] at whole
        rw [← same.2] at last
        obtain ⟨c₁, next⟩ := Cursor.exists_starts_of_ok c.properAhead whole.2 last
        obtain ⟨c', rest, ends⟩ := (ih next c.properAhead).mpr ⟨whole.2, last⟩
        rw [← whole.1]
        exact ⟨c', .cons more next rest, ends⟩

/-- A parser runs on a text from the first token on. -/
theorem Parser.runOn_ok_iff {α : Type} {p : Parser α} {text : String} {a : α} :
    p.runOn text = .ok a ↔
      ∃ c : Cursor, c.Starts (.ofString text) ∧ ∃ s', Yields p (c.state .empty) a s' := by
  rw [runOn_eq_runFrom, runFrom_ok_iff (TokenStream.ofString_proper text)]

/-- Results among which all but the comments are tokens are tokens, all of them. -/
theorem filter_significant_iff {results : List ScanResult} {ts : List Token} :
    results.filter (ScanResult.isSignificant ·) = ts.map .ok ↔
      ∃ tokens : List Token, results = tokens.map .ok ∧ significant tokens = ts := by
  constructor
  · intro h
    induction results generalizing ts with
    | nil =>
      have none : ts = [] := by simpa using h.symm
      exact ⟨[], rfl, none.symm⟩
    | cons result results ih =>
      cases result with
      | error e =>
        -- An error is not left out, so it would have to be a token.
        cases ts <;> simp [ScanResult.isSignificant] at h
      | ok t =>
        by_cases comment : t.kind = .comment
        · rw [List.filter_cons_of_neg (by simp [ScanResult.isSignificant, comment])] at h
          obtain ⟨tokens, rfl, rfl⟩ := ih h
          exact ⟨t :: tokens, rfl, by simp [significant, comment]⟩
        · rw [List.filter_cons_of_pos (by simp [ScanResult.isSignificant, comment])] at h
          cases ts with
          | nil => simp at h
          | cons u us =>
            simp only [List.map_cons, List.cons.injEq, Except.ok.injEq] at h
            rcases h with ⟨rfl, h⟩
            obtain ⟨tokens, rfl, rfl⟩ := ih h
            exact ⟨t :: tokens, rfl, by simp [significant, comment]⟩
  · intro ⟨tokens, whole, chosen⟩
    rw [whole, ← chosen, List.filter_map]
    rfl

/-- The tokens of a text are what its stream gives. -/
theorem scans_iff {text : String} {ts : List Token} :
    (∃ tokens, Scans text tokens ∧ significant tokens = ts) ↔
      (TokenStream.ofString text).pending = ts.map .ok ∧
        ∃ e, (TokenStream.ofString text).last = .ok e := by
  have pending : (TokenStream.ofString text).pending =
      (Scanner.ofString text).results.1.filter (ScanResult.isSignificant ·) := rfl
  have last : (TokenStream.ofString text).last = (Scanner.ofString text).results.2 := rfl
  rw [pending, last, filter_significant_iff]
  constructor
  · intro ⟨tokens, ⟨e, whole⟩, chosen⟩
    rw [whole]
    exact ⟨⟨tokens, rfl, chosen⟩, e, rfl⟩
  · intro ⟨⟨tokens, whole, chosen⟩, e, ends⟩
    exact ⟨tokens, ⟨e, by rw [← whole, ← ends]⟩, chosen⟩

theorem Scans.unique {text : String} {tokens tokens' : List Token} (h : Scans text tokens)
    (h' : Scans text tokens') : tokens = tokens' := by
  rcases h with ⟨_, whole⟩
  rcases h' with ⟨_, whole'⟩
  rw [whole] at whole'
  simp only [Prod.mk.injEq] at whole'
  exact (List.map_inj_right fun _ _ => Except.ok.inj).mp whole'.1

theorem parse_eq_ok_iff {text : String} {d : Document} :
    Compiler.parse text = .ok d ↔ document.runOn text = .ok d := by
  change (document.runOn text).mapError _ = _ ↔ _
  cases document.runOn text <;> simp [Except.mapError]

/-- A text has a document exactly if it consists of tokens, and those that are not comments are
declarations with distinct names. -/
theorem parse_ok_iff {text : String} {d : Document} :
    Compiler.parse text = .ok d ↔
      ∃ tokens ws, Scans text tokens ∧ Grammar.Declarations (significant tokens) ws ∧
        Written.Distinct ws ∧ d = Written.document ws := by
  rw [parse_eq_ok_iff, runOn_ok_iff]
  have proper := TokenStream.ofString_proper text
  constructor
  · rintro ⟨c, starts, h⟩
    obtain ⟨ts, c', ws, reads, ends, hws, distinct, tree⟩ := yields_document.mp h
    have whole := (starts.reads_all proper).mp ⟨c', reads, ends⟩
    obtain ⟨tokens, scans, rfl⟩ := scans_iff.mpr whole
    exact ⟨tokens, ws, scans, hws, distinct, tree⟩
  · rintro ⟨tokens, ws, scans, hws, distinct, tree⟩
    have whole := scans_iff.mp ⟨tokens, scans, rfl⟩
    obtain ⟨c, starts⟩ := Cursor.exists_starts_of_ok proper whole.1 whole.2
    obtain ⟨c', reads, ends⟩ := (starts.reads_all proper).mpr whole
    exact ⟨c, starts, yields_document.mpr ⟨_, c', ws, reads, ends, hws, distinct, tree⟩⟩

/-- A result of which something is known is there. -/
theorem exists_ok_of_map {ε α β : Type} {x : Except ε α} {f : α → β} {b : β}
    (answer : x.toOption.map f = some b) : ∃ a, x = .ok a ∧ f a = b := by
  cases x with
  | error e => cases answer
  | ok a => exact ⟨a, rfl, Option.some.inj answer⟩

/-- The document of a text that scans is the tree of its derivation. There is a document exactly if
there is a derivation with distinct names, and no text has two derivations. -/
theorem parse_iff_derivation {text : String} {tokens : List Token} (scans : Scans text tokens) :
    (∀ d, Compiler.parse text = .ok d ↔
      ∃ ws, Grammar.Declarations (significant tokens) ws ∧ Written.Distinct ws ∧
        d = Written.document ws) ∧
    ∀ ws ws', Grammar.Declarations (significant tokens) ws →
      Grammar.Declarations (significant tokens) ws' → ws = ws' := by
  refine ⟨fun d => ?_, fun ws ws' h h' => Grammar.declarations_unique h h'⟩
  rw [parse_ok_iff]
  constructor
  · intro ⟨tokens', ws, scans', h⟩
    rw [scans.unique scans']
    exact ⟨ws, h⟩
  · intro ⟨ws, h⟩
    exact ⟨tokens, ws, scans, h⟩

/-- A rule with one comparison, and a comment after it. -/
theorem parse_iff_derivation_rule :
    (∃ tokens, Scans "rule r { input { } rules { a = b } } #" tokens) ∧
    Compiler.parse "rule r { input { } rules { a = b } } #" =
      .ok (Written.document [.rule ⟨"r", [], [⟨"==", [.term (.ident "a"), .term (.ident "b")]⟩]⟩]) := by
  let token (kind : Token.Kind) (literal : String) (column : Nat) : Token :=
    ⟨⟨kind, literal⟩, ⟨1, column⟩⟩
  have scans : Scans "rule r { input { } rules { a = b } } #"
      [token (.keyword .rule) "rule" 1, token .identifier "r" 6,
        token (.delimiter .leftBrace) "" 8, token (.keyword .input) "input" 10,
        token (.delimiter .leftBrace) "" 16, token (.delimiter .rightBrace) "" 18,
        token (.keyword .rules) "rules" 20, token (.delimiter .leftBrace) "" 26,
        token .identifier "a" 28, token (.operator .equal) "" 30, token .identifier "b" 32,
        token (.delimiter .rightBrace) "" 34, token (.delimiter .rightBrace) "" 36,
        token .comment "#" 38] := ⟨token .endOfInput "" 39, by cbv⟩
  refine ⟨⟨_, scans⟩, ((parse_iff_derivation scans).1 _).mpr ⟨_, ?_, ?_, rfl⟩⟩
  · have a : Grammar.Chain 3 [token .identifier "a" 28] (.term (.ident "a")) := .literal (.name rfl)
    have b : Grammar.Chain 4 [token .identifier "b" 32] (.term (.ident "b")) := .literal (.name rfl)
    have same : Grammar.Chain 0
        ([token .identifier "a" 28] ++ token (.operator .equal) "" 30 :: [token .identifier "b" 32])
        (.app Operator.equal.spelling [.term (.ident "a"), .term (.ident "b")]) :=
      .join rfl (Nat.zero_le 3) a rfl b
    have comparison : Grammar.Expression
        [token .identifier "a" 28, token (.operator .equal) "" 30, token .identifier "b" 32]
        ⟨"==", [.term (.ident "a"), .term (.ident "b")]⟩ := .chain same
    have body : Grammar.Braced Grammar.Expression (token (.delimiter .leftBrace) "" 26 ::
        [token .identifier "a" 28, token (.operator .equal) "" 30, token .identifier "b" 32] ++
        [token (.delimiter .rightBrace) "" 34]) [⟨"==", [.term (.ident "a"), .term (.ident "b")]⟩] :=
      .mk rfl (.one comparison) rfl
    exact .cons (.rule rfl (.mk rfl rfl rfl (.none rfl rfl) rfl (.some body) rfl)) .nil
  · exact ⟨by decide, by simp [Written.Declaration.Distinct]⟩

end Rulebook
