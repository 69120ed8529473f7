import Mathlib
import Rulebook.Compiler
import Rulebook.Proofs.Table
import Rulebook.Proofs.Text.Utf8

/-!
# Programs are read back from their bytes

Each reader undoes its writer exactly: it takes all bytes that were written and none that follow, and
it fails if some of them are missing (`Takes`). This goes from words, texts and lists up to whole
programs, so bytes that are cut off are never taken for another program.
-/

namespace Rulebook

/-- The texts of a kind of clause. -/
def ClauseKind.texts : ClauseKind → List String
  | accessor object field => [object, field]
  | directive name | rule name | test name => [name]
  | testCases => []

namespace Cache

variable {α β : Type}

/-- The reader takes exactly these bytes for the value: it leaves whatever follows them, and it fails
on every start of them that is not the whole. -/
structure Takes (r : Reader α) (bytes : Bytes) (a : α) : Prop where
  whole : ∀ rest, r (bytes ++ rest) = .ok (a, rest)
  cut : ∀ start, start <+: bytes → start ≠ bytes → ∃ e, r start = .error e

/-! ## One reader after the other -/

theorem bind_apply (r : Reader α) (f : α → Reader β) (bytes : Bytes) :
    (r >>= f) bytes = match r bytes with
      | .ok (a, rest) => f a rest
      | .error e => .error e := by
  change (r bytes >>= fun x => f x.1 x.2) = _
  cases r bytes <;> rfl

theorem takes_pure (a : α) : Takes (pure a) [] a :=
  ⟨fun _ => rfl, fun _ start other => absurd (List.prefix_nil.mp start) other⟩

/-- What is cut off from two runs of bytes is cut off inside the first or inside the second. -/
theorem Takes.bind {r : Reader α} {f : α → Reader β} {bs cs : Bytes} {a : α} {b : β}
    (first : Takes r bs a) (second : Takes (f a) cs b) : Takes (r >>= f) (bs ++ cs) b := by
  constructor
  · intro rest
    rw [bind_apply, List.append_assoc, first.whole]
    exact second.whole rest
  · intro start within other
    rw [bind_apply]
    obtain ⟨missing, whole⟩ := within
    rcases List.append_eq_append_iff.mp whole with ⟨more, rfl, rfl⟩ | ⟨more, rfl, rfl⟩
    · by_cases all : more = []
      · subst all
        rw [List.append_nil] at first other
        have none := second.cut [] List.nil_prefix fun same => other (by simp [← same])
        have taken := first.whole []
        rw [List.append_nil] at taken
        rw [taken]
        exact none
      · obtain ⟨e, fails⟩ := first.cut start (List.prefix_append _ _) (by simp [all])
        rw [fails]
        exact ⟨e, rfl⟩
    · rw [first.whole]
      exact second.cut more (List.prefix_append _ _) fun same => other (by rw [← same])

/-- A reader whose value is changed. -/
theorem Takes.map {r : Reader α} {bytes : Bytes} {a : α} (h : Takes r bytes a) (f : α → β) :
    Takes (do return f (← r)) bytes (f a) := by
  have step : Takes (r >>= fun a => pure (f a)) (bytes ++ []) (f a) := h.bind (takes_pure (f a))
  rwa [List.append_nil] at step

/-! ## Numbers and texts -/

theorem readWord_nil (width : Nat) : readWord (width + 1) [] = .error .endOfBytes := rfl

theorem readWord_cons (width : Nat) (b : UInt8) (bytes : Bytes) :
    readWord (width + 1) (b :: bytes) =
      (do return b.toNat + 256 * (← readWord width) : Reader Nat) bytes := rfl

theorem takes_readWord {width n : Nat} (small : n < 256 ^ width) :
    Takes (readWord width) (word width n) n := by
  induction width generalizing n with
  | zero =>
    obtain rfl : n = 0 := by omega
    exact takes_pure 0
  | succ width ih =>
    have low : (UInt8.ofNat (n % 256)).toNat = n % 256 :=
      Text.Utf8.toNat_byte (Nat.mod_lt n (by omega))
    have high : n / 256 < 256 ^ width := by
      rw [Nat.pow_succ] at small
      exact Nat.div_lt_of_lt_mul (by omega)
    have later := (ih high).map ((UInt8.ofNat (n % 256)).toNat + 256 * ·)
    have value : (UInt8.ofNat (n % 256)).toNat + 256 * (n / 256) = n := by omega
    rw [value] at later
    constructor
    · intro rest
      rw [word, List.cons_append, readWord_cons]
      exact later.whole rest
    · intro start within other
      cases start with
      | nil => exact ⟨_, readWord_nil width⟩
      | cons b start =>
        rw [word, List.cons_prefix_cons] at within
        obtain ⟨rfl, within⟩ := within
        rw [readWord_cons]
        exact later.cut start within fun same => other (by rw [word, same])

theorem readBytes_apply (n : Nat) (bytes : Bytes) : readBytes n bytes =
    if n ≤ bytes.length then .ok (bytes.take n, bytes.drop n) else .error .shortText := by
  unfold readBytes
  rw [bind_apply]
  change (ite _ _ _ : Reader Bytes) bytes = _
  split <;> rfl

theorem takes_readBytes (bytes : Bytes) : Takes (readBytes bytes.length) bytes bytes := by
  constructor
  · intro rest
    rw [readBytes_apply, if_pos (by simp), List.take_left, List.drop_left]
  · intro start within other
    have shorter : start.length < bytes.length := by
      rcases Nat.lt_or_eq_of_le within.length_le with less | same
      · exact less
      · exact absurd (within.eq_of_length same) other
    exact ⟨.shortText, by rw [readBytes_apply, if_neg (by omega)]⟩

/-- A count or a length takes eight bytes at most. -/
def Fits (n : Nat) : Prop := n < 2 ^ 64

instance (n : Nat) : Decidable (Fits n) := inferInstanceAs (Decidable (n < 2 ^ 64))

theorem takes_readCount {n : Nat} (fits : Fits n) : Takes readCount (count n) n :=
  takes_readWord fits

/-- The bytes of the text can be counted. -/
def TextFits (s : String) : Prop := Fits (Text.Utf8.encode s).length

instance (s : String) : Decidable (TextFits s) :=
  inferInstanceAs (Decidable (Fits (Text.Utf8.encode s).length))

/-- The bytes of a text are read as the text. -/
theorem takes_decoded (s : String) :
    Takes (do match Text.Utf8.decode (← readBytes (Text.Utf8.encode s).length) with
      | .ok s => return s
      | .error fault => throw (.notText fault)) (Text.Utf8.encode s ++ []) s := by
  refine (takes_readBytes _).bind ?_
  rw [Text.Utf8.decode_encode]
  exact takes_pure s

theorem takes_readText {s : String} (fits : TextFits s) : Takes readText (text s) s := by
  have decoded := takes_decoded s
  rw [List.append_nil] at decoded
  exact (takes_readCount fits).bind decoded

/-! ## Lists -/

theorem takes_readItems {item : Reader α} {write : α → Bytes} {items : List α}
    (each : ∀ a ∈ items, Takes item (write a) a) :
    Takes (readItems item items.length) (items.flatMap write) items := by
  induction items with
  | nil => exact takes_pure []
  | cons a rest ih =>
    rw [List.forall_mem_cons] at each
    rw [List.length_cons, readItems, List.flatMap_cons]
    exact each.1.bind ((ih each.2).map (a :: ·))

theorem takes_readList {item : Reader α} {write : α → Bytes} {items : List α}
    (fits : Fits items.length) (each : ∀ a ∈ items, Takes item (write a) a) :
    Takes (readList item) (list write items) items :=
  (takes_readCount fits).bind (takes_readItems each)

/-! ## Programs -/

theorem takes_readKindNumber {n : Nat} (small : n < 256 ^ 4) :
    Takes readKindNumber (kindNumber n) n := takes_readWord small

theorem takes_readKind {k : ClauseKind} (fits : ∀ s ∈ k.texts, TextFits s) :
    Takes readKind (kind k) k := by
  cases k with
  | accessor object field =>
    have hobject := takes_readText (fits object (by simp [ClauseKind.texts]))
    have hfield := takes_readText (fits field (by simp [ClauseKind.texts]))
    rw [kind, List.append_assoc]
    exact (takes_readKindNumber (by decide)).bind (hobject.bind (hfield.map _))
  | directive relation =>
    have htext := takes_readText (fits relation (by simp [ClauseKind.texts]))
    exact (takes_readKindNumber (by decide)).bind (htext.map _)
  | rule name =>
    have htext := takes_readText (fits name (by simp [ClauseKind.texts]))
    exact (takes_readKindNumber (by decide)).bind (htext.map _)
  | test name =>
    have htext := takes_readText (fits name (by simp [ClauseKind.texts]))
    exact (takes_readKindNumber (by decide)).bind (htext.map _)
  | testCases =>
    have number : Takes readKind (kindNumber 4 ++ []) .testCases :=
      (takes_readKindNumber (by decide)).bind (takes_pure _)
    rwa [List.append_nil] at number

theorem takes_readClause {c : WrittenClause} (kindFits : ∀ s ∈ c.kind.texts, TextFits s)
    (textFits : TextFits c.text) : Takes readClause (clause c) c :=
  (takes_readKind kindFits).bind ((takes_readText textFits).map _)

theorem takes_readEntry {e : String × String} (key : TextFits e.1) (value : TextFits e.2) :
    Takes readEntry (entry e) e :=
  (takes_readText key).bind ((takes_readText value).map _)

end Cache

/-- All counts and the lengths of all texts fit into the bytes that they take. -/
structure Program.Fits (p : Program) : Prop where
  clauses : Cache.Fits p.clauses.length
  symbols : Cache.Fits p.symbols.entries.length
  testNames : Cache.Fits p.testNames.length
  clauseTexts : ∀ c ∈ p.clauses, ∀ s ∈ c.text :: c.kind.texts, Cache.TextFits s
  symbolTexts : ∀ e ∈ p.symbols.entries, Cache.TextFits e.1 ∧ Cache.TextFits e.2
  testNameTexts : ∀ name ∈ p.testNames, Cache.TextFits name

theorem Cache.takes_readProgram {p : Program} (fits : p.Fits) :
    Takes readProgram (program p) p := by
  have symbols : Table.ofList p.symbols.entries = p.symbols :=
    Table.ext (Table.entries_ofList p.symbols.distinct)
  have clauses := takes_readList fits.clauses fun c member =>
    takes_readClause (fun s here => fits.clauseTexts c member s (List.mem_cons_of_mem _ here))
      (fits.clauseTexts c member c.text List.mem_cons_self)
  have entries := takes_readList fits.symbols fun e member =>
    takes_readEntry (fits.symbolTexts e member).1 (fits.symbolTexts e member).2
  have names := takes_readList fits.testNames fun name member =>
    takes_readText (fits.testNameTexts name member)
  have read : Takes readProgram
      (list clause p.clauses ++ (list entry p.symbols.entries ++ list text p.testNames))
      ⟨p.clauses, .ofList p.symbols.entries, p.testNames⟩ :=
    clauses.bind (entries.bind (names.map _))
  rw [symbols] at read
  rw [program, List.append_assoc]
  exact read

/-- A program is read back from its bytes, whatever follows them, and bytes that are cut off are no
program. -/
theorem cache_exact {p : Program} (fits : p.Fits) :
    (∀ rest, Compiler.load (p.toBytes ++ rest) = .ok p) ∧
      ∀ start, start <+: p.toBytes → start ≠ p.toBytes →
        ∃ e, Compiler.load start = .error (.cache e) := by
  have takes := Cache.takes_readProgram fits
  constructor
  · intro rest
    have read : Cache.readProgram.run (p.toBytes ++ rest) = .ok (p, rest) := takes.whole rest
    rw [Compiler.load, Program.ofBytes, read]
    rfl
  · intro start within other
    obtain ⟨e, fails⟩ := takes.cut start within other
    have fails : Cache.readProgram.run start = .error e := fails
    refine ⟨e, ?_⟩
    rw [Compiler.load, Program.ofBytes, fails]
    rfl

/-- Two objects, a text with characters of one to four bytes, and a cut inside the last test name. -/
theorem cache_exact_cut :
    let p : Program := ⟨[⟨.accessor "é" "x", "a\n"⟩, ⟨.testCases, "𝔸→"⟩],
      .ofList [("é", "o_1"), ("b", "o_2")], ["", "t"]⟩
    p.Fits ∧ Compiler.load (p.toBytes ++ [255]) = .ok p ∧
      ∃ e, Compiler.load p.toBytes.dropLast = .error (.cache e) := by
  intro p
  have fits : p.Fits :=
    ⟨by decide, by decide, by decide, by decide +kernel, by decide +kernel, by decide +kernel⟩
  refine ⟨fits, (cache_exact fits).1 [255], ?_⟩
  exact (cache_exact fits).2 _ (List.dropLast_prefix _) (by decide +kernel)

end Rulebook
