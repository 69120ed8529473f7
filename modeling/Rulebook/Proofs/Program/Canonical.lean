import Rulebook.Proofs.Program.Cache

/-!
# Bytes that are read are bytes that are written

The converse of reading programs back. Whatever a reader takes from the front of some bytes is what
its writer writes for the value (`Faithful`), from words, texts and lists up to the parts of a program.
So all bytes that are read as a program can be written again, with one exception: of entries for
objects that share a key only one is kept.
-/

namespace Rulebook

namespace Cache

variable {α β : Type}

/-- All that the reader takes for a value is what is written for it. -/
def Faithful (r : Reader α) (write : α → Bytes) : Prop :=
  ∀ bytes a rest, r bytes = .ok (a, rest) → bytes = write a ++ rest

/-! ## One reader after the other -/

theorem bind_eq_ok_iff {r : Reader α} {f : α → Reader β} {bytes rest : Bytes} {b : β} :
    (r >>= f) bytes = .ok (b, rest) ↔
      ∃ a more, r bytes = .ok (a, more) ∧ f a more = .ok (b, rest) := by
  rw [bind_apply]
  cases r bytes with
  | error e => simp
  | ok taken =>
    constructor
    · intro read
      exact ⟨taken.1, taken.2, rfl, read⟩
    · rintro ⟨a, more, first, read⟩
      cases first
      exact read

theorem pure_eq_ok_iff {a b : α} {bytes rest : Bytes} :
    (pure a : Reader α) bytes = .ok (b, rest) ↔ b = a ∧ rest = bytes := by
  change Except.ok (a, bytes) = .ok (b, rest) ↔ _
  simp [eq_comm]

/-! ## Numbers and texts -/

@[simp] theorem length_word (width n : Nat) : (word width n).length = width := by
  induction width generalizing n with
  | zero => rfl
  | succ width ih => rw [word, List.length_cons, ih]

theorem faithful_readWord (width : Nat) : Faithful (readWord width) (word width) := by
  induction width with
  | zero =>
    intro bytes n rest read
    obtain ⟨rfl, rfl⟩ := pure_eq_ok_iff.mp read
    rfl
  | succ width ih =>
    intro bytes n rest read
    cases bytes with
    | nil => cases (readWord_nil width).symm.trans read
    | cons b bytes =>
      rw [readWord_cons] at read
      obtain ⟨high, more, later, value⟩ := bind_eq_ok_iff.mp read
      obtain ⟨rfl, rfl⟩ := pure_eq_ok_iff.mp value
      have byte : b.toNat < 256 := b.toNat_lt
      have low : (b.toNat + 256 * high) % 256 = b.toNat := by omega
      have rest : (b.toNat + 256 * high) / 256 = high := by omega
      rw [word, low, rest, UInt8.ofNat_toNat, List.cons_append, ← ih _ _ _ later]

theorem faithful_readCount : Faithful readCount count := faithful_readWord 8

theorem faithful_readText : Faithful readText text := by
  intro bytes s rest read
  obtain ⟨n, after, counted, read⟩ := bind_eq_ok_iff.mp read
  obtain ⟨taken, left, took, read⟩ := bind_eq_ok_iff.mp read
  rw [readBytes_apply] at took
  split at took
  · rename_i enough
    cases took
    cases decoded : Text.Utf8.decode (after.take n) with
    | error fault =>
      rw [decoded] at read
      cases read
    | ok s' =>
      rw [decoded] at read
      obtain ⟨rfl, rfl⟩ := pure_eq_ok_iff.mp read
      have encoded := Text.Utf8.encode_of_decode decoded
      have length : (Text.Utf8.encode s).length = n := by
        rw [← encoded, List.length_take, Nat.min_eq_left enough]
      rw [faithful_readCount _ _ _ counted, text, length, ← encoded, List.append_assoc,
        List.take_append_drop]
  · cases took

/-! ## Lists -/

theorem faithful_readItems {item : Reader α} {write : α → Bytes} (each : Faithful item write)
    {n : Nat} {bytes rest : Bytes} {items : List α} (read : readItems item n bytes = .ok (items, rest)) :
    items.length = n ∧ bytes = items.flatMap write ++ rest := by
  induction n generalizing bytes items with
  | zero =>
    obtain ⟨rfl, rfl⟩ := pure_eq_ok_iff.mp read
    exact ⟨rfl, rfl⟩
  | succ n ih =>
    obtain ⟨a, more, first, read⟩ := bind_eq_ok_iff.mp read
    obtain ⟨as, last, later, read⟩ := bind_eq_ok_iff.mp read
    obtain ⟨rfl, rfl⟩ := pure_eq_ok_iff.mp read
    obtain ⟨count, written⟩ := ih later
    refine ⟨by rw [List.length_cons, count], ?_⟩
    rw [each _ _ _ first, written, List.flatMap_cons, List.append_assoc]

theorem faithful_readList {item : Reader α} {write : α → Bytes} (each : Faithful item write) :
    Faithful (readList item) (list write) := by
  intro bytes items rest read
  obtain ⟨n, more, counted, read⟩ := bind_eq_ok_iff.mp read
  obtain ⟨length, written⟩ := faithful_readItems each read
  rw [faithful_readCount _ _ _ counted, written, list, length, List.append_assoc]

/-! ## Programs -/

theorem faithful_readKind : Faithful readKind kind := by
  intro bytes k rest read
  obtain ⟨n, more, number, read⟩ := bind_eq_ok_iff.mp read
  have numbered := faithful_readWord 4 _ _ _ number
  have named {n : Nat} (make : String → ClauseKind)
      (written : ∀ name, kind (make name) = kindNumber n ++ text name)
      (read : (do return make (← readText) : Reader ClauseKind) more = .ok (k, rest)) :
      word 4 n ++ more = kind k ++ rest := by
    obtain ⟨name, last, first, read⟩ := bind_eq_ok_iff.mp read
    obtain ⟨rfl, rfl⟩ := pure_eq_ok_iff.mp read
    rw [faithful_readText _ _ _ first, written, kindNumber, List.append_assoc]
  rw [numbered]
  match n, read with
  | 0, read =>
    obtain ⟨object, left, first, read⟩ := bind_eq_ok_iff.mp read
    obtain ⟨field, last, second, read⟩ := bind_eq_ok_iff.mp read
    obtain ⟨rfl, rfl⟩ := pure_eq_ok_iff.mp read
    rw [faithful_readText _ _ _ first, faithful_readText _ _ _ second, kind, kindNumber,
      List.append_assoc, List.append_assoc]
  | 1, read => exact named .directive (fun _ => rfl) read
  | 2, read => exact named .rule (fun _ => rfl) read
  | 3, read => exact named .test (fun _ => rfl) read
  | 4, read =>
    obtain ⟨rfl, rfl⟩ := pure_eq_ok_iff.mp read
    rfl
  | n + 5, read => cases read

theorem faithful_readClause : Faithful readClause clause := by
  intro bytes c rest read
  obtain ⟨k, more, first, read⟩ := bind_eq_ok_iff.mp read
  obtain ⟨body, last, second, read⟩ := bind_eq_ok_iff.mp read
  obtain ⟨rfl, rfl⟩ := pure_eq_ok_iff.mp read
  rw [faithful_readKind _ _ _ first, faithful_readText _ _ _ second, clause, List.append_assoc]

theorem faithful_readEntry : Faithful readEntry entry := by
  intro bytes e rest read
  obtain ⟨key, more, first, read⟩ := bind_eq_ok_iff.mp read
  obtain ⟨value, last, second, read⟩ := bind_eq_ok_iff.mp read
  obtain ⟨rfl, rfl⟩ := pure_eq_ok_iff.mp read
  rw [faithful_readText _ _ _ first, faithful_readText _ _ _ second, entry, List.append_assoc]

/-- What bytes are read as before it becomes a program: clauses, entries for objects, and the names of
tests. -/
def readLists : Reader (List WrittenClause × List (String × String) × List String) := do
  return (← readList readClause, ← readList readEntry, ← readList readText)

theorem readProgram_eq_ok_iff {bytes rest : Bytes} {p : Program} :
    readProgram bytes = .ok (p, rest) ↔ ∃ clauses entries testNames,
      readLists bytes = .ok ((clauses, entries, testNames), rest) ∧
        p = ⟨clauses, .ofList entries, testNames⟩ := by
  simp only [readProgram, readLists, bind_eq_ok_iff, pure_eq_ok_iff, Prod.mk.injEq]
  constructor
  · rintro ⟨clauses, b₁, hc, entries, b₂, he, testNames, b₃, ht, rfl, rfl⟩
    exact ⟨_, _, _, ⟨clauses, b₁, hc, entries, b₂, he, testNames, _, ht, ⟨rfl, rfl, rfl⟩, rfl⟩, rfl⟩
  · rintro ⟨_, _, _, ⟨clauses, b₁, hc, entries, b₂, he, testNames, b₃, ht, ⟨rfl, rfl, rfl⟩, rfl⟩, rfl⟩
    exact ⟨_, b₁, hc, _, b₂, he, _, _, ht, rfl, rfl⟩

theorem faithful_readLists : Faithful readLists fun (clauses, entries, testNames) =>
    list clause clauses ++ list entry entries ++ list text testNames := by
  intro bytes lists rest read
  obtain ⟨clauses, b₁, hc, read⟩ := bind_eq_ok_iff.mp read
  obtain ⟨entries, b₂, he, read⟩ := bind_eq_ok_iff.mp read
  obtain ⟨testNames, b₃, ht, read⟩ := bind_eq_ok_iff.mp read
  obtain ⟨rfl, rfl⟩ := pure_eq_ok_iff.mp read
  rw [faithful_readList faithful_readClause _ _ _ hc, faithful_readList faithful_readEntry _ _ _ he,
    faithful_readList faithful_readText _ _ _ ht]
  simp only [List.append_assoc]

/-! ## Entries that share a key -/

/-- An entry takes the bytes of two lengths at least. -/
theorem length_entry_pos (e : String × String) : 0 < (entry e).length := by
  simp only [entry, text, count, List.length_append, length_word]
  omega

/-- An entry that takes the place of another adds less than its own length. -/
theorem length_put_lt {key : String} {entries : List (String × String)}
    (present : key ∈ entries.map Prod.fst) (value : String) :
    ((Entries.put key value entries).flatMap entry).length <
      (entries.flatMap entry).length + (entry (key, value)).length := by
  induction entries with
  | nil => cases present
  | cons first rest ih =>
    rcases first with ⟨k, v⟩
    by_cases same : k = key
    · subst same
      have taken := length_entry_pos (k, v)
      simp only [Entries.put, if_true, List.flatMap_cons, List.length_append]
      omega
    · have later : key ∈ rest.map Prod.fst := by simpa [Ne.symm same] using present
      have shorter := ih later
      simp only [Entries.put, if_neg same, List.flatMap_cons, List.length_append]
      omega

/-- A table of entries with a repeated key takes fewer bytes than the entries. -/
theorem length_ofList_lt {entries : List (String × String)}
    (repeated : ¬ (entries.map Prod.fst).Nodup) :
    ((Table.ofList entries).entries.flatMap entry).length < (entries.flatMap entry).length := by
  induction entries using List.reverseRecOn with
  | nil => exact absurd List.nodup_nil repeated
  | append_singleton entries e ih =>
    rcases e with ⟨key, value⟩
    have earlier : ((Table.ofList entries).entries.flatMap entry).length ≤
        (entries.flatMap entry).length := by
      by_cases distinct : (entries.map Prod.fst).Nodup
      · rw [Table.entries_ofList distinct]
      · exact (ih distinct).le
    rw [Table.ofList_concat, List.flatMap_append, List.length_append, List.flatMap_singleton]
    change ((Entries.put key value (Table.ofList entries).entries).flatMap entry).length < _
    by_cases present : key ∈ (Table.ofList entries).keys
    · have shorter := length_put_lt present value
      omega
    · have absent : key ∉ entries.map Prod.fst := by
        rwa [Table.keys_ofList, List.mem_eraseDups] at present
      have shorter := ih fun distinct => repeated (by
        rw [List.map_append]
        exact distinct.append (List.nodup_singleton _) (by simpa using absent))
      rw [Entries.put_of_not_mem present, List.flatMap_append, List.length_append,
        List.flatMap_singleton]
      omega

end Cache

theorem load_eq_ok_iff {bytes : List UInt8} {p : Program} :
    Compiler.load bytes = .ok p ↔ ∃ rest, Cache.readProgram bytes = .ok (p, rest) := by
  have run : Cache.readProgram.run bytes = Cache.readProgram bytes := rfl
  rw [Compiler.load, Program.ofBytes, run]
  cases Cache.readProgram bytes with
  | error e => simp [Except.mapError]
  | ok read =>
    rcases read with ⟨q, rest⟩
    simp [Except.mapError]

/-- Reading a program loses nothing but repeated entries. If the entries for objects that are read
have distinct keys, writing the program gives all bytes that were read. If a key comes again, the
written program is shorter. In both cases an object has its last name at its first place. -/
theorem load_loses_only_repeats {bytes : List UInt8} {p : Program}
    (loaded : Compiler.load bytes = .ok p) :
    ∃ read rest entries, bytes = read ++ rest ∧
      Cache.readLists bytes = .ok ((p.clauses, entries, p.testNames), rest) ∧
      ((entries.map Prod.fst).Nodup → p.toBytes = read) ∧
      (¬ (entries.map Prod.fst).Nodup → p.toBytes.length < read.length) ∧
      p.symbols.keys = (entries.map Prod.fst).eraseDups ∧
      ∀ key, p.symbols.find? key = Entries.get? key entries.reverse := by
  obtain ⟨rest, read⟩ := load_eq_ok_iff.mp loaded
  obtain ⟨clauses, entries, testNames, lists, rfl⟩ := Cache.readProgram_eq_ok_iff.mp read
  refine ⟨_, rest, entries, Cache.faithful_readLists _ _ _ lists, lists, ?_, ?_,
    Table.keys_ofList entries, Table.find?_ofList entries⟩
  · intro distinct
    rw [Program.toBytes, Cache.program, Table.entries_ofList distinct]
  · intro repeated
    have shorter := Cache.length_ofList_lt repeated
    simp only [Program.toBytes, Cache.program, Cache.list, Cache.count, List.length_append,
      Cache.length_word]
    omega

/-- The first of two objects is named twice, before a test name and a byte that is left. -/
theorem load_loses_only_repeats_once :
    let bytes := Cache.list Cache.clause [⟨.rule "é", "a"⟩] ++
      Cache.list Cache.entry [("k", "o_1"), ("j", "o_2"), ("k", "o_30")] ++
      Cache.list Cache.text ["t"] ++ [255]
    ∃ p read, Compiler.load bytes = .ok p ∧ bytes = read ++ [255] ∧
      p.toBytes.length < read.length ∧ p.symbols.keys = ["k", "j"] ∧
      p.symbols.find? "k" = some "o_30" := by
  intro bytes
  let p : Program := ⟨[⟨.rule "é", "a"⟩], .ofList [("k", "o_30"), ("j", "o_2")], ["t"]⟩
  have loaded : Compiler.load bytes = .ok p := by decide +kernel
  have lists : Cache.readLists bytes = .ok ((p.clauses,
      [("k", "o_1"), ("j", "o_2"), ("k", "o_30")], p.testNames), [255]) := by decide +kernel
  obtain ⟨read, rest, entries, whole, lists', _, shorter, keys, values⟩ :=
    load_loses_only_repeats loaded
  rw [lists] at lists'
  cases lists'
  exact ⟨p, read, loaded, whole, shorter (by decide), keys, values "k"⟩

end Rulebook
