import Mathlib.Data.List.Basic
import Rulebook.Json.Reader
import Rulebook.Json.Writer
import Rulebook.Proofs.Text.Decimal

/-!
# Reading undoes writing

Every value is read back from its compact text (`Json.parse?_render`). A value is read from the front
of a text, whatever follows it; only after a number the next character matters, which must not go on
with the number (`Json.value?_chars`).
-/

namespace Rulebook.Json

/-- Induction over values: an array or an object follows from what it holds. -/
theorem induction {motive : Json → Prop} (null : motive .null) (bool : ∀ b, motive (.bool b))
    (int : ∀ n, motive (.int n)) (real : motive .real) (string : ∀ text, motive (.string text))
    (array : ∀ items, (∀ j ∈ items, motive j) → motive (.array items))
    (object : ∀ members, (∀ m ∈ members, motive m.2) → motive (.object members))
    (broken : motive .broken) (j : Json) : motive j :=
  @Json.rec motive (fun items => ∀ j ∈ items, motive j) (fun members => ∀ m ∈ members, motive m.2)
    (fun m => motive m.2) null bool int real string array object broken nofun
    (fun _ _ first rest => List.forall_mem_cons.mpr ⟨first, rest⟩) nofun
    (fun _ _ first rest => List.forall_mem_cons.mpr ⟨first, rest⟩) (fun _ _ value => value) j

/-! ## Nesting -/

mutual

/-- How many arrays and objects are open at most. -/
def depth : Json → Nat
  | array items => depths items + 1
  | object members => memberDepths members + 1
  | null | bool _ | int _ | real | string _ | broken => 0

def depths : List Json → Nat
  | [] => 0
  | item :: rest => max (depth item) (depths rest)

def memberDepth : String × Json → Nat
  | (_, value) => depth value

def memberDepths : List (String × Json) → Nat
  | [] => 0
  | member :: rest => max (memberDepth member) (memberDepths rest)

end

theorem depths_le_iff {items : List Json} {n : Nat} :
    depths items ≤ n ↔ ∀ j ∈ items, j.depth ≤ n := by
  induction items with
  | nil => simp [depths]
  | cons item rest ih => rw [depths, Nat.max_le, ih, List.forall_mem_cons]

theorem memberDepths_le_iff {members : List (String × Json)} {n : Nat} :
    memberDepths members ≤ n ↔ ∀ m ∈ members, m.2.depth ≤ n := by
  induction members with
  | nil => simp [memberDepths]
  | cons member rest ih =>
    rcases member with ⟨key, value⟩
    rw [memberDepths, memberDepth, Nat.max_le, ih, List.forall_mem_cons]

/-! ## Texts of values -/

theorem chars_int (n : Int) : (int n).chars = (toString n).toList := rfl

theorem chars_string (text : String) : (string text).chars = quote text := rfl

theorem chars_array (first : Json) (rest : List Json) :
    (array (first :: rest)).chars = '[' :: (first.chars ++ itemsAfter rest) := rfl

theorem chars_object (first : String × Json) (rest : List (String × Json)) :
    (object (first :: rest)).chars = '\x7b' :: (memberChars first ++ membersAfter rest) := rfl

theorem itemsAfter_cons (item : Json) (rest : List Json) :
    itemsAfter (item :: rest) = ',' :: (item.chars ++ itemsAfter rest) := rfl

theorem memberChars_eq (key : String) (value : Json) :
    memberChars (key, value) = quote key ++ ':' :: value.chars := rfl

theorem membersAfter_cons (member : String × Json) (rest : List (String × Json)) :
    membersAfter (member :: rest) = ',' :: (memberChars member ++ membersAfter rest) := rfl

theorem quote_append (text : String) (rest : List Char) :
    quote text ++ rest = '"' :: (text.toList.flatMap escape ++ '"' :: rest) := by
  simp [quote]

/-! ## Strings -/

theorem hexValue?_hexDigit {n : Nat} (small : n < 16) : hexValue? (hexDigit n) = some n := by
  have all : ∀ m : Fin 16, hexValue? (hexDigit m.val) = some m.val := by decide
  exact all ⟨n, small⟩

/-- A character is read back from its escape. -/
theorem pieces?_escape (c : Char) (rest : List Char) :
    pieces? (escape c ++ rest) = before (.char c) (pieces? rest) := by
  unfold escape
  split_ifs with quote backslash lineFeed return_ tab backspace formFeed control
  · rw [quote]
    rfl
  · rw [backslash]
    rfl
  · rw [lineFeed]
    rfl
  · rw [return_]
    rfl
  · rw [tab]
    rfl
  · have same : c = '\x08' := Char.toNat_inj.mp backspace
    rw [same]
    rfl
  · have same : c = '\x0c' := Char.toNat_inj.mp formFeed
    rw [same]
    rfl
  · have unit : unit? '0' '0' (hexDigit (c.toNat / 16)) (hexDigit (c.toNat % 16)) =
        some c.toNat := by
      have zero : hexValue? '0' = some 0 := by decide
      have value : c.toNat / 16 * 16 + c.toNat % 16 = c.toNat := by omega
      simp [unit?, zero, hexValue?_hexDigit (show c.toNat / 16 < 16 by omega),
        hexValue?_hexDigit (show c.toNat % 16 < 16 by omega), value]
    have whole : Piece.ofUnit c.toNat = .char c := by
      rw [Piece.ofUnit, if_neg (by omega), if_neg (by omega), Char.ofNat_toNat]
    simp only [List.cons_append, List.nil_append, pieces?, unit, whole]
  · rw [List.cons_append, List.nil_append, pieces?, if_neg (by simp [backslash, control])]
    · exact quote
    · intro a b c' d rest' same
      exact absurd same backslash
    · intro e rest' same
      exact absurd same backslash

theorem join?_map_char (chars : List Char) : Piece.join? (chars.map .char) = some chars := by
  induction chars with
  | nil => rfl
  | cons c rest ih => rw [List.map_cons, Piece.join?, ih, Option.map_some]

/-- A text is read back from its quotes. -/
theorem stringContent?_quoted (text : String) (rest : List Char) :
    stringContent? (text.toList.flatMap escape ++ '"' :: rest) = some (some text.toList, rest) := by
  have pieces (chars : List Char) :
      pieces? (chars.flatMap escape ++ '"' :: rest) = some (chars.map .char, rest) := by
    induction chars with
    | nil => rfl
    | cons c chars ih =>
      rw [List.flatMap_cons, List.append_assoc, pieces?_escape, ih]
      rfl
  rw [stringContent?, pieces, Option.map_some]
  show some (Piece.join? (text.toList.map .char), rest) = _
  rw [join?_map_char]

/-! ## Numbers -/

/-- No number goes on with the text. -/
def Ends (text : List Char) : Prop :=
  ∀ c ∈ text.head?, c.isDigit = false ∧ c ≠ '.' ∧ c ≠ 'e' ∧ c ≠ 'E'

theorem digits?_append {digits rest : List Char} (all : Digits digits) (ends : Ends rest) :
    digits? (digits ++ rest) = some (digits, rest) := by
  have none : rest.takeWhile Char.isDigit = [] := by
    cases rest with
    | nil => rfl
    | cons c rest => simp [(ends c rfl).1]
  have left : rest.dropWhile Char.isDigit = rest := by
    cases rest with
    | nil => rfl
    | cons c rest => simp [(ends c rfl).1]
  rw [digits?, List.takeWhile_append_of_pos all.all, List.dropWhile_append_of_pos all.all, none, left,
    List.append_nil]
  cases digits with
  | nil => exact absurd rfl all.some
  | cons c digits => rfl

theorem fraction?_of_ends {rest : List Char} (ends : Ends rest) :
    fraction? rest = some (false, rest) := by
  unfold fraction?
  split
  · exact absurd rfl (ends '.' rfl).2.1
  · rfl

theorem exponent?_of_ends {rest : List Char} (ends : Ends rest) :
    exponent? rest = some (false, rest) := by
  cases rest with
  | nil => rfl
  | cons c rest => simp [exponent?, (ends c rfl).2.2.1, (ends c rfl).2.2.2]

theorem wholePart?_toString (n : Nat) {rest : List Char} (ends : Ends rest) :
    wholePart? ((toString n).toList ++ rest) = some ((toString n).toList, rest) := by
  rcases Nat.eq_zero_or_pos n with rfl | positive
  · rfl
  · have other := head?_toString_ne_zero positive
    have read := digits?_append (digits_toString n) ends
    obtain ⟨c, cs, digits, _⟩ := (digits_toString n).exists_cons
    rw [digits] at other read ⊢
    unfold wholePart?
    split
    · rename_i more same
      rw [(List.cons.inj same).1] at other
      exact absurd rfl other
    · exact read

theorem magnitude?_toString (negative : Bool) (n : Nat) {rest : List Char} (ends : Ends rest) :
    magnitude? negative ((toString n).toList ++ rest) =
      some (numberValue negative (toString n).toList true, rest) := by
  simp only [magnitude?, wholePart?_toString n ends, fraction?_of_ends ends, exponent?_of_ends ends,
    Option.bind_eq_bind, Option.bind_some, Bool.not_false, Bool.and_self]
  rfl

theorem toList_toString_negSucc (n : Nat) :
    (toString (Int.negSucc n)).toList = '-' :: (toString (n + 1)).toList := by
  show ("-" ++ toString (n + 1)).toList = _
  rw [String.toList_append]
  rfl

/-- An integer is read back. -/
theorem number?_toString (n : Int) {rest : List Char} (ends : Ends rest) :
    number? ((toString n).toList ++ rest) = some (int n, rest) := by
  cases n with
  | ofNat n =>
    show number? ((toString n).toList ++ rest) = _
    have read := magnitude?_toString false n ends
    have value : numberValue false (toString n).toList true = int n := by
      rw [numberValue, decimalValue_toString]
      rfl
    obtain ⟨c, cs, digits, digit⟩ := (digits_toString n).exists_cons
    rw [value, digits] at read
    rw [digits]
    unfold number?
    split
    · rename_i more same
      rw [(List.cons.inj same).1] at digit
      exact absurd digit (by decide)
    · exact read
  | negSucc n =>
    have nonzero : (toString (n + 1)).toList ≠ ['0'] := by
      intro zero
      exact absurd (congrArg List.head? zero) (head?_toString_ne_zero (Nat.succ_pos n))
    have value : numberValue true (toString (n + 1)).toList true = int (.negSucc n) := by
      rw [numberValue, if_neg (by simpa using nonzero), if_pos rfl, decimalValue_toString]
      rfl
    rw [toList_toString_negSucc, List.cons_append, number?, magnitude?_toString true (n + 1) ends,
      value]

/-! ## Values -/

/-- The first character of a number is a sign or a digit. -/
theorem exists_toString_int (n : Int) :
    ∃ c rest, (toString n).toList = c :: rest ∧ (c = '-' ∨ c.isDigit = true) := by
  cases n with
  | ofNat n =>
    obtain ⟨c, rest, digits, digit⟩ := (digits_toString n).exists_cons
    exact ⟨c, rest, digits, .inr digit⟩
  | negSucc n => exact ⟨'-', (toString (n + 1)).toList, toList_toString_negSucc n, .inl rfl⟩

/-- The text starts neither with a blank nor with a closing bracket. -/
def Opens (text : List Char) : Prop :=
  ∀ c ∈ text.head?, isBlank c = false ∧ c ≠ ']' ∧ c ≠ '\x7d'

theorem Opens.skipBlanks_eq {text : List Char} (opens : Opens text) : skipBlanks text = text := by
  cases text with
  | nil => rfl
  | cons c rest => simp [skipBlanks, (opens c rfl).1]

theorem opens_cons {c : Char} (other : isBlank c = false ∧ c ≠ ']' ∧ c ≠ '\x7d')
    (rest : List Char) : Opens (c :: rest) := by
  intro c' same
  cases same
  exact other

theorem opens_of_number {c : Char} (number : c = '-' ∨ c.isDigit = true) (rest : List Char) :
    Opens (c :: rest) := by
  rcases number with rfl | digit
  · exact opens_cons (by decide) rest
  · have other {c' : Char} (no : c'.isDigit = false) : c ≠ c' := by
      rintro rfl
      rw [no] at digit
      cases digit
    apply opens_cons
    simp +decide [isBlank, other]

theorem opens_chars (j : Json) (rest : List Char) : Opens (j.chars ++ rest) := by
  cases j with
  | int n =>
    obtain ⟨c, more, chars, number⟩ := exists_toString_int n
    rw [chars_int, chars]
    exact opens_of_number number _
  | null => exact @opens_cons 'n' (by decide) _
  | bool b =>
    cases b with
    | true => exact @opens_cons 't' (by decide) _
    | false => exact @opens_cons 'f' (by decide) _
  | real => exact @opens_cons '0' (by decide) _
  | string _ | broken => exact @opens_cons '"' (by decide) _
  | array items => cases items <;> exact @opens_cons '[' (by decide) _
  | object members => cases members <;> exact @opens_cons '\x7b' (by decide) _

/-- What starts like a number is read as one. -/
theorem value?_of_number (fuel : Nat) {c : Char} (number : c = '-' ∨ c.isDigit = true)
    (rest : List Char) : value? (fuel + 1) (c :: rest) = number? (c :: rest) := by
  have other {c' : Char} (sign : c' ≠ '-') (digit : c'.isDigit = false) : c ≠ c' := by
    rintro rfl
    simp [sign, digit] at number
  rw [value?, (opens_of_number number rest).skipBlanks_eq]
  split
  case h_7 => rfl
  -- In every other case the first character is neither a sign nor a digit.
  all_goals
    rename_i same
    exact absurd (List.cons.inj same).1 (other (by decide) (by decide))

theorem value?_bracket (fuel : Nat) {text : List Char} (opens : Opens text) :
    value? (fuel + 1) ('[' :: text) =
      (items? (value? fuel) text.length text).map fun found => (array found.1, found.2) := by
  have first : skipBlanks ('[' :: text) = '[' :: text := rfl
  simp only [value?, first, opens.skipBlanks_eq]
  split
  · exact absurd rfl (opens ']' rfl).2.1
  · rfl

theorem value?_brace (fuel : Nat) {text : List Char} (opens : Opens text) :
    value? (fuel + 1) ('\x7b' :: text) =
      (members? (value? fuel) text.length text).map fun found => (ofMembers found.1, found.2) := by
  have first : skipBlanks ('\x7b' :: text) = '\x7b' :: text := rfl
  simp only [value?, first, opens.skipBlanks_eq]
  split
  · exact absurd rfl (opens '\x7d' rfl).2.2
  · rfl

/-! ## Arrays and objects -/

/-- The reader reads the value from the front of every text, up to its end. -/
def Reads (value : Reader) (j : Json) : Prop :=
  ∀ rest, Ends rest → value (j.chars ++ rest) = some (j, rest)

section

variable {value : Reader} {rest : List Char}

theorem ends_cons {c : Char} (other : c.isDigit = false ∧ c ≠ '.' ∧ c ≠ 'e' ∧ c ≠ 'E') :
    Ends (c :: rest) := by
  intro c' same
  cases same
  exact other

theorem ends_itemsAfter (items : List Json) : Ends (itemsAfter items ++ rest) := by
  cases items with
  | nil => exact @ends_cons rest ']' (by decide)
  | cons item items => exact @ends_cons _ ',' (by decide)

theorem ends_membersAfter (members : List (String × Json)) :
    Ends (membersAfter members ++ rest) := by
  cases members with
  | nil => exact @ends_cons rest '\x7d' (by decide)
  | cons member members => exact @ends_cons _ ',' (by decide)

/-- The items of an array are read one after the other. -/
theorem items?_chars {first : Json} {more : List Json} (reads : ∀ j ∈ first :: more, Reads value j)
    {steps : Nat} (enough : more.length < steps) :
    items? value steps (first.chars ++ (itemsAfter more ++ rest)) = some (first :: more, rest) := by
  induction more generalizing first steps with
  | nil =>
    obtain ⟨steps, rfl⟩ := Nat.exists_eq_add_one_of_ne_zero (Nat.ne_zero_of_lt enough)
    rw [items?, reads first List.mem_cons_self _ (ends_itemsAfter [])]
    rfl
  | cons next more ih =>
    obtain ⟨steps, rfl⟩ := Nat.exists_eq_add_one_of_ne_zero (Nat.ne_zero_of_lt enough)
    have later := ih (List.forall_mem_cons.mp reads).2 (Nat.lt_of_succ_lt_succ enough)
    rw [items?, reads first List.mem_cons_self _ (ends_itemsAfter (next :: more))]
    show (items? value steps (next.chars ++ itemsAfter more ++ rest) >>= fun found =>
      some (first :: found.1, found.2)) = _
    rw [List.append_assoc, later]
    rfl

theorem member?_chars {key : String} {j : Json} (reads : Reads value j) (ends : Ends rest) :
    member? value (memberChars (key, j) ++ rest) = some ((some key.toList, j), rest) := by
  rw [memberChars_eq, List.append_assoc, quote_append]
  show (stringContent? (key.toList.flatMap escape ++ '"' :: (':' :: j.chars ++ rest)) >>= _) = _
  rw [stringContent?_quoted]
  show (value (j.chars ++ rest) >>= _) = _
  rw [reads rest ends]
  rfl

/-- The members of an object are read one after the other. -/
theorem members?_chars {first : String × Json} {more : List (String × Json)}
    (reads : ∀ m ∈ first :: more, Reads value m.2) {steps : Nat} (enough : more.length < steps) :
    members? value steps (memberChars first ++ (membersAfter more ++ rest)) =
      some ((first :: more).map fun m => (some m.1.toList, m.2), rest) := by
  induction more generalizing first steps with
  | nil =>
    obtain ⟨steps, rfl⟩ := Nat.exists_eq_add_one_of_ne_zero (Nat.ne_zero_of_lt enough)
    rw [members?, member?_chars (reads first List.mem_cons_self) (ends_membersAfter [])]
    rfl
  | cons next more ih =>
    obtain ⟨steps, rfl⟩ := Nat.exists_eq_add_one_of_ne_zero (Nat.ne_zero_of_lt enough)
    have later := ih (List.forall_mem_cons.mp reads).2 (Nat.lt_of_succ_lt_succ enough)
    rw [members?, member?_chars (reads first List.mem_cons_self) (ends_membersAfter (next :: more))]
    show (members? value steps (memberChars next ++ membersAfter more ++ rest) >>= fun found =>
      some ((some first.1.toList, first.2) :: found.1, found.2)) = _
    rw [List.append_assoc, later]
    rfl

theorem ofMembers_map (members : List (String × Json)) :
    ofMembers (members.map fun m => (some m.1.toList, m.2)) = object members := by
  have keys : (members.map fun m => (some m.1.toList, m.2)).mapM
      (fun (key, value) => key.map fun key => (String.ofList key, value)) = some members := by
    induction members with
    | nil => rfl
    | cons member rest ih => simp [List.mapM_cons, ih]
  rw [ofMembers, keys]

end

/-! ## Values of any kind -/

theorem length_lt_itemsAfter (items : List Json) : items.length < (itemsAfter items).length := by
  induction items with
  | nil => exact Nat.one_pos
  | cons item rest ih =>
    rw [itemsAfter_cons, List.length_cons, List.length_cons, List.length_append]
    omega

theorem length_lt_membersAfter (members : List (String × Json)) :
    members.length < (membersAfter members).length := by
  induction members with
  | nil => exact Nat.one_pos
  | cons member rest ih =>
    rw [membersAfter_cons, List.length_cons, List.length_cons, List.length_append]
    omega

/-- A number that is no integer is read back. -/
theorem number?_real {rest : List Char} (ends : Ends rest) :
    number? ('0' :: '.' :: '0' :: rest) = some (real, rest) := by
  have zero : Digits ['0'] := ⟨List.cons_ne_nil _ _, List.forall_mem_singleton.mpr rfl⟩
  have fraction : fraction? ('.' :: '0' :: rest) = some (true, rest) := by
    have read := digits?_append zero ends
    rw [List.cons_append, List.nil_append] at read
    rw [fraction?, read]
    rfl
  show magnitude? false ('0' :: '.' :: '0' :: rest) = _
  simp only [magnitude?, wholePart?, fraction, exponent?_of_ends ends, Option.bind_eq_bind,
    Option.bind_some]
  rfl

/-- A value is read back by a reader that may go deep enough. -/
theorem value?_chars (j : Json) {fuel : Nat} (deep : j.depth ≤ fuel) :
    Reads (value? (fuel + 1)) j := by
  induction j using Json.induction generalizing fuel with
  | null =>
    intro rest _
    rfl
  | bool b =>
    intro rest _
    cases b <;> rfl
  | int n =>
    intro rest ends
    obtain ⟨c, more, chars, number⟩ := exists_toString_int n
    have read := number?_toString n ends
    rw [chars] at read
    rw [chars_int, chars, List.cons_append, value?_of_number fuel number]
    exact read
  | real =>
    intro rest ends
    show value? (fuel + 1) ('0' :: '.' :: '0' :: rest) = _
    rw [value?_of_number fuel (.inr (by decide)), number?_real ends]
  | string text =>
    intro rest _
    rw [chars_string, quote_append]
    show (stringContent? _).map _ = _
    rw [stringContent?_quoted]
    show some (string (.ofList text.toList), rest) = _
    rw [String.ofList_toList]
  | array items ih =>
    intro rest _
    obtain ⟨fuel, rfl⟩ := Nat.exists_eq_add_one_of_ne_zero (Nat.ne_zero_of_lt deep)
    cases items with
    | nil => rfl
    | cons first more =>
      have reads : ∀ j ∈ first :: more, Reads (value? (fuel + 1)) j := fun j member =>
        ih j member (depths_le_iff.mp (Nat.le_of_succ_le_succ deep) j member)
      have steps := length_lt_itemsAfter more
      rw [chars_array, List.cons_append, List.append_assoc, value?_bracket _ (opens_chars first _),
        items?_chars reads (by simp only [List.length_append]; omega)]
      rfl
  | object members ih =>
    intro rest _
    obtain ⟨fuel, rfl⟩ := Nat.exists_eq_add_one_of_ne_zero (Nat.ne_zero_of_lt deep)
    cases members with
    | nil => rfl
    | cons first more =>
      have reads : ∀ m ∈ first :: more, Reads (value? (fuel + 1)) m.2 := fun m member =>
        ih m member (memberDepths_le_iff.mp (Nat.le_of_succ_le_succ deep) m member)
      have steps := length_lt_membersAfter more
      have opens : Opens (memberChars first ++ (membersAfter more ++ rest)) := by
        rw [memberChars_eq, List.append_assoc, quote_append]
        exact opens_cons (by decide) _
      rw [chars_object, List.cons_append, List.append_assoc, value?_brace _ opens,
        members?_chars reads (by simp only [List.length_append]; omega)]
      show some (ofMembers ((first :: more).map fun m => (some m.1.toList, m.2)), rest) = _
      rw [ofMembers_map]
  | broken =>
    intro rest _
    rfl

theorem depths_lt_length_itemsAfter {items : List Json}
    (least : ∀ j ∈ items, j.depth ≤ j.chars.length) : depths items < (itemsAfter items).length := by
  induction items with
  | nil => exact Nat.one_pos
  | cons item rest ih =>
    rw [List.forall_mem_cons] at least
    have later := ih least.2
    rw [depths, itemsAfter_cons, List.length_cons, List.length_append]
    omega

theorem length_memberChars (m : String × Json) : m.2.chars.length ≤ (memberChars m).length := by
  rw [memberChars_eq, List.length_append, List.length_cons]
  omega

theorem memberDepths_lt_length_membersAfter {members : List (String × Json)}
    (least : ∀ m ∈ members, m.2.depth ≤ m.2.chars.length) :
    memberDepths members < (membersAfter members).length := by
  induction members with
  | nil => exact Nat.one_pos
  | cons member rest ih =>
    rw [List.forall_mem_cons] at least
    have later := ih least.2
    have first := length_memberChars member
    rw [memberDepths, memberDepth, membersAfter_cons, List.length_cons, List.length_append]
    omega

/-- No value nests deeper than its text is long. -/
theorem depth_le_length_chars (j : Json) : j.depth ≤ j.chars.length := by
  induction j using Json.induction with
  | null | bool _ | int _ | real | string _ | broken => exact Nat.zero_le _
  | array items ih =>
    cases items with
    | nil => exact Nat.le_succ 1
    | cons first rest =>
      rw [List.forall_mem_cons] at ih
      have later := depths_lt_length_itemsAfter ih.2
      rw [depth, depths, chars_array, List.length_cons, List.length_append]
      omega
  | object members ih =>
    cases members with
    | nil => exact Nat.le_succ 1
    | cons first rest =>
      rw [List.forall_mem_cons] at ih
      have later := memberDepths_lt_length_membersAfter ih.2
      have member := length_memberChars first
      rw [depth, memberDepths, memberDepth, chars_object, List.length_cons, List.length_append]
      omega

/-- Every value is read back from its compact text. -/
theorem parse?_render (j : Json) : parse? j.render = some j := by
  have ends : Ends [] := nofun
  have read := value?_chars j (depth_le_length_chars j) [] ends
  rw [List.append_nil] at read
  rw [parse?, render, String.toList_ofList, read]
  rfl

end Rulebook.Json
