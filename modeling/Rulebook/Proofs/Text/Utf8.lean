import Rulebook.Text.Utf8

/-!
# Bytes of a text are read back

Every character has one to four bytes, by its code point, and reading them gives the character again.
Only these bytes are read as the character, so a text can be read from its own bytes alone.
-/

namespace Rulebook.Text.Utf8

/-- The code points of characters: none of the halves of larger ones, none above the last. -/
theorem toNat_valid (c : Char) : c.toNat < 0xd800 ∨ 0xdfff < c.toNat ∧ c.toNat < 0x110000 :=
  c.valid

theorem toNat_byte {n : Nat} (small : n < 256) : (UInt8.ofNat n).toNat = n :=
  UInt8.toNat_ofNat_of_lt' small

theorem isTail_of_low (n : Nat) : isTail (0x80 + n % 0x40) = true := by
  simp only [isTail, Bool.and_eq_true, decide_eq_true_eq]
  omega

theorem isSecond_three {n : Nat} (lower : 0x800 ≤ n) (upper : n < 0x10000)
    (valid : n < 0xd800 ∨ 0xdfff < n) :
    isSecond (0xe0 + n / 0x1000) (0x80 + n / 0x40 % 0x40) = true := by
  unfold isSecond isTail
  split
  · simp only [Bool.and_eq_true, decide_eq_true_eq]
    omega
  · split
    · simp only [Bool.and_eq_true, decide_eq_true_eq]
      omega
    · rw [if_neg (by omega), if_neg (by omega)]
      simp only [Bool.and_eq_true, decide_eq_true_eq]
      omega

theorem isSecond_four {n : Nat} (lower : 0x10000 ≤ n) (upper : n < 0x110000) :
    isSecond (0xf0 + n / 0x40000) (0x80 + n / 0x1000 % 0x40) = true := by
  unfold isSecond isTail
  rw [if_neg (by omega), if_neg (by omega)]
  split
  · simp only [Bool.and_eq_true, decide_eq_true_eq]
    omega
  · split
    · simp only [Bool.and_eq_true, decide_eq_true_eq]
      omega
    · simp only [Bool.and_eq_true, decide_eq_true_eq]
      omega

/-- The bytes of a character come first and are read as the character. -/
theorem decodeFrom_encodeChar (c : Char) (rest : List UInt8) (index : Nat) :
    decodeFrom index (encodeChar c ++ rest) =
      before c.toNat (decodeFrom (index + (encodeChar c).length) rest) := by
  have valid := toNat_valid c
  unfold encodeChar
  generalize c.toNat = n at valid
  by_cases one : n < 0x80
  · simp only [if_pos one, List.cons_append, List.nil_append, List.length_cons, List.length_nil]
    rw [decodeFrom.eq_def]
    dsimp only
    rw [toNat_byte (by omega), if_pos one]
  · by_cases two : n < 0x800
    · have point : (0xc0 + n / 0x40 - 0xc0) * 0x40 + (0x80 + n % 0x40 - 0x80) = n := by omega
      simp only [if_neg one, if_pos two, List.cons_append, List.nil_append, List.length_cons,
        List.length_nil]
      rw [decodeFrom.eq_def]
      dsimp only
      rw [toNat_byte (by omega), toNat_byte (by omega), if_neg (by omega), if_pos (by omega),
        if_pos (isTail_of_low n), point]
    · by_cases three : n < 0x10000
      · have point : (0xe0 + n / 0x1000 - 0xe0) * 0x1000 + (0x80 + n / 0x40 % 0x40 - 0x80) * 0x40 +
            (0x80 + n % 0x40 - 0x80) = n := by omega
        simp only [if_neg one, if_neg two, if_pos three, List.cons_append, List.nil_append,
          List.length_cons, List.length_nil]
        rw [decodeFrom.eq_def]
        dsimp only
        rw [toNat_byte (by omega), toNat_byte (by omega), toNat_byte (by omega), if_neg (by omega),
          if_neg (by omega), if_pos (by omega), isSecond_three (by omega) three (by omega),
          isTail_of_low]
        simp only [Bool.not_true, Bool.false_eq_true, if_false, point]
      · have point : (0xf0 + n / 0x40000 - 0xf0) * 0x40000 +
            (0x80 + n / 0x1000 % 0x40 - 0x80) * 0x1000 + (0x80 + n / 0x40 % 0x40 - 0x80) * 0x40 +
            (0x80 + n % 0x40 - 0x80) = n := by omega
        simp only [if_neg one, if_neg two, if_neg three, List.cons_append, List.nil_append,
          List.length_cons, List.length_nil]
        rw [decodeFrom.eq_def]
        dsimp only
        rw [toNat_byte (by omega), toNat_byte (by omega), toNat_byte (by omega),
          toNat_byte (by omega), if_neg (by omega), if_neg (by omega), if_neg (by omega),
          if_pos (by omega), isSecond_four (by omega) (by omega), isTail_of_low, isTail_of_low]
        simp only [Bool.not_true, Bool.false_eq_true, if_false, point]

theorem decodeFrom_flatMap (cs : List Char) (index : Nat) :
    decodeFrom index (cs.flatMap encodeChar) = .ok cs := by
  induction cs generalizing index with
  | nil => rfl
  | cons c cs ih =>
    rw [List.flatMap_cons, decodeFrom_encodeChar, ih, before, Char.ofNat_toNat]

/-- The bytes of a text are read as the text. -/
theorem decode_encode (text : String) : decode (encode text) = .ok text := by
  rw [decode, encode, decodeFrom_flatMap]
  dsimp only
  rw [String.ofList_toList]

/-! ## Only the bytes of a text are read as the text -/

theorem toNat_ofNat {n : Nat} (valid : n.isValidChar) : (Char.ofNat n).toNat = n := by
  rw [Char.ofNat, dif_pos valid]
  rfl

theorem ofNat_eq_byte {a : UInt8} {n : Nat} (same : n = a.toNat) : UInt8.ofNat n = a := by
  rw [same, UInt8.ofNat_toNat]

theorem isTail_iff {b : Nat} : isTail b = true ↔ 0x80 ≤ b ∧ b < 0xc0 := by
  simp [isTail]

/-- The second byte goes on with the character, and it is further bounded after some first bytes. -/
theorem bounds_of_isSecond {a b : Nat} (second : isSecond a b = true) :
    (0x80 ≤ b ∧ b < 0xc0) ∧ (a = 0xe0 → 0xa0 ≤ b) ∧ (a = 0xed → b < 0xa0) ∧
      (a = 0xf0 → 0x90 ≤ b) ∧ (a = 0xf4 → b < 0x90) := by
  unfold isSecond isTail at second
  repeat' split at second
  all_goals
    simp only [Bool.and_eq_true, decide_eq_true_eq] at second
    omega

theorem encodeChar_one {a : UInt8} (small : a.toNat < 0x80) :
    encodeChar (.ofNat a.toNat) = [a] := by
  unfold encodeChar
  rw [toNat_ofNat (.inl (by omega))]
  dsimp only
  rw [if_pos small, UInt8.ofNat_toNat]

theorem encodeChar_two {a b : UInt8} (first : 0xc2 ≤ a.toNat ∧ a.toNat < 0xe0)
    (tail : isTail b.toNat = true) :
    encodeChar (.ofNat ((a.toNat - 0xc0) * 0x40 + (b.toNat - 0x80))) = [a, b] := by
  rw [isTail_iff] at tail
  unfold encodeChar
  rw [toNat_ofNat (.inl (by omega))]
  dsimp only
  rw [if_neg (by omega), if_pos (by omega), ofNat_eq_byte (a := a) (by omega),
    ofNat_eq_byte (a := b) (by omega)]

theorem encodeChar_three {a b c : UInt8} (first : 0xe0 ≤ a.toNat ∧ a.toNat < 0xf0)
    (second : isSecond a.toNat b.toNat = true) (tail : isTail c.toNat = true) :
    encodeChar (.ofNat ((a.toNat - 0xe0) * 0x1000 + (b.toNat - 0x80) * 0x40 + (c.toNat - 0x80))) =
      [a, b, c] := by
  have bounds := bounds_of_isSecond second
  rw [isTail_iff] at tail
  unfold encodeChar
  -- Neither a longer form of a smaller code point nor half of a larger one.
  rw [toNat_ofNat (by unfold Nat.isValidChar; omega)]
  dsimp only
  rw [if_neg (by omega), if_neg (by omega), if_pos (by omega), ofNat_eq_byte (a := a) (by omega),
    ofNat_eq_byte (a := b) (by omega), ofNat_eq_byte (a := c) (by omega)]

theorem encodeChar_four {a b c d : UInt8} (first : 0xf0 ≤ a.toNat ∧ a.toNat < 0xf5)
    (second : isSecond a.toNat b.toNat = true) (third : isTail c.toNat = true)
    (tail : isTail d.toNat = true) :
    encodeChar (.ofNat ((a.toNat - 0xf0) * 0x40000 + (b.toNat - 0x80) * 0x1000 +
      (c.toNat - 0x80) * 0x40 + (d.toNat - 0x80))) = [a, b, c, d] := by
  have bounds := bounds_of_isSecond second
  rw [isTail_iff] at third tail
  unfold encodeChar
  rw [toNat_ofNat (.inr (by omega))]
  dsimp only
  rw [if_neg (by omega), if_neg (by omega), if_neg (by omega), ofNat_eq_byte (a := a) (by omega),
    ofNat_eq_byte (a := b) (by omega), ofNat_eq_byte (a := c) (by omega),
    ofNat_eq_byte (a := d) (by omega)]

theorem before_eq_ok_iff {n : Nat} {later : Except Fault (List Char)} {cs : List Char} :
    before n later = .ok cs ↔ ∃ rest, later = .ok rest ∧ cs = .ofNat n :: rest := by
  cases later with
  | error fault => simp [before]
  | ok rest => simp [before, eq_comm]

theorem flatMap_of_decodeFrom {index : Nat} {bytes : List UInt8} {cs : List Char}
    (read : decodeFrom index bytes = .ok cs) : bytes = cs.flatMap encodeChar := by
  fun_induction decodeFrom index bytes generalizing cs with
  | case1 => cases read; rfl
  | case2 =>
    rename_i small ih
    obtain ⟨later, reads, rfl⟩ := before_eq_ok_iff.mp read
    rw [List.flatMap_cons, encodeChar_one small, ← ih reads]
    rfl
  | case4 =>
    rename_i first b rest tail ih
    obtain ⟨later, reads, rfl⟩ := before_eq_ok_iff.mp read
    rw [List.flatMap_cons, encodeChar_two first tail, ← ih reads]
    rfl
  | case10 =>
    rename_i first b second c rest tail ih
    obtain ⟨later, reads, rfl⟩ := before_eq_ok_iff.mp read
    rw [List.flatMap_cons, encodeChar_three first (by simpa using second) (by simpa using tail),
      ← ih reads]
    rfl
  | case17 =>
    rename_i first b second c third d rest tail ih
    obtain ⟨later, reads, rfl⟩ := before_eq_ok_iff.mp read
    rw [List.flatMap_cons, encodeChar_four first (by simpa using second) (by simpa using third)
      (by simpa using tail), ← ih reads]
    rfl
  | _ => cases read

/-- Bytes that are read as a text are the bytes of this text. -/
theorem encode_of_decode {bytes : List UInt8} {text : String} (read : decode bytes = .ok text) :
    bytes = encode text := by
  unfold decode at read
  split at read
  · rename_i cs reads
    cases read
    rw [encode, String.toList_ofList]
    exact flatMap_of_decodeFrom reads
  · cases read

end Rulebook.Text.Utf8
