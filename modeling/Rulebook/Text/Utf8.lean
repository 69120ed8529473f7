/-!
# UTF-8

Characters as bytes. A run of bytes that is no text is refused with the place of its first fault: the
longest start of a character that cannot go on, or the end of the bytes inside a character.
-/

namespace Rulebook.Text.Utf8

/-- Why bytes are no text. -/
inductive Fault where
  /-- So many bytes from the index on are no character. -/
  | invalid (length index : Nat)
  /-- The bytes end inside the character that starts at the index. -/
  | incomplete (index : Nat)
  deriving Repr, DecidableEq

namespace Fault

def message : Fault → String
  | invalid length index => s!"invalid utf-8 sequence of {length} bytes from index {index}"
  | incomplete index => s!"incomplete utf-8 byte sequence from index {index}"

end Fault

/-- The bytes of a character. -/
def encodeChar (c : Char) : List UInt8 :=
  let n := c.toNat
  if n < 0x80 then [.ofNat n]
  else if n < 0x800 then [.ofNat (0xc0 + n / 0x40), .ofNat (0x80 + n % 0x40)]
  else if n < 0x10000 then
    [.ofNat (0xe0 + n / 0x1000), .ofNat (0x80 + n / 0x40 % 0x40), .ofNat (0x80 + n % 0x40)]
  else
    [.ofNat (0xf0 + n / 0x40000), .ofNat (0x80 + n / 0x1000 % 0x40),
      .ofNat (0x80 + n / 0x40 % 0x40), .ofNat (0x80 + n % 0x40)]

/-- The bytes of a text. -/
def encode (text : String) : List UInt8 := text.toList.flatMap encodeChar

/-- A byte that goes on with a character. -/
def isTail (b : Nat) : Bool := 0x80 ≤ b && b < 0xc0

/-- A byte that may follow this first byte of a character of three or four bytes. It rules out longer
forms of smaller code points, halves of characters, and code points that are too large. -/
def isSecond (first b : Nat) : Bool :=
  if first = 0xe0 then 0xa0 ≤ b && b < 0xc0
  else if first = 0xed then 0x80 ≤ b && b < 0xa0
  else if first = 0xf0 then 0x90 ≤ b && b < 0xc0
  else if first = 0xf4 then 0x80 ≤ b && b < 0x90
  else isTail b

/-- Put a code point before the rest of a text. -/
def before (n : Nat) : Except Fault (List Char) → Except Fault (List Char)
  | .ok cs => .ok (.ofNat n :: cs)
  | .error fault => .error fault

/-- The characters of bytes that start at an index. -/
def decodeFrom (index : Nat) : List UInt8 → Except Fault (List Char)
  | [] => .ok []
  | a :: rest =>
    let a := a.toNat
    if a < 0x80 then before a (decodeFrom (index + 1) rest)
    else if 0xc2 ≤ a ∧ a < 0xe0 then
      match rest with
      | [] => .error (.incomplete index)
      | b :: rest =>
        if isTail b.toNat then
          before ((a - 0xc0) * 0x40 + (b.toNat - 0x80)) (decodeFrom (index + 2) rest)
        else .error (.invalid 1 index)
    else if 0xe0 ≤ a ∧ a < 0xf0 then
      match rest with
      | [] => .error (.incomplete index)
      | b :: rest =>
        if !isSecond a b.toNat then .error (.invalid 1 index)
        else
          match rest with
          | [] => .error (.incomplete index)
          | c :: rest =>
            if !isTail c.toNat then .error (.invalid 2 index)
            else before ((a - 0xe0) * 0x1000 + (b.toNat - 0x80) * 0x40 + (c.toNat - 0x80))
              (decodeFrom (index + 3) rest)
    else if 0xf0 ≤ a ∧ a < 0xf5 then
      match rest with
      | [] => .error (.incomplete index)
      | b :: rest =>
        if !isSecond a b.toNat then .error (.invalid 1 index)
        else
          match rest with
          | [] => .error (.incomplete index)
          | c :: rest =>
            if !isTail c.toNat then .error (.invalid 2 index)
            else
              match rest with
              | [] => .error (.incomplete index)
              | d :: rest =>
                if !isTail d.toNat then .error (.invalid 3 index)
                else before ((a - 0xf0) * 0x40000 + (b.toNat - 0x80) * 0x1000 +
                    (c.toNat - 0x80) * 0x40 + (d.toNat - 0x80))
                  (decodeFrom (index + 4) rest)
    else .error (.invalid 1 index)

/-- The text of some bytes. -/
def decode (bytes : List UInt8) : Except Fault String :=
  match decodeFrom 0 bytes with
  | .ok cs => .ok (.ofList cs)
  | .error fault => .error fault

end Rulebook.Text.Utf8
