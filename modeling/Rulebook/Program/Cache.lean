import Rulebook.Program
import Rulebook.Text.Utf8

/-!
# Programs as bytes

A compact form in which a program can be kept. Counts and lengths take eight bytes and the kind of a
clause four, lowest byte first; a text is its length in bytes and then its bytes. Reading stops where
the program ends and leaves what follows alone.
-/

namespace Rulebook

/-- Why bytes are no program. -/
inductive CacheError where
  /-- The bytes end inside a number. -/
  | endOfBytes
  /-- A text is longer than what is left. -/
  | shortText
  /-- The bytes of a text are none. -/
  | notText (fault : Text.Utf8.Fault)
  /-- No kind of clause has this number. -/
  | unknownKind (number : Nat)
  deriving Repr, DecidableEq

namespace CacheError

def message : CacheError → String
  | endOfBytes => "io error: unexpected end of file"
  | shortText => "io error: "
  | notText fault => s!"string is not valid utf8: {fault.message}"
  | unknownKind number => s!"invalid value: integer `{number}`, expected variant index 0 <= i < 5"

end CacheError

namespace Cache

abbrev Bytes := List UInt8

/-! ## Writing -/

/-- A number in so many bytes, the lowest first. -/
def word : Nat → Nat → Bytes
  | 0, _ => []
  | width + 1, n => .ofNat (n % 256) :: word width (n / 256)

/-- A count or a length. -/
def count (n : Nat) : Bytes := word 8 n

/-- The number of a kind of clause. -/
def kindNumber (n : Nat) : Bytes := word 4 n

def text (s : String) : Bytes :=
  let bytes := Text.Utf8.encode s
  count bytes.length ++ bytes

/-- A list: its length, then its items. -/
def list (item : α → Bytes) (items : List α) : Bytes := count items.length ++ items.flatMap item

def kind : ClauseKind → Bytes
  | .accessor object field => kindNumber 0 ++ text object ++ text field
  | .directive relation => kindNumber 1 ++ text relation
  | .rule name => kindNumber 2 ++ text name
  | .test name => kindNumber 3 ++ text name
  | .testCases => kindNumber 4

def clause (c : WrittenClause) : Bytes := kind c.kind ++ text c.text

def entry (e : String × String) : Bytes := text e.1 ++ text e.2

def program (p : Program) : Bytes :=
  list clause p.clauses ++ list entry p.symbols.entries ++ list text p.testNames

/-! ## Reading -/

/-- A reader takes bytes from the front. -/
abbrev Reader := StateT Bytes (Except CacheError)

/-- A number in so many bytes. -/
def readWord : Nat → Reader Nat
  | 0 => return 0
  | width + 1 => do
    match ← get with
    | [] => throw .endOfBytes
    | b :: rest =>
      set rest
      return b.toNat + 256 * (← readWord width)

def readCount : Reader Nat := readWord 8

def readKindNumber : Reader Nat := readWord 4

/-- So many bytes. -/
def readBytes (n : Nat) : Reader Bytes := do
  let bytes ← get
  if n ≤ bytes.length then
    set (bytes.drop n)
    return bytes.take n
  else throw .shortText

def readText : Reader String := do
  match Text.Utf8.decode (← readBytes (← readCount)) with
  | .ok s => return s
  | .error fault => throw (.notText fault)

/-- So many items. -/
def readItems (item : Reader α) : Nat → Reader (List α)
  | 0 => return []
  | n + 1 => do return (← item) :: (← readItems item n)

def readList (item : Reader α) : Reader (List α) := do readItems item (← readCount)

def readKind : Reader ClauseKind := do
  match ← readKindNumber with
  | 0 => return .accessor (← readText) (← readText)
  | 1 => return .directive (← readText)
  | 2 => return .rule (← readText)
  | 3 => return .test (← readText)
  | 4 => return .testCases
  | n => throw (.unknownKind n)

def readClause : Reader WrittenClause := return ⟨← readKind, ← readText⟩

def readEntry : Reader (String × String) := return (← readText, ← readText)

/-- A program. A key of the objects that comes again replaces the name in its place. -/
def readProgram : Reader Program := do
  let clauses ← readList readClause
  let symbols ← readList readEntry
  let testNames ← readList readText
  return ⟨clauses, .ofList symbols, testNames⟩

end Cache

namespace Program

/-- The bytes of a program. -/
def toBytes (p : Program) : List UInt8 := Cache.program p

/-- The program at the front of some bytes. -/
def ofBytes (bytes : List UInt8) : Except CacheError Program :=
  match Cache.readProgram.run bytes with
  | .ok (p, _) => .ok p
  | .error e => .error e

end Program

end Rulebook
