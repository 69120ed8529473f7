import Rulebook.Compiler
import Rulebook.Document.Json
import Rulebook.Engine.Scripted
import Rulebook.Proofs.Grammar.Basic
import Rulebook.Proofs.Grammar.Chain
import Rulebook.Proofs.Parser.Cursor
import Rulebook.Proofs.Parser.Expr
import Rulebook.Proofs.Parser.List
import Rulebook.Proofs.Parser.Document
import Rulebook.Proofs.Grammar.Unambiguous
import Rulebook.Proofs.Parser.Correct
import Rulebook.Proofs.Document.Regular
import Rulebook.Proofs.Lowering.Gives
import Rulebook.Proofs.Lowering.Correct
import Rulebook.Proofs.Lowering.Accepts
import Rulebook.Proofs.Logic.Sentence
import Rulebook.Proofs.Logic.Run
import Rulebook.Proofs.Lowering.Meaning
import Rulebook.Proofs.Logic.Name
import Rulebook.Proofs.Logic.Occurrence
import Rulebook.Proofs.Lowering.Hygiene
import Rulebook.Proofs.Program.Namespace
import Rulebook.Proofs.Program.Linked
import Rulebook.Proofs.Document.Scope
import Rulebook.Proofs.Lowering.Dispatch
import Rulebook.Proofs.Engine.Trace
import Rulebook.Proofs.Text.Utf8
import Rulebook.Proofs.Program.Cache
import Rulebook.Proofs.Logic.Store
import Rulebook.Proofs.Lowering.Restore
import Rulebook.Proofs.Token.Spelling
import Rulebook.Proofs.Document.Render
import Rulebook.Proofs.Document.RoundTrip
import Rulebook.Proofs.Token.Outline
import Rulebook.Proofs.Parser.Layout
import Rulebook.Proofs.Token.Seam
import Rulebook.Proofs.Document.Append
import Rulebook.Proofs.Program.Tests
import Rulebook.Proofs.Logic.Legal
import Rulebook.Proofs.Logic.Lines
import Rulebook.Proofs.Program.Lines
import Rulebook.Proofs.Grammar.Climb
import Rulebook.Proofs.Lowering.Positions
import Rulebook.Proofs.Lowering.Typing
import Rulebook.Proofs.Lowering.Order
import Rulebook.Proofs.Token.Tiling
import Rulebook.Proofs.Token.Places
import Rulebook.Proofs.Parser.FirstError
import Rulebook.Proofs.Program.Reorder
import Rulebook.Proofs.Program.Comparison
import Rulebook.Proofs.Program.Canonical
import Rulebook.Proofs.Program.Lookup
import Rulebook.Proofs.Program.Atoms
import Rulebook.Proofs.Json.Reader
import Rulebook.Proofs.Document.Json
import Rulebook.Proofs.Parser.Head
import Rulebook.Proofs.Parser.Loops
import Rulebook.Proofs.Token.Numbers
import Rulebook.Proofs.Document.Integers
