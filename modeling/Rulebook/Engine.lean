import Rulebook.Program

/-!
# Engines and the running of tests

An engine takes clauses and proves goals. Running a program loads all its clauses, asks for all tests
at once, and, if that fails, for one test after the other to find the first that fails.
-/

namespace Rulebook

/-- What an engine may fail with. -/
inductive EngineError where
  | consult (text : String)
  | query (text : String)
  deriving Repr, DecidableEq

namespace EngineError

def message : EngineError → String
  | consult text => s!"Failed to consult clause: {text}"
  | query text => s!"Query error: {text}"

end EngineError

/-- An engine with states `σ`; a call changes the state also when it fails. -/
structure Engine (σ : Type) where
  /-- Take in clauses. -/
  consult : String → EStateM EngineError σ Unit
  /-- Whether a goal follows from all that was taken in. -/
  prove : String → EStateM EngineError σ Bool

/-- The outcome of running all tests of a program. -/
inductive Report where
  | passed (count : Nat)
  /-- The first test that fails, after so many that hold. -/
  | failed (test : String) (passed : Nat)
  deriving Repr, DecidableEq

namespace Report

def isSuccess : Report → Bool
  | passed _ => true
  | failed _ _ => false

end Report

namespace Engine

/-- Clauses that go through the list of tests. -/
def bootstrap : String :=
  "run_tests :- test_cases(Cases), run_test_cases(Cases).\n" ++
  "run_test_cases([]).\n" ++
  "run_test_cases([Case|Rest]) :- test(Case), !, run_test_cases(Rest).\n"

/-- The goal that holds if every test does. -/
def allTests : String := "run_tests"

variable {σ : Type} (engine : Engine σ)

/-- Take in one text after the other. -/
def consultAll : List String → EStateM EngineError σ Unit
  | [] => return ()
  | text :: rest => do
    engine.consult text
    consultAll rest

/-- Take in a program and the clauses that go through its tests. -/
def load (p : Program) : EStateM EngineError σ Unit := do
  engine.consultAll p.texts
  engine.consult bootstrap

/-- Ask for one test after the other, up to the first that fails. -/
def firstFailure? : List String → Nat → EStateM EngineError σ (Option (String × Nat))
  | [], _ => return none
  | name :: rest, passed => do
    if ← engine.prove (Logic.testGoal name) then
      firstFailure? rest (passed + 1)
    else
      return some (name, passed)

/-- Load a program and run its tests. -/
def run (p : Program) : EStateM EngineError σ Report := do
  engine.load p
  if ← engine.prove allTests then
    return .passed p.testNames.length
  else
    match ← engine.firstFailure? p.testNames 0 with
    | some (name, passed) => return .failed name passed
    | none =>
      throw (.query s!"'{allTests}' failed but every test case succeeded on its own")

end Engine

end Rulebook
