import Rulebook.Engine

/-!
# Scripted engines

An engine that proves nothing and answers from a script. It keeps a record of the calls made to it.
-/

namespace Rulebook

namespace Engine

/-- What the script says to a goal: an answer, or an error with its text. -/
abbrev Reply := Except String Bool

/-- A call of the engine. -/
inductive Call where
  | consult (text : String)
  | prove (goal : String)
  deriving Repr, DecidableEq

structure Script where
  /-- The text of the error of a consultation, by its number, counted from zero. -/
  consultErrors : List (Nat × String)
  /-- Replies to certain goals. -/
  goals : Table Reply

/-- Where the script stands. -/
structure ScriptState where
  /-- How many consultations there were. -/
  consults : Nat := 0
  /-- Replies to goals that the script does not name, in turn. -/
  answers : List Reply
  /-- All calls, the last one first. -/
  calls : List Call := []

namespace Script

def consult (script : Script) (text : String) : EStateM EngineError ScriptState Unit := fun s =>
  let after := { s with consults := s.consults + 1, calls := .consult text :: s.calls }
  match script.consultErrors.lookup s.consults with
  | some error => .error (.consult error) after
  | none => .ok () after

/-- The reply to a goal: the one that the script names, or the next in turn, or yes. -/
def reply (script : Script) (goal : String) (s : ScriptState) : Reply × ScriptState :=
  match script.goals.find? goal with
  | some reply => (reply, s)
  | none =>
    match s.answers with
    | [] => (.ok true, s)
    | reply :: answers => (reply, { s with answers })

def prove (script : Script) (goal : String) : EStateM EngineError ScriptState Bool := fun s =>
  match script.reply goal { s with calls := .prove goal :: s.calls } with
  | (.ok answer, after) => .ok answer after
  | (.error error, after) => .error (.query error) after

/-- The engine that follows a script. -/
def engine (script : Script) : Engine ScriptState := ⟨script.consult, script.prove⟩

end Script

end Engine

end Rulebook
