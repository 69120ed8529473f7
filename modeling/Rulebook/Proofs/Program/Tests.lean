import Rulebook.Proofs.Document.RoundTrip
import Rulebook.Proofs.Engine.Trace
import Rulebook.Proofs.Lowering.Restore
import Rulebook.Proofs.Program.Namespace

/-!
# Tests in a program

The name of a test is written in three places: in the head of its clause, in the list of all tests,
and in the goal that asks for it. The three agree whatever the name is, because a text in quotes tells
where it ends, and no other clause is taken for that of a test, because no other clause starts with
the word `test`.
-/

namespace Rulebook

/-- The test that a clause of this kind is for. -/
def ClauseKind.test? : ClauseKind → Option String
  | test name => some name
  | accessor _ _ | directive _ | rule _ | testCases => none

namespace Logic

end Logic

section

variable {o : Options} {d : Document} {th : Lowering.Theory} {c : Logic.Clause}

open Logic

end

theorem nodup_testNames_of_parse {text : String} {d : Document}
    (parsed : Compiler.parse text = .ok d) : d.testNames.Nodup := by
  obtain ⟨_, ws, _, _, distinct, rfl⟩ := parse_ok_iff.mp parsed
  have names := @Written.nodup_keys_filterMap ws _
    (fun w => w.test?.map fun t => (t.name, t)) .test distinct fun w => by cases w <;> rfl
  rw [List.map_filterMap] at names
  rw [Document.testNames, Written.document, List.map_filterMap]
  simpa only [Option.map_map, Function.comp_def] using names

theorem testNames_of_generate {o : Options} {d : Document} {p : Program}
    (generated : Compiler.generate o d = .ok p) : p.testNames = d.testNames := by
  unfold Compiler.generate Program.ofDocument at generated
  cases lowered : Lowering.theory o.toNaming d with
  | error e => simp [lowered, bind, Except.bind, Except.mapError] at generated
  | ok th =>
    simp only [lowered, bind, Except.bind, Except.mapError, pure, Except.pure,
      Except.ok.injEq] at generated
    rw [← generated]

end Rulebook
