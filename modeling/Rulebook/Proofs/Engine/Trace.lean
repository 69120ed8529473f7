import Rulebook.Engine.Scripted

/-!
# What running the tests asks of an engine

An engine may answer anything and change its state with every call. To see the calls, a run is made
on the same engine with a log (`recording`), which takes down each call and its answer. The log of a
run has one of a few forms (`Course`), and each form belongs to one outcome.
-/

namespace Rulebook.Engine

variable {σ α β : Type}

/-- A call of an engine and its answer. -/
inductive Event where
  | consulted (text : String) (answer : Except EngineError Unit)
  | proved (goal : String) (answer : Except EngineError Bool)

namespace Event

def call : Event → Call
  | consulted text _ => .consult text
  | proved goal _ => .prove goal

/-- The error of a call that failed. -/
def error? : Event → Option EngineError
  | consulted _ (.error e) | proved _ (.error e) => some e
  | consulted _ (.ok _) | proved _ (.ok _) => none

/-- The answers after which a run goes on: clauses are taken in, not all tests hold at once, and a
test holds by itself. -/
def goesOn : Event → Bool
  | consulted _ (.ok _) => true
  | proved goal (.ok answer) => answer == (goal != allTests)
  | consulted _ (.error _) | proved _ (.error _) => false

/-- Clauses that were taken in. -/
def taken (text : String) : Event := consulted text (.ok ())

/-- What was answered to a test. -/
def tested (answer : Bool) (name : String) : Event := proved (Logic.testGoal name) (.ok answer)

end Event

/-! ## Logs -/

/-- What a computation on an engine comes to, without the state that it leaves. -/
def outcome : EStateM.Result EngineError σ α → Except EngineError α
  | .ok a _ => .ok a
  | .error e _ => .error e

/-- A log beside the state that a computation leaves. -/
def withLog (log : List Event) :
    EStateM.Result EngineError σ α → EStateM.Result EngineError (σ × List Event) α
  | .ok a s => .ok a (s, log)
  | .error e s => .error e (s, log)

/-- Make a call and take down its answer. -/
def noting (note : Except EngineError α → Event) (x : EStateM EngineError σ α) :
    EStateM EngineError (σ × List Event) α := fun (s, log) =>
  withLog (log ++ [note (outcome (x s))]) (x s)

/-- The same engine with a log of its calls. -/
def recording (engine : Engine σ) : Engine (σ × List Event) where
  consult text := noting (.consulted text) (engine.consult text)
  prove goal := noting (.proved goal) (engine.prove goal)

/-- The log of a run. -/
def log (engine : Engine σ) (p : Program) (s : σ) : List Event :=
  match engine.recording.run p (s, []) with
  | .ok _ after | .error _ after => after.2

/-! ## What runs should do -/

/-- All calls that a run may make, in order. -/
def plan (p : Program) : List Call :=
  (p.texts ++ [bootstrap]).map .consult ++ .prove allTests ::
    p.testNames.map fun name => .prove (Logic.testGoal name)

/-- The error of a run in which each test holds, but not all at once. -/
def disagreement : EngineError :=
  .query s!"'{allTests}' failed but every test case succeeded on its own"

/-- The answer to the test at a place: its call comes after those for the clauses, the bootstrap and
all tests at once. -/
def TestAnswered (p : Program) (log : List Event) (answer : Bool) (i : Nat) (name : String) : Prop :=
  p.testNames[i]? = some name ∧ log[p.texts.length + 2 + i]? = some (.tested answer name)

/-- What the log of a run and its outcome must be. -/
structure Exact (p : Program) (log : List Event) (result : Except EngineError Report) : Prop where
  /-- The calls are those of the plan, from its start on. -/
  planned : log.map Event.call <+: plan p
  /-- After every call but the last the run goes on. -/
  goesOn : ∀ event ∈ log.dropLast, event.goesOn = true
  /-- If it goes on after the last one too, then the plan is carried out. -/
  carriedOut : (∀ event ∈ log, event.goesOn = true) → log.map Event.call = plan p
  passed : ∀ count, result = .ok (.passed count) ↔
    count = p.testNames.length ∧ .proved allTests (.ok true) ∈ log
  failed : ∀ test passed, result = .ok (.failed test passed) ↔
    .proved allTests (.ok false) ∈ log ∧
      (∀ i < passed, ∃ name, TestAnswered p log true i name) ∧ TestAnswered p log false passed test
  /-- An error is that of the last call, or no call failed and all answers to tests are yes. -/
  erred : ∀ e, result = .error e ↔
    (∃ event, log.getLast? = some event ∧ event.error? = some e) ∨
      e = disagreement ∧ .proved allTests (.ok false) ∈ log ∧
        ∀ i name, p.testNames[i]? = some name → TestAnswered p log true i name

/-- The engine holds each of the tests, asked in turn. -/
def HoldsEach (engine : Engine σ) : List String → σ → Prop
  | [], _ => True
  | name :: rest, s =>
    ∃ s', engine.prove (Logic.testGoal name) s = .ok true s' ∧ HoldsEach engine rest s'

/-- Once the program is loaded, the engine holds all tests at once exactly if it holds each of
them. -/
def Agrees (engine : Engine σ) (p : Program) (s : σ) : Prop :=
  ∀ s₁ answer s₂, engine.load p s = .ok () s₁ → engine.prove allTests s₁ = .ok answer s₂ →
    (answer = true ↔ engine.HoldsEach p.testNames s₂)

/-! ## The forms that a log can have -/

/-- The calls that load a program. -/
def loaded (p : Program) : List Event := (p.texts ++ [bootstrap]).map .taken

/-- The log and the outcome of a run, by the call that ends it. -/
inductive Course (engine : Engine σ) (p : Program) (s : σ) :
    List Event → Except EngineError Report → Prop
  | notLoaded {before after : List String} {text : String} {e : EngineError} :
      p.texts ++ [bootstrap] = before ++ text :: after →
      Course engine p s (before.map .taken ++ [.consulted text (.error e)]) (.error e)
  | notAnswered {e : EngineError} :
      Course engine p s (loaded p ++ [.proved allTests (.error e)]) (.error e)
  | passed :
      Course engine p s (loaded p ++ [.proved allTests (.ok true)])
        (.ok (.passed p.testNames.length))
  | testNotAnswered {before after : List String} {name : String} {e : EngineError} :
      p.testNames = before ++ name :: after →
      Course engine p s (loaded p ++ .proved allTests (.ok false) :: before.map (.tested true) ++
        [.proved (Logic.testGoal name) (.error e)]) (.error e)
  | failed {before after : List String} {name : String} :
      p.testNames = before ++ name :: after →
      Course engine p s (loaded p ++ .proved allTests (.ok false) :: before.map (.tested true) ++
        [.tested false name]) (.ok (.failed name before.length))
  | disagreement :
      ¬ engine.Agrees p s →
      Course engine p s (loaded p ++ .proved allTests (.ok false) :: p.testNames.map (.tested true))
        (.error disagreement)

section Steps

variable (engine : Engine σ) (p : Program)

/-- What a sequence of two computations does. -/
theorem bind_apply (x : EStateM EngineError σ α) (f : α → EStateM EngineError σ β) (s : σ) :
    (x >>= f) s = match x s with
      | .ok a s' => f a s'
      | .error e s' => .error e s' := by
  change EStateM.bind x f s = _
  unfold EStateM.bind
  cases x s <;> rfl

theorem run_eq (s : σ) :
    engine.run p s = match engine.load p s with
      | .error e s₁ => .error e s₁
      | .ok _ s₁ => match engine.prove allTests s₁ with
        | .error e s₂ => .error e s₂
        | .ok true s₂ => .ok (.passed p.testNames.length) s₂
        | .ok false s₂ => match engine.firstFailure? p.testNames 0 s₂ with
          | .error e s₃ => .error e s₃
          | .ok none s₃ => .error disagreement s₃
          | .ok (some (name, passed)) s₃ => .ok (.failed name passed) s₃ := by
  rw [run, bind_apply]
  cases engine.load p s with
  | error e s₁ => rfl
  | ok u s₁ =>
    dsimp only
    rw [bind_apply]
    cases engine.prove allTests s₁ with
    | error e s₂ => rfl
    | ok answer s₂ =>
      cases answer with
      | true => rfl
      | false =>
        dsimp only
        rw [if_neg (by decide), bind_apply]
        cases engine.firstFailure? p.testNames 0 s₂ with
        | error e s₃ => rfl
        | ok failure s₃ => cases failure <;> rfl

end Steps

/-! ## What the forms have in common -/

/-- The goal of a test is not the one for all tests. -/
theorem testGoal_ne_allTests (name : String) : Logic.testGoal name ≠ allTests := by
  intro same
  have first := congrArg (fun text => text.toList.head?) same
  simp [Logic.testGoal, allTests] at first

namespace Event

@[simp] theorem call_consulted (text : String) (answer : Except EngineError Unit) :
    (consulted text answer).call = .consult text := rfl

@[simp] theorem call_proved (goal : String) (answer : Except EngineError Bool) :
    (proved goal answer).call = .prove goal := rfl

@[simp] theorem call_tested (answer : Bool) (name : String) :
    (tested answer name).call = .prove (Logic.testGoal name) := rfl

@[simp] theorem call_comp_taken : call ∘ taken = .consult := rfl

@[simp] theorem goesOn_tested (answer : Bool) (name : String) :
    (tested answer name).goesOn = answer := by
  have other : (Logic.testGoal name != allTests) = true := by
    simpa using testGoal_ne_allTests name
  simp [tested, goesOn, other]

@[simp] theorem goesOn_allTests (answer : Bool) :
    (proved allTests (.ok answer)).goesOn = !answer := by
  cases answer <;> simp [goesOn]

@[simp] theorem taken_ne_proved (goal text : String) (answer : Except EngineError Bool) :
    taken text ≠ proved goal answer := nofun

end Event

theorem mem_loaded {p : Program} {event : Event} (member : event ∈ loaded p) :
    ∃ text, event = .taken text := by
  obtain ⟨text, _, rfl⟩ := List.mem_map.mp member
  exact ⟨text, rfl⟩

@[simp] theorem proved_not_mem_loaded (p : Program) (goal : String)
    (answer : Except EngineError Bool) : .proved goal answer ∉ loaded p := by
  intro member
  obtain ⟨text, same⟩ := mem_loaded member
  exact Event.taken_ne_proved _ _ _ same.symm

theorem map_call_loaded (p : Program) :
    (loaded p).map Event.call = (p.texts ++ [bootstrap]).map .consult := by
  rw [loaded, List.map_map, Event.call_comp_taken]

namespace Course

variable {engine : Engine σ} {p : Program} {s : σ} {log : List Event}
  {result : Except EngineError Report}

theorem planned (course : Course engine p s log result) : log.map Event.call <+: plan p := by
  let tests (names : List String) : List Call := names.map fun name => .prove (Logic.testGoal name)
  unfold plan
  cases course with
  | @notLoaded before after text e whole =>
    refine ⟨after.map .consult ++ .prove allTests :: tests p.testNames, ?_⟩
    simp [whole, tests]
  | notAnswered => exact ⟨tests p.testNames, by simp [map_call_loaded, tests]⟩
  | passed => exact ⟨tests p.testNames, by simp [map_call_loaded, tests]⟩
  | @testNotAnswered before after name e whole =>
    exact ⟨tests after, by simp [whole, map_call_loaded, tests]⟩
  | @failed before after name whole =>
    exact ⟨tests after, by simp [whole, map_call_loaded, tests]⟩
  | disagreement _ => exact ⟨[], by simp [map_call_loaded]⟩

theorem goesOn_of_mem_loaded {event : Event} (member : event ∈ loaded p) : event.goesOn = true := by
  obtain ⟨text, rfl⟩ := mem_loaded member
  rfl

/-- Tests that hold by themselves, after not all of them hold at once. -/
theorem goesOn_of_mem_asked {names : List String} {event : Event}
    (member : event ∈ loaded p ++ .proved allTests (.ok false) :: names.map (.tested true)) :
    event.goesOn = true := by
  rcases List.mem_append.mp member with member | member
  · exact goesOn_of_mem_loaded member
  · rcases List.mem_cons.mp member with rfl | member
    · exact Event.goesOn_allTests false
    · obtain ⟨name, _, rfl⟩ := List.mem_map.mp member
      exact Event.goesOn_tested true name

/-- The events before the last one let the run go on, and so do all if the plan is carried out. -/
theorem goesOn (course : Course engine p s log result) :
    (∀ event ∈ log.dropLast, event.goesOn = true) ∧
      ((∀ event ∈ log, event.goesOn = true) → log.map Event.call = plan p) := by
  -- A last event that ends the run.
  have ends {before : List Event} {last : Event} (goes : ∀ event ∈ before, event.goesOn = true)
      (stops : last.goesOn = false) :
      (∀ event ∈ (before ++ [last]).dropLast, event.goesOn = true) ∧
        ((∀ event ∈ before ++ [last], event.goesOn = true) →
          (before ++ [last]).map Event.call = plan p) := by
    rw [List.dropLast_concat]
    refine ⟨goes, fun all => ?_⟩
    have := all last (by simp)
    rw [stops] at this
    cases this
  cases course with
  | @notLoaded before after text e whole =>
    refine ends (fun event member => ?_) rfl
    obtain ⟨text, _, rfl⟩ := List.mem_map.mp member
    rfl
  | notAnswered => exact ends (fun _ => goesOn_of_mem_loaded) rfl
  | passed => exact ends (fun _ => goesOn_of_mem_loaded) (by simp)
  | @testNotAnswered before after name e whole => exact ends (fun _ => goesOn_of_mem_asked) rfl
  | @failed before after name whole => exact ends (fun _ => goesOn_of_mem_asked) (by simp)
  | disagreement _ =>
    refine ⟨fun event member => goesOn_of_mem_asked (List.dropLast_subset _ member), fun _ => ?_⟩
    simp [plan, map_call_loaded]

end Course

end Rulebook.Engine
