import Rulebook.Parser.Document
import Rulebook.Proofs.Parser.Expr

/-!
# Sessions with one parser

A parser may be asked for a document, for an expression or for the end of the text, again and again
and also after it has failed. Whatever it was asked for, it stands at some place of its text
(`afterCalls_placed`); the variables in scope may be anything.
-/

namespace Rulebook

/-- What follows a result of the stream is proper, whatever the result is. -/
theorem TokenStream.Proper.ahead {stream : TokenStream} (proper : stream.Proper) :
    stream.next.2.Proper := by
  unfold TokenStream.next
  split
  · exact proper
  · rename_i pending more
    refine ⟨fun t member => proper.pending t ?_, proper.last⟩
    rw [more]
    exact List.mem_cons_of_mem _ member

namespace Parser

variable {α β : Type}

/-- The state that a parser leaves, whether it succeeds or not. -/
def after (p : Parser α) (s : State) : State :=
  match p s with
  | .ok _ s' => s'
  | .error _ s' => s'

/-- The state is at a place of a scanned text. -/
structure State.Placed (s : State) : Prop where
  current : s.current.Proper
  ahead : s.ahead.Proper

theorem State.Placed.exists_cursor {s : State} (placed : s.Placed) :
    ∃ (c : Cursor) (scope : Table FieldType), s = c.state scope :=
  ⟨⟨s.current, s.ahead, placed.current, placed.ahead⟩, s.scope, rfl⟩

/-- A run ends in a state with this property and, if it fails, with such an error. -/
def Ends (holds : State → Prop) (raised : ParseError → Prop) :
    EStateM.Result ParseError State α → Prop
  | .ok _ s => holds s
  | .error e s => holds s ∧ raised e

theorem Ends.after {p : Parser α} {s : State} {holds : State → Prop} {raised : ParseError → Prop}
    (ends : Ends holds raised (p s)) : holds (after p s) := by
  unfold Parser.after
  cases result : p s with
  | ok a s' =>
    rw [result] at ends
    exact ends
  | error e s' =>
    rw [result] at ends
    exact ends.1

/-- Every step of a parser keeps the property, and all errors of steps are of the kind. -/
structure Stable (holds : State → Prop) (raised : ParseError → Prop) : Prop where
  scope : ∀ s table, holds s → holds { s with scope := table }
  advance : ∀ s, holds s → Ends holds raised (advance s)
  peek : ∀ s, holds s → Ends holds raised (peek s)
  integer : ∀ s, holds s → s.current.kind = .int → integerOf? s.current.literal = none →
    raised (.integer s.current.literal s.current.position)
  unexpected : ∀ expected found, raised (.unexpected expected found)
  notBinary : ∀ op position, raised (.notBinary op position)
  duplicate : ∀ what name position, raised (.duplicate what name position)

/-- The parser keeps what all steps keep, also where it fails, and raises what they raise. -/
def Keeps (p : Parser α) : Prop :=
  ∀ ⦃holds : State → Prop⦄ ⦃raised : ParseError → Prop⦄, Stable holds raised →
    ∀ s, holds s → Ends holds raised (p s)

/-! ## Steps -/

theorem keeps_pure (a : α) : Keeps (pure a) := fun _ _ _ _ h => h

theorem keeps_unexpected (expected : Expected) : Keeps (unexpected expected : Parser α) :=
  fun _ _ stable s h => ⟨h, stable.unexpected expected s.current⟩

theorem keeps_get : Keeps (get : Parser State) := fun _ _ _ _ h => h

/-- A sequence ends after its first step or after its second. -/
theorem keeps_bind {p : Parser α} {f : α → Parser β} (hp : Keeps p) (hf : ∀ a, Keeps (f a)) :
    Keeps (p >>= f) := by
  intro holds raised stable s h
  have first := hp stable s h
  change Ends holds raised (EStateM.bind p f s)
  unfold EStateM.bind
  cases result : p s with
  | ok a s' =>
    rw [result] at first
    exact hf a stable s' first
  | error e s' =>
    rw [result] at first
    exact first

theorem keeps_ite {c : Prop} [Decidable c] {p q : Parser α} (hp : Keeps p) (hq : Keeps q) :
    Keeps (if c then p else q) := by
  split
  · exact hp
  · exact hq

theorem keeps_advance : Keeps advance := fun _ _ stable => stable.advance

theorem keeps_peek : Keeps peek := fun _ _ stable => stable.peek

theorem keeps_clearScope : Keeps clearScope := fun _ _ stable s h => stable.scope s _ h

theorem keeps_declare (name : String) (type : FieldType) : Keeps (declare name type) :=
  fun _ _ stable s h => stable.scope s _ h

theorem keeps_current : Keeps current := fun _ _ _ _ h => h

theorem keeps_bound : Keeps bound := fun _ _ _ _ h => h

theorem keeps_expect (kind : Token.Kind) : Keeps (expect kind) :=
  keeps_bind keeps_current fun _ => keeps_ite keeps_advance (keeps_unexpected _)

theorem keeps_identifier : Keeps identifier :=
  keeps_bind keeps_current fun _ =>
    keeps_ite (keeps_bind keeps_advance fun _ => keeps_pure _) (keeps_unexpected _)

theorem keeps_endOfInput : Keeps endOfInput :=
  keeps_bind (keeps_expect _) fun _ => keeps_pure _

/-! ## Lists -/

theorem keeps_itemsFrom {item : List α → Parser α} (hitem : ∀ before, Keeps (item before))
    (steps : Nat) (before : List α) : Keeps (itemsFrom item steps before) := by
  induction steps generalizing before with
  | zero => exact keeps_unexpected _
  | succ steps ih =>
    refine keeps_bind (hitem before) fun a => keeps_bind keeps_current fun t => ?_
    split
    · exact keeps_bind keeps_advance fun _ => ih _
    · exact keeps_bind keeps_advance fun _ => keeps_pure _
    · exact keeps_unexpected _

theorem keeps_bracedSome {item : List α → Parser α} (hitem : ∀ before, Keeps (item before)) :
    Keeps (bracedSome item) :=
  keeps_bind (keeps_expect _) fun _ => keeps_bind keeps_bound fun _ => keeps_itemsFrom hitem _ _

theorem keeps_bracedMany {item : List α → Parser α} (hitem : ∀ before, Keeps (item before)) :
    Keeps (bracedMany item) :=
  keeps_bind (keeps_expect _) fun _ => keeps_bind keeps_current fun _ =>
    keeps_ite (keeps_bind keeps_advance fun _ => keeps_pure _)
      (keeps_bind keeps_bound fun _ => keeps_itemsFrom hitem _ _)

/-! ## Expressions -/

theorem keeps_resolve (name : String) : Keeps (resolve name) := by
  refine keeps_bind keeps_get fun s => ?_
  split <;> exact keeps_pure _

theorem advance_eq_ok {s s' : State} {t : Token} (h : advance s = .ok t s') : t = s.current := by
  unfold advance at h
  split at h
  · cases h
    rfl
  · cases h

/-- An integer is refused only if it is the current token. -/
theorem keeps_literal : Keeps literal := by
  intro holds raised stable s h
  have first := stable.advance s h
  change Ends holds raised (EStateM.bind advance _ s)
  unfold EStateM.bind
  cases result : advance s with
  | error e s' =>
    rw [result] at first
    exact first
  | ok t s' =>
    rw [result] at first
    obtain rfl := advance_eq_ok result
    dsimp only
    cases kind : s.current.kind with
    | identifier => exact keeps_resolve _ stable s' first
    | int =>
      cases value : integerOf? s.current.literal with
      | some n => exact first
      | none => exact ⟨first, stable.integer s h kind value⟩
    | float | string => exact first
    | operator _ | delimiter _ | keyword _ | comment | endOfInput =>
      exact ⟨first, stable.unexpected _ _⟩

theorem keeps_binaryOperator (op : Operator) : Keeps (binaryOperator op) := by
  refine keeps_bind keeps_advance fun token => ?_
  split
  · exact keeps_pure _
  · exact fun _ _ stable _ h => ⟨h, stable.notBinary op _⟩

theorem keeps_operand {group : Parser Node} (hgroup : Keeps group) : Keeps (operand group) := by
  refine keeps_bind keeps_current fun token => ?_
  split
  · exact keeps_bind keeps_advance fun _ => keeps_bind hgroup fun _ =>
      keeps_bind (keeps_expect _) fun _ => keeps_pure _
  · exact keeps_ite (keeps_bind keeps_literal fun _ => keeps_pure _) (keeps_unexpected _)

theorem keeps_chainFrom {operand : Parser Node} (hoperand : Keeps operand) (steps : Nat)
    (tree : ChainTree) : Keeps (chainFrom operand steps tree) := by
  induction steps generalizing tree with
  | zero => exact keeps_pure tree
  | succ steps ih =>
    refine keeps_bind keeps_current fun token => ?_
    split
    · exact keeps_bind (keeps_binaryOperator _) fun _ => keeps_bind hoperand fun _ => ih _
    · exact keeps_pure _

theorem keeps_chainWithin (steps : Nat) : Keeps (chainWithin steps) := by
  induction steps with
  | zero => exact keeps_unexpected _
  | succ steps ih =>
    have operands := keeps_operand ih
    exact keeps_bind operands fun _ =>
      keeps_bind (keeps_chainFrom operands _ _) fun _ => keeps_pure _

theorem keeps_chain : Keeps chain := keeps_bind keeps_bound fun _ => keeps_chainWithin _

theorem keeps_argumentsFrom (steps : Nat) (before : List Node) :
    Keeps (argumentsFrom steps before) := by
  induction steps generalizing before with
  | zero => exact keeps_pure before
  | succ steps ih =>
    exact keeps_bind keeps_chain fun _ => keeps_bind keeps_current fun _ =>
      keeps_ite (keeps_bind keeps_advance fun _ => ih _) (keeps_pure _)

theorem keeps_invocation : Keeps invocation := by
  refine keeps_bind keeps_identifier fun functor => keeps_bind (keeps_expect _) fun _ => ?_
  have close (args : List Node) : Keeps (do
      let _ ← expect (.delimiter .rightParen)
      return ⟨functor, args⟩ : Parser Expr) :=
    keeps_bind (keeps_expect _) fun _ => keeps_pure _
  exact keeps_bind keeps_current fun _ => keeps_ite (close [])
    (keeps_bind keeps_bound fun _ => keeps_bind (keeps_argumentsFrom _ _) close)

theorem keeps_atInvocation : Keeps atInvocation :=
  keeps_bind keeps_current fun _ =>
    keeps_ite (keeps_bind keeps_peek fun _ => keeps_pure _) (keeps_pure _)

theorem keeps_expression : Keeps expression := by
  refine keeps_bind keeps_atInvocation fun _ => keeps_ite keeps_invocation ?_
  refine keeps_bind keeps_chain fun node => ?_
  split
  · exact keeps_pure _
  · exact keeps_unexpected _

/-! ## Declarations -/

/-- A step that may refuse what comes before it as a second declaration. -/
theorem keeps_unless {refused : Prop} [Decidable refused] {what : Declared} {name : String}
    {position : Position} {next : Unit → Parser α} (hnext : Keeps (next ())) :
    Keeps (if refused then throw (.duplicate what name position) >>= next else next ()) :=
  keeps_ite (fun _ _ stable _ h => ⟨h, stable.duplicate what name position⟩) hnext

theorem keeps_field : Keeps field :=
  keeps_bind keeps_identifier fun _ => keeps_bind (keeps_expect _) fun _ =>
    keeps_bind keeps_identifier fun _ => keeps_pure _

theorem keeps_fields (owner : String) : Keeps (fields owner) :=
  keeps_bracedSome fun _ => keeps_bind keeps_current fun _ => keeps_bind keeps_field fun _ =>
    keeps_unless (keeps_pure _)

theorem keeps_param : Keeps param :=
  keeps_bind keeps_current fun _ => keeps_bind keeps_field fun _ =>
    keeps_bind (keeps_declare _ _) fun _ => keeps_unless (keeps_pure _)

theorem keeps_rule : Keeps rule :=
  keeps_bind keeps_clearScope fun _ => keeps_bind keeps_identifier fun _ =>
    keeps_bind (keeps_expect _) fun _ => keeps_bind (keeps_expect _) fun _ =>
    keeps_bind (keeps_bracedMany fun _ => keeps_param) fun _ =>
    keeps_bind (keeps_expect _) fun _ =>
    keeps_bind (keeps_bracedMany fun _ => keeps_expression) fun _ =>
    keeps_bind (keeps_expect _) fun _ => keeps_bind keeps_clearScope fun _ => keeps_pure _

theorem keeps_assignment (owner : String) (before : List (String × Term)) :
    Keeps (assignment owner before) :=
  keeps_bind keeps_current fun _ => keeps_bind keeps_identifier fun _ =>
    keeps_bind (keeps_expect _) fun _ => keeps_bind keeps_literal fun _ =>
    keeps_unless (keeps_pure _)

theorem keeps_instantiation : Keeps instantiation :=
  keeps_bind keeps_current fun _ => keeps_bind keeps_identifier fun _ =>
    keeps_bind (keeps_expect _) fun _ => keeps_bind keeps_identifier fun _ =>
    keeps_bind (keeps_bracedSome (keeps_assignment _)) fun _ =>
    keeps_bind (keeps_declare _ _) fun _ => keeps_unless (keeps_pure _)

theorem keeps_fact : Keeps fact :=
  keeps_bind keeps_atInvocation fun _ => keeps_ite keeps_invocation keeps_instantiation

theorem keeps_testName : Keeps testName := by
  refine keeps_bind keeps_current fun token => ?_
  split
  · exact keeps_bind keeps_advance fun _ => keeps_pure _
  · exact keeps_bind keeps_advance fun _ => keeps_pure _
  · exact keeps_unexpected _

theorem keeps_test : Keeps test :=
  keeps_bind keeps_clearScope fun _ => keeps_bind keeps_testName fun _ =>
    keeps_bind (keeps_expect _) fun _ => keeps_bind (keeps_expect _) fun _ =>
    keeps_bind (keeps_bracedMany fun _ => keeps_fact) fun _ =>
    keeps_bind (keeps_expect _) fun _ =>
    keeps_bind (keeps_bracedMany fun _ => keeps_invocation) fun _ =>
    keeps_bind (keeps_expect _) fun _ => keeps_bind keeps_clearScope fun _ => keeps_pure _

theorem keeps_declaration : Keeps declaration := by
  refine keeps_bind keeps_current fun token => ?_
  split
  · exact keeps_bind keeps_advance fun _ => keeps_bind (keeps_bind keeps_identifier fun _ =>
      keeps_bind (keeps_fields _) fun _ => keeps_pure _) fun _ => keeps_pure _
  · exact keeps_bind keeps_advance fun _ => keeps_bind (keeps_bind keeps_identifier fun _ =>
      keeps_bind (keeps_fields _) fun _ => keeps_pure _) fun _ => keeps_pure _
  · exact keeps_bind keeps_advance fun _ => keeps_bind keeps_rule fun _ => keeps_pure _
  · exact keeps_bind keeps_advance fun _ => keeps_bind keeps_test fun _ => keeps_pure _
  · exact keeps_unexpected _

theorem keeps_declarationsFrom (steps : Nat) (d : Document) : Keeps (declarationsFrom steps d) := by
  induction steps generalizing d with
  | zero => exact keeps_unexpected _
  | succ steps ih =>
    exact keeps_bind keeps_current fun _ => keeps_ite (keeps_pure _)
      (keeps_bind keeps_declaration fun _ => keeps_unless (ih _))

theorem keeps_document : Keeps document :=
  keeps_bind keeps_bound fun _ => keeps_declarationsFrom _ _

/-! ## Sessions -/

/-- What a parser may be asked for. -/
inductive Call where
  | document
  | expression
  | endOfInput
  deriving Repr, DecidableEq

/-- The state after a call, whatever its answer is. -/
def Call.after : Call → State → State
  | document => Parser.after Parser.document
  | expression => Parser.after Parser.expression
  | endOfInput => Parser.after Parser.endOfInput

/-- The end of a call, whatever its answer is. -/
theorem Call.ends (call : Call) {holds : State → Prop} {raised : ParseError → Prop}
    (stable : Stable holds raised) {s : State} (h : holds s) : holds (call.after s) := by
  cases call with
  | document => exact (keeps_document stable s h).after
  | expression => exact (keeps_expression stable s h).after
  | endOfInput => exact (keeps_endOfInput stable s h).after

/-- The state after several calls, one after the other. -/
def afterCalls (calls : List Call) (s : State) : State := calls.foldl (fun s call => call.after s) s

/-- What all steps keep, calls keep. -/
theorem afterCalls_keeps (calls : List Call) {holds : State → Prop} {raised : ParseError → Prop}
    (stable : Stable holds raised) {s : State} (h : holds s) : holds (afterCalls calls s) := by
  induction calls generalizing s with
  | nil => exact h
  | cons call rest ih => exact ih (call.ends stable h)

/-- A parser goes from places to places, and finds every integer in range there. -/
theorem stable_placed :
    Stable State.Placed fun e => ∀ digits position, e ≠ .integer digits position where
  scope _ _ placed := ⟨placed.current, placed.ahead⟩
  advance s placed := by
    unfold advance
    have later := placed.ahead.ahead
    cases next : s.ahead.next with
    | mk result ahead =>
      rw [next] at later
      cases result with
      | ok t => exact ⟨(placed.ahead.next next).1, later⟩
      | error e => exact ⟨⟨placed.current, later⟩, nofun⟩
  peek s placed := by
    unfold peek
    have later := placed.ahead.ahead
    cases next : s.ahead.next with
    | mk result ahead =>
      rw [next] at later
      cases result with
      | ok t => exact placed
      | error e => exact ⟨⟨placed.current, later⟩, nofun⟩
  integer s placed kind none := by
    rw [integerOf?_of_le (placed.current.int kind)] at none
    cases none
  unexpected _ _ := nofun
  notBinary _ _ := nofun
  duplicate _ _ _ := nofun

theorem afterCalls_placed (calls : List Call) {s : State} (placed : s.Placed) :
    (afterCalls calls s).Placed :=
  afterCalls_keeps calls stable_placed placed

/-- The document that the parser of a text gives after several calls. -/
def documentAfter (calls : List Call) (text : String) : Except ParseError Document := do
  let s ← start text
  match document (afterCalls calls s) with
  | .ok d _ => .ok d
  | .error e _ => .error e

theorem placed_of_start {text : String} {s : State} (started : start text = .ok s) : s.Placed := by
  have proper := TokenStream.ofString_proper text
  unfold start at started
  split at started
  · rename_i t ahead next
    cases started
    obtain ⟨here, later⟩ := proper.next next
    exact ⟨here, later⟩
  · cases started

/-- A document that is given after calls is parsed from some place of the text, with some scope. -/
theorem yields_of_documentAfter {calls : List Call} {text : String} {d : Document}
    (parsed : documentAfter calls text = .ok d) :
    ∃ (c : Cursor) (scope : Table FieldType) (s' : State), Yields document (c.state scope) d s' := by
  unfold documentAfter at parsed
  cases started : start text with
  | error e => simp [started, bind, Except.bind] at parsed
  | ok s =>
    simp only [started, bind, Except.bind] at parsed
    obtain ⟨c, scope, same⟩ := (afterCalls_placed calls (placed_of_start started)).exists_cursor
    cases result : document (afterCalls calls s) with
    | error e s' => simp [result] at parsed
    | ok d' s' =>
      simp only [result, Except.ok.injEq] at parsed
      rw [same, parsed] at result
      exact ⟨c, scope, s', result⟩

end Parser

end Rulebook
