import Mathlib.Data.List.Basic
import Rulebook.Proofs.Parser.Correct

/-!
# The comparison mode

The text of a clause in slots: a comparison has a slot of its own, and every other slot is a fixed
text. The slots are made without the mode, which says only how comparisons are written
(`Clause.fill_slots`). So programs of two modes differ in their comparisons only, and there they do
differ (`Slot.fill_eq_fill_iff`).
-/

namespace Rulebook

namespace Logic

/-- A part of a written clause. -/
inductive Slot where
  | fixed (text : String)
  /-- Where the functor of a comparison stands. -/
  | comparison (op : Operator) (compares : op.isComparison = true)

namespace Slot

/-- A comparison is written by the mode. -/
def text (mode : ComparisonMode) : Slot → String
  | fixed text => text
  | comparison op compares => (mode.functor? op).get (by rw [mode.functor?_isSome, compares])

/-- Slots one after the other. -/
def fill (mode : ComparisonMode) (slots : List Slot) : String := .join (slots.map (text mode))

/-- The slot of an operator. The remainder goes by its name, and every other operator that does not
compare stands for itself. -/
def operator (op : Operator) : Slot :=
  if compares : op.isComparison = true then comparison op compares
  else fixed (if op = .percent then "mod" else op.spelling)

/-- A functor and its arguments. -/
def applied (functor : Slot) (args : List (List Slot)) : List Slot :=
  if args.isEmpty then [functor]
  else functor :: fixed "(" :: [fixed ","].intercalate args ++ [fixed ")"]

/-- Goals that must all hold. -/
def conjunction (goals : List (List Slot)) : List Slot :=
  if goals.isEmpty then [fixed "true"] else [fixed ", "].intercalate goals

/-- A head, and a body unless it is empty. -/
def clause (head : List Slot) (body : List (List Slot)) : List Slot :=
  if body.isEmpty then head ++ [fixed "."]
  else head ++ fixed " :- " :: [fixed ", "].intercalate body ++ [fixed "."]

variable {mode : ComparisonMode} {slots more : List Slot} {parts : List (List Slot)}

@[simp] theorem fill_nil : fill mode [] = "" := String.join_nil

@[simp] theorem fill_cons {slot : Slot} :
    fill mode (slot :: slots) = slot.text mode ++ fill mode slots := String.join_cons

@[simp] theorem fill_append : fill mode (slots ++ more) = fill mode slots ++ fill mode more := by
  simp [fill]

@[simp] theorem text_fixed {text : String} : (fixed text).text mode = text := rfl

@[simp] theorem text_operator (op : Operator) : (operator op).text mode = mode.functor op := by
  have known := mode.functor?_isSome op
  unfold operator ComparisonMode.functor
  split
  · rename_i compares
    obtain ⟨functor, found⟩ := Option.isSome_iff_exists.mp (known.trans compares)
    simp [text, found]
  · rename_i other
    have none : mode.functor? op = none := by simpa [other] using known
    simp [none]

@[simp] theorem fill_intercalate {separator : String} :
    fill mode ([fixed separator].intercalate parts) =
      separator.intercalate (parts.map (fill mode)) := by
  induction parts with
  | nil => simp
  | cons first rest ih =>
    cases rest with
    | nil => simp
    | cons next rest =>
      rw [List.intercalate_cons_cons, fill_append, ih]
      simp

/-- Nothing that follows makes up for the functor of another mode. -/
theorem text_append_ne {mode' : ComparisonMode} (other : mode ≠ mode') {op : Operator}
    (compares : op.isComparison = true) (rest rest' : String) :
    (comparison op compares).text mode ++ rest ≠ (comparison op compares).text mode' ++ rest' := by
  intro same
  replace same := congrArg String.toList same
  cases op with
  | greaterEqual | greater | lessEqual | less | equal | notEqual =>
    cases mode <;> cases mode' <;> simp_all [text, ComparisonMode.functor?]
  | _ => cases compares

/-- Two modes write the same exactly where nothing is compared. -/
theorem fill_eq_fill_iff {mode' : ComparisonMode} :
    fill mode slots = fill mode' slots ↔ mode = mode' ∨ ∀ slot ∈ slots, ∃ text, slot = fixed text := by
  by_cases same : mode = mode'
  · simp [same]
  · rw [or_iff_right same]
    induction slots with
    | nil => simp
    | cons slot rest ih =>
      rw [fill_cons, fill_cons, List.forall_mem_cons, ← ih]
      cases slot with
      | fixed text => simp
      | comparison op compares =>
        refine iff_of_false (text_append_ne same compares _ _) ?_
        simp

@[simp] theorem fill_applied {functor : Slot} :
    fill mode (applied functor parts) =
      Logic.applied (functor.text mode) (parts.map (fill mode)) := by
  cases parts with
  | nil => simp [applied, Logic.applied]
  | cons first rest => simp [applied, Logic.applied, String.append_assoc]

@[simp] theorem fill_conjunction :
    fill mode (conjunction parts) = Logic.conjunction (parts.map (fill mode)) := by
  cases parts with
  | nil => simp [conjunction, Logic.conjunction]
  | cons first rest => simp [conjunction, Logic.conjunction]

@[simp] theorem fill_clause :
    fill mode (clause slots parts) = clauseText (fill mode slots) (parts.map (fill mode)) := by
  cases parts with
  | nil => simp [clause, clauseText]
  | cons first rest => simp [clause, clauseText, String.append_assoc]

end Slot

/-! ## Trees -/

section

variable (naming : Naming)

/-- The slot of what a term applies. -/
def Functor.slot : Functor → Slot
  | operator op => .operator op
  | predicate name => .fixed (atom name)

mutual

def Term.slots : Term → List Slot
  | .var v => [.fixed (v.text naming)]
  | .int value => [.fixed (toString value.toInt)]
  | .float text => [.fixed text]
  | .quoted text => [.fixed (Logic.quoted text)]
  | .wildcard => [.fixed "_"]
  | .apply functor args => Slot.applied functor.slot (Term.slotsAll args)
  | .construct object args => Slot.applied (.fixed (naming.object object)) (Term.slotsAll args)
  | .unify v value => .fixed (v.text naming ++ " = ") :: Term.slots value

/-- The slots of several terms. -/
def Term.slotsAll : List Term → List (List Slot)
  | [] => []
  | t :: rest => Term.slots t :: Term.slotsAll rest

end

mutual

def Goal.slots : Goal → List Slot
  | .holds t => t.slots naming
  | .access object field result target =>
    [.fixed (naming.accessor object field ++ "(" ++ naming.fresh result ++ ", " ++
      target.text naming ++ ")")]
  | .assert fact => .fixed "assertz(" :: fact.slots naming ++ [.fixed ")"]
  | .retract fact => .fixed "retract(" :: fact.slots naming ++ [.fixed ")"]
  | .fail => [.fixed "fail"]
  | .choice condition success failure =>
    .fixed "(" :: Slot.conjunction (Goal.slotsAll condition) ++
      .fixed " -> " :: Slot.conjunction (Goal.slotsAll success) ++
      .fixed " ; " :: Slot.conjunction (Goal.slotsAll failure) ++ [.fixed ")"]

/-- The slots of several goals. -/
def Goal.slotsAll : List Goal → List (List Slot)
  | [] => []
  | goal :: rest => Goal.slots goal :: Goal.slotsAll rest

end

def Clause.slots : Clause → List Slot
  | .accessor object _ field position arity =>
    [.fixed (naming.accessor object field ++ "(Value, Object) :- Object = " ++
      naming.object object ++ "(" ++ ",".intercalate (pick position arity) ++ ").")]
  | .directive relation arity =>
    [.fixed (":- dynamic(" ++ atom relation ++ "/" ++ toString arity ++ ").")]
  | .rule name params body =>
    Slot.clause (Slot.applied (.fixed (atom name)) (Term.slotsAll naming params))
      (Goal.slotsAll naming body)
  | .test name body => Slot.clause [.fixed (testGoal name)] (Goal.slotsAll naming body)
  | .testCases names => [.fixed ("test_cases([" ++ ",".intercalate (names.map quoted) ++ "]).")]

end

variable {naming : Naming} {mode : ComparisonMode}

@[simp] theorem Functor.text_slot (functor : Functor) :
    functor.slot.text mode = functor.text mode := by
  cases functor with
  | operator op => exact Slot.text_operator op
  | predicate name => rfl

namespace Term

mutual

theorem fill_slots : (t : Term) → Slot.fill mode (t.slots naming) = t.text ⟨naming, mode⟩
  | var _ | int _ | float _ | quoted _ | wildcard => by simp [slots, text]
  | apply _ args => by simp [slots, text, map_fill_slots args]
  | construct _ args => by simp [slots, text, map_fill_slots args]
  | unify _ value => by simp [slots, text, fill_slots value]

theorem map_fill_slots :
    (ts : List Term) → (slotsAll naming ts).map (Slot.fill mode) = texts ⟨naming, mode⟩ ts
  | [] => rfl
  | t :: rest => by rw [slotsAll, texts, List.map_cons, fill_slots t, map_fill_slots rest]

end

end Term

namespace Goal

mutual

theorem fill_slots : (g : Goal) → Slot.fill mode (g.slots naming) = g.text ⟨naming, mode⟩
  | holds t => by rw [slots, text, t.fill_slots]
  | access _ _ _ _ | fail => by simp [slots, text]
  | assert fact => by simp [slots, text, fact.fill_slots, String.append_assoc]
  | retract fact => by simp [slots, text, fact.fill_slots, String.append_assoc]
  | choice condition success failure => by
    simp [slots, text, map_fill_slots condition, map_fill_slots success, map_fill_slots failure,
      String.append_assoc]

theorem map_fill_slots :
    (goals : List Goal) → (slotsAll naming goals).map (Slot.fill mode) = texts ⟨naming, mode⟩ goals
  | [] => rfl
  | goal :: rest => by rw [slotsAll, texts, List.map_cons, fill_slots goal, map_fill_slots rest]

end

end Goal

/-- The mode only fills the slots of comparisons. -/
theorem Clause.fill_slots (c : Clause) :
    Slot.fill mode (c.slots naming) = c.text ⟨naming, mode⟩ := by
  cases c with
  | accessor | directive | testCases => simp [slots, text]
  | rule name params body => simp [slots, text, Term.map_fill_slots, Goal.map_fill_slots]
  | test name body => simp [slots, text, Goal.map_fill_slots]

end Logic

/-- How each comparison is spelled in documents, and its functors in the standard and in the arithmetic
mode. -/
def comparisons : List (String × String × String) :=
  [(">=", "@>=", ">="), (">", "@>", ">"), ("<=", "@=<", "=<"), ("<", "@<", "<"), ("==", "==", "=:="),
    ("!=", "\\==", "=\\=")]

/-- The comparison mode changes the functors of comparisons and nothing else. Under two modes a
document is refused with the same error, or it becomes two programs with clauses of the same kinds,
the same symbols and the same tests. The texts of both are the slots of the same clauses, in which
exactly the comparisons are left to the mode; each of them has one functor in the standard and
another in the arithmetic mode, so a text stays the same exactly if it compares nothing. -/
theorem comparison_mode_exact (naming : Naming) (mode mode' : ComparisonMode) (d : Document) :
    ((∃ e, Compiler.generate ⟨naming, mode⟩ d = .error (.semantic e) ∧
      Compiler.generate ⟨naming, mode'⟩ d = .error (.semantic e)) ∨
    ∃ p p' theory, Compiler.generate ⟨naming, mode⟩ d = .ok p ∧
      Compiler.generate ⟨naming, mode'⟩ d = .ok p' ∧
      Lowering.theory naming d = .ok theory ∧
      p'.clauses.map WrittenClause.kind = p.clauses.map WrittenClause.kind ∧
      p'.symbols = p.symbols ∧ p'.testNames = p.testNames ∧
      p.texts = theory.clauses.map (fun c => Logic.Slot.fill mode (c.slots naming)) ∧
      p'.texts = theory.clauses.map (fun c => Logic.Slot.fill mode' (c.slots naming))) ∧
    (∀ op (compares : op.isComparison = true), Logic.Slot.operator op = .comparison op compares ∧
      (op.spelling, (Logic.Slot.comparison op compares).text .standard,
        (Logic.Slot.comparison op compares).text .arithmetic) ∈ comparisons) ∧
    (∀ slots, Logic.Slot.fill mode slots = Logic.Slot.fill mode' slots ↔
      mode = mode' ∨ ∀ slot ∈ slots, ∃ text, slot = .fixed text) ∧
    (∀ op ∈ [.plus, .minus, .star, .slash], Logic.Slot.operator op = .fixed op.spelling) ∧
    Logic.Slot.operator .percent = .fixed "mod" := by
  refine ⟨?_, fun op compares => ⟨dif_pos compares, ?_⟩, fun _ => Logic.Slot.fill_eq_fill_iff,
    by simp [Logic.Slot.operator, Operator.isComparison], rfl⟩
  · unfold Compiler.generate Program.ofDocument
    cases lowered : Lowering.theory naming d with
    | error e => exact .inl ⟨e, rfl, rfl⟩
    | ok theory =>
      refine .inr ⟨_, _, theory, rfl, rfl, rfl, ?_, rfl, rfl, ?_, ?_⟩
      · simp [Logic.Clause.written]
      · simp [Program.texts, Logic.Clause.written, Logic.Clause.fill_slots]
      · simp [Program.texts, Logic.Clause.written, Logic.Clause.fill_slots]
  · cases op with
    | greaterEqual | greater | lessEqual | less | equal | notEqual =>
      simp [comparisons, Operator.spelling, Logic.Slot.text, ComparisonMode.functor?]
    | _ => cases compares

/-- All comparisons, the remainder, and a text that is spelled like a comparison. -/
theorem comparison_mode_exact_both :
    ∃ (d : Document) (p p' : Program) (theory : Lowering.Theory),
      Compiler.parse ("object A { n: int, s: string } rule r \x7b input { a: A } rules \x7b " ++
        "a.n % 2 + 1 >= 3 * a.n - 4 / 2, a.s == \">=\", a.n != 2, a.n < 5, a.n <= 6, a.n > 0 \x7d \x7d") =
        .ok d ∧
      Compiler.generate ⟨{}, .standard⟩ d = .ok p ∧ Compiler.generate ⟨{}, .arithmetic⟩ d = .ok p' ∧
      p.ruleClause? "r" = some ("r(A) :- o_1_n(V_2, A), o_1_n(V_3, A), " ++
        "@>=(+(mod(V_2,2),1),-(*(3,V_3),/(4,2))), o_1_s(V_4, A), ==(V_4,'>='), " ++
        "o_1_n(V_5, A), \\==(V_5,2), o_1_n(V_6, A), @<(V_6,5), o_1_n(V_7, A), @=<(V_7,6), " ++
        "o_1_n(V_8, A), @>(V_8,0).") ∧
      p'.ruleClause? "r" = some ("r(A) :- o_1_n(V_2, A), o_1_n(V_3, A), " ++
        ">=(+(mod(V_2,2),1),-(*(3,V_3),/(4,2))), o_1_s(V_4, A), =:=(V_4,'>='), " ++
        "o_1_n(V_5, A), =\\=(V_5,2), o_1_n(V_6, A), <(V_6,5), o_1_n(V_7, A), =<(V_7,6), " ++
        "o_1_n(V_8, A), >(V_8,0).") ∧
      p.texts = theory.clauses.map (fun c => Logic.Slot.fill .standard (c.slots {})) ∧
      p'.texts = theory.clauses.map (fun c => Logic.Slot.fill .arithmetic (c.slots {})) := by
  let source := "object A { n: int, s: string } rule r \x7b input { a: A } rules \x7b " ++
    "a.n % 2 + 1 >= 3 * a.n - 4 / 2, a.s == \">=\", a.n != 2, a.n < 5, a.n <= 6, a.n > 0 \x7d \x7d"
  let clause? (mode : ComparisonMode) (d : Document) :=
    (Compiler.generate ⟨{}, mode⟩ d).toOption.map (·.ruleClause? "r")
  obtain ⟨d, parsed, answer⟩ : ∃ d, Compiler.parse source = .ok d ∧
      (clause? .standard d, clause? .arithmetic d) =
        (some (some ("r(A) :- o_1_n(V_2, A), o_1_n(V_3, A), " ++
          "@>=(+(mod(V_2,2),1),-(*(3,V_3),/(4,2))), o_1_s(V_4, A), ==(V_4,'>='), " ++
          "o_1_n(V_5, A), \\==(V_5,2), o_1_n(V_6, A), @<(V_6,5), o_1_n(V_7, A), @=<(V_7,6), " ++
          "o_1_n(V_8, A), @>(V_8,0).")),
        some (some ("r(A) :- o_1_n(V_2, A), o_1_n(V_3, A), " ++
          ">=(+(mod(V_2,2),1),-(*(3,V_3),/(4,2))), o_1_s(V_4, A), =:=(V_4,'>='), " ++
          "o_1_n(V_5, A), =\\=(V_5,2), o_1_n(V_6, A), <(V_6,5), o_1_n(V_7, A), =<(V_7,6), " ++
          "o_1_n(V_8, A), >(V_8,0)."))) := exists_ok_of_map (by decide +kernel)
  obtain ⟨standard, arithmetic⟩ := Prod.mk.inj answer
  obtain ⟨p, generated, clause⟩ := exists_ok_of_map standard
  obtain ⟨p', generated', clause'⟩ := exists_ok_of_map arithmetic
  rcases (comparison_mode_exact {} .standard .arithmetic d).1 with ⟨e, refused, _⟩ |
    ⟨q, q', theory, first, second, _, _, _, _, texts, texts'⟩
  · cases refused.symm.trans generated
  · cases first.symm.trans generated
    cases second.symm.trans generated'
    exact ⟨d, p, p', theory, parsed, generated, generated', clause, clause', texts, texts'⟩

end Rulebook
