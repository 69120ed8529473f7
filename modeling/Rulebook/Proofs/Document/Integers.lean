import Rulebook.Proofs.Document.RoundTrip
import Rulebook.Proofs.Document.Scope
import Rulebook.Proofs.Token.Numbers

/-!
# Integers are exact

Digits are judged once, by the scanner, which refuses those that are out of range. A parser reads the
same digits again for their value, and never fails there. What it gives holds the integers of the
tokens that it has read, in their order, each with the value of the digits that stand in the text.
-/

namespace Rulebook

/-! ## Integers of trees -/

/-- The integer that the term is. -/
def Term.int? : Term → Option Int64
  | .int n => some n
  | _ => none

/-- The integers of a node from left to right. -/
def Node.integers (n : Node) : List Int64 := n.leaves.filterMap Term.int?

def Expr.integers (e : Expr) : List Int64 := e.leaves.filterMap Term.int?

def Rule.integers (r : Rule) : List Int64 :=
  r.params.filterMap (·.held.int?) ++ r.body.flatMap Expr.integers

def Test.integers (t : Test) : List Int64 :=
  t.facts.flatMap Expr.integers ++ t.body.flatMap Expr.integers

def Declaration.integers : Declaration → List Int64
  | object _ | relation _ => []
  | rule r => r.integers
  | test t => t.integers

theorem Node.integers_term (t : Term) : (Node.term t).integers = t.held.int?.toList := by
  unfold integers leaves
  cases value : t.held.int? <;> simp [value]

theorem Expr.integers_eq (e : Expr) : e.integers = e.args.flatMap Node.integers := by
  unfold integers leaves Node.integers
  rw [Node.leavesAll_eq, List.filterMap_flatMap]

/-- A name that is resolved is no integer, and neither is one that is not. -/
theorem Term.int?_held_resolve (scope : Table FieldType) (t : Term) :
    (t.resolve scope).held.int? = t.held.int? := by
  cases t with
  | ident name => cases found : scope.find? name <;> simp [resolve, found, held, int?]
  | int _ | float _ | string _ | var _ _ | field _ _ => rfl

mutual

theorem Node.integers_resolve (scope : Table FieldType) :
    (n : Node) → (n.resolve scope).integers = n.integers
  | .term t => by
    rw [resolve, integers_term, integers_term, t.int?_held_resolve]
  | .app functor args => by
    rw [resolve, integers, integers, leaves, leaves]
    exact Node.integersAll_resolve scope args

theorem Node.integersAll_resolve (scope : Table FieldType) : (nodes : List Node) →
    (leavesAll (resolveAll scope nodes)).filterMap Term.int? =
      (leavesAll nodes).filterMap Term.int?
  | [] => rfl
  | n :: rest => by
    have first := n.integers_resolve scope
    have later := Node.integersAll_resolve scope rest
    unfold integers at first
    rw [resolveAll, leavesAll, leavesAll, List.filterMap_append, List.filterMap_append, first, later]

end

theorem Expr.integers_resolve (scope : Table FieldType) (e : Expr) :
    (e.resolve scope).integers = e.integers :=
  Node.integersAll_resolve scope e.args

namespace Written

/-- The integers of a fact as it is written. -/
def Fact.integers : Fact → List Int64
  | .invocation e => e.integers
  | .instantiation _ _ assigned => assigned.filterMap (·.2.held.int?)

theorem Fact.integers_tree (scope : Table FieldType) (f : Fact) :
    (f.tree scope).integers = f.integers := by
  cases f with
  | invocation e => exact e.integers_resolve scope
  | instantiation name object assigned =>
    have value (a : String × Term) :
        Node.integers (.term (.field a.1 (a.2.resolve scope))) = a.2.held.int?.toList := by
      rw [Node.integers_term]
      exact congrArg Option.toList (Term.int?_held_resolve scope a.2)
    rw [Expr.integers_eq]
    show (assigned.map _).flatMap Node.integers = assigned.filterMap (·.2.held.int?)
    rw [List.flatMap_map, List.filterMap_eq_flatMap_toList]
    exact List.flatMap_congr fun a _ => value a

theorem integers_factTrees (scope : Table FieldType) (facts : List Fact) :
    (factTrees scope facts).flatMap Expr.integers = facts.flatMap Fact.integers := by
  induction facts generalizing scope with
  | nil => rfl
  | cons f rest ih => rw [factTrees, List.flatMap_cons, List.flatMap_cons, f.integers_tree, ih]

theorem Rule.integers_tree (r : Rule) : r.tree.integers = r.body.flatMap Expr.integers := by
  have params : r.tree.params.filterMap (·.held.int?) = [] := by
    rw [List.filterMap_eq_nil_iff]
    intro t member
    obtain ⟨p, _, rfl⟩ := List.mem_map.mp member
    rfl
  rw [Rulebook.Rule.integers, params, List.nil_append, tree, List.flatMap_map]
  exact List.flatMap_congr fun e _ => e.integers_resolve _

theorem Test.integers_tree (t : Test) :
    t.tree.integers = t.facts.flatMap Fact.integers ++ t.body.flatMap Expr.integers := by
  rw [Rulebook.Test.integers, tree, integers_factTrees, List.flatMap_map]
  exact congrArg _ (List.flatMap_congr fun e _ => e.integers_resolve _)

end Written

/-! ## Integers of phrases -/

/-- The digits of the integers among tokens. -/
def numerals (ts : List Token) : List (List Char) :=
  ts.filterMap fun t => if t.kind = .int then some t.literal.toList else none

/-- The integers that tokens write. -/
def integersOf (ts : List Token) : List Int64 :=
  (numerals ts).map fun digits => .ofNat (Text.decimalValue digits)

@[simp] theorem integersOf_nil : integersOf [] = [] := rfl

@[simp] theorem integersOf_append (ts us : List Token) :
    integersOf (ts ++ us) = integersOf ts ++ integersOf us := by
  simp [integersOf, numerals]

@[simp] theorem integersOf_cons_of_ne {t : Token} (other : t.kind ≠ .int) (ts : List Token) :
    integersOf (t :: ts) = integersOf ts := by
  simp [integersOf, numerals, other]

theorem integersOf_int {t : Token} (kind : t.kind = .int) :
    integersOf [t] = [.ofNat (Text.decimalValue t.literal.toList)] := by
  simp [integersOf, numerals, kind]

namespace Grammar

variable {α : Type} {ts : List Token}

theorem integers_of_literal {t : Token} {v : Term} (h : Literal t v) :
    v.held.int?.toList = integersOf [t] := by
  cases h with
  | int kind =>
    rw [integersOf_int kind]
    rfl
  | name kind | float kind | string kind =>
    rw [integersOf_cons_of_ne (by simp [kind])]
    rfl

theorem integers_of_chain {level : Nat} {n : Node} (h : Chain level ts n) :
    n.integers = integersOf ts := by
  induction h with
  | @literal _ t v hv =>
    rw [Node.integers_term, integers_of_literal hv]
  | group kindL _ kindR ih => simp [ih, kindL, kindR]
  | @join _ _ op t _ _ left right _ _ _ kind _ ihL ihR =>
    have whole := Expr.integers_eq ⟨op.spelling, [left, right]⟩
    refine whole.trans ?_
    simp [ihL, ihR, kind]

section

variable {item : List Token → α → Prop} {f : α → List Int64} {as : List α}

/-- The integers of a list are those of its items. -/
theorem integers_of_separated (h : Separated item ts as)
    (one : ∀ ts a, item ts a → f a = integersOf ts) : as.flatMap f = integersOf ts := by
  induction h with
  | one ha => simp [one _ _ ha]
  | more ha kind _ ih => simp [one _ _ ha, ih, kind]

theorem integers_of_braced (h : Braced item ts as)
    (one : ∀ ts a, item ts a → f a = integersOf ts) : as.flatMap f = integersOf ts := by
  cases h with
  | mk kindL items kindR => simp [integers_of_separated items one, kindL, kindR]

theorem integers_of_bracedAny (h : BracedAny item ts as)
    (one : ∀ ts a, item ts a → f a = integersOf ts) : as.flatMap f = integersOf ts := by
  cases h with
  | none kindL kindR => simp [kindL, kindR]
  | some items => exact integers_of_braced items one

end

theorem integers_of_invocation {e : Expr} (h : Invocation ts e) : e.integers = integersOf ts := by
  rw [Expr.integers_eq]
  cases h with
  | none kindF kindL kindR => simp [kindF, kindL, kindR]
  | some kindF kindL args kindR =>
    rw [integers_of_separated args fun _ _ => integers_of_chain]
    simp [kindF, kindL, kindR]

theorem integers_of_expression {e : Expr} (h : Expression ts e) : e.integers = integersOf ts := by
  cases h with
  | invocation h => exact integers_of_invocation h
  | chain h => exact integers_of_chain h

theorem integers_of_typed {f : Field} (h : Typed ts f) : [] = integersOf ts := by
  cases h with
  | mk name colon type => simp [name, colon, type]

theorem integers_of_assigned {a : String × Term} (h : Assigned ts a) :
    a.2.held.int?.toList = integersOf ts := by
  cases h with
  | mk name colon value => simp [name, colon, integers_of_literal value]

theorem integers_of_factOf {f : Written.Fact} (h : FactOf ts f) : f.integers = integersOf ts := by
  cases h with
  | invocation h => exact integers_of_invocation h
  | instantiation name colon type assigned =>
    have values := integers_of_braced assigned fun _ _ => integers_of_assigned
    rw [Written.Fact.integers, List.filterMap_eq_flatMap_toList, values]
    simp [name, colon, type]

theorem integers_of_declares {w : Written.Declaration} (h : Declares ts w) :
    w.tree.integers = integersOf ts := by
  have fields {us : List Token} {fs : List Field} (h : Braced Typed us fs) : integersOf us = [] := by
    rw [← integers_of_braced h fun _ _ => integers_of_typed]
    simp
  have params {us : List Token} {fs : List Field} (h : BracedAny Typed us fs) :
      integersOf us = [] := by
    rw [← integers_of_bracedAny h fun _ _ => integers_of_typed]
    simp
  have named {t : Token} (kind : t.kind = .string ∨ t.kind = .identifier) : t.kind ≠ .int := by
    rcases kind with kind | kind <;> rw [kind] <;> nofun
  cases h with
  | object word name braced =>
    rw [integersOf_cons_of_ne (by simp [word]), integersOf_cons_of_ne (by simp [name]),
      fields braced]
    rfl
  | relation word name braced =>
    rw [integersOf_cons_of_ne (by simp [word]), integersOf_cons_of_ne (by simp [name]),
      fields braced]
    rfl
  | rule word h =>
    rcases h with ⟨name, l, input, ps, rules, body, r⟩
    have bodies := integers_of_bracedAny body fun _ _ => integers_of_expression
    rw [Written.Declaration.tree, Declaration.integers, Written.Rule.integers_tree, bodies]
    simp [word, name, l, input, params ps, rules, r]
  | test word h =>
    rcases h with ⟨name, l, facts, given, rules, body, r⟩
    have givens := integers_of_bracedAny given fun _ _ => integers_of_factOf
    have bodies := integers_of_bracedAny body fun _ _ => integers_of_invocation
    rw [Written.Declaration.tree, Declaration.integers, Written.Test.integers_tree, givens, bodies]
    simp [word, named name, l, facts, rules, r]

end Grammar

/-! ## Integers of a text -/

/-- The integers are those of the tokens in their order, each the value of its digits, and the digits
stand in the text. -/
structure WrittenBy (text : String) (ts : List Token) (ns : List Int64) : Prop where
  exact : ns.map Int64.toInt = (numerals ts).map fun digits => (Text.decimalValue digits : Int)
  inRange : ∀ n ∈ ns, 0 ≤ n.toInt ∧ n.toInt ≤ 2 ^ 63 - 1
  found : ∀ t ∈ ts, t.kind = .int → t.StandsIn text.toList

theorem toInt_ofNat_decimalValue {digits : List Char}
    (small : Text.decimalValue digits ≤ maxInteger) :
    (Int64.ofNat (Text.decimalValue digits)).toInt = Text.decimalValue digits := by
  apply Int64.toInt_ofNat_of_lt
  unfold maxInteger at small
  omega

theorem writtenBy_integersOf {text : String} {ts : List Token} (proper : ∀ t ∈ ts, t.Proper)
    (found : ∀ t ∈ ts, t.kind = .int → t.StandsIn text.toList) : WrittenBy text ts (integersOf ts) := by
  have small : ∀ digits ∈ numerals ts, Text.decimalValue digits ≤ maxInteger := by
    intro digits member
    obtain ⟨t, here, same⟩ := List.mem_filterMap.mp member
    obtain ⟨kind, same⟩ := Option.ite_none_right_eq_some.mp same
    cases same
    exact (proper t here).int kind
  refine ⟨?_, fun n member => ?_, found⟩
  · rw [integersOf, List.map_map]
    exact List.map_congr_left fun digits member => toInt_ofNat_decimalValue (small digits member)
  · obtain ⟨digits, here, rfl⟩ := List.mem_map.mp member
    have bound := small digits here
    rw [toInt_ofNat_decimalValue bound]
    unfold maxInteger at bound
    omega

namespace Parser

variable {p : Token → Prop}

/-- All tokens of the state have the property, the current one and those to come. -/
structure State.All (p : Token → Prop) (s : State) : Prop where
  current : p s.current
  pending : ∀ t, .ok t ∈ s.ahead.pending → p t
  last : ∀ t, s.ahead.last = .ok t → p t

/-- What comes next has the property, and so has all that follows. -/
theorem State.All.next {s : State} (all : s.All p) {r : ScanResult} {ahead : TokenStream}
    (next : s.ahead.next = (r, ahead)) :
    (∀ t, r = .ok t → p t) ∧ (∀ t, .ok t ∈ ahead.pending → p t) ∧
      ∀ t, ahead.last = .ok t → p t := by
  unfold TokenStream.next at next
  split at next
  · cases next
    exact ⟨all.last, all.pending, all.last⟩
  · rename_i result pending whole
    cases next
    refine ⟨fun t same => all.pending t ?_, fun t member => all.pending t ?_, all.last⟩
    · rw [whole, same]
      exact List.mem_cons_self
    · rw [whole]
      exact List.mem_cons_of_mem _ member

theorem stable_all (p : Token → Prop) : Stable (State.All p) fun _ => True where
  scope _ _ all := ⟨all.current, all.pending, all.last⟩
  advance s all := by
    unfold advance
    split <;> rename_i next <;> obtain ⟨first, pending, last⟩ := all.next next
    · exact ⟨first _ rfl, pending, last⟩
    · exact ⟨⟨all.current, pending, last⟩, trivial⟩
  peek s all := by
    unfold peek
    split <;> rename_i next <;> obtain ⟨first, pending, last⟩ := all.next next
    · exact all
    · exact ⟨⟨all.current, pending, last⟩, trivial⟩
  integer _ _ _ _ := trivial
  unexpected _ _ := trivial
  notBinary _ _ := trivial
  duplicate _ _ _ := trivial

theorem Reads.all {c c' : Cursor} {ts : List Token} (reads : Reads c ts c')
    {scope : Table FieldType} (all : (c.state scope).All p) : ∀ t ∈ ts, p t := by
  induction reads with
  | nil => nofun
  | cons _ next _ ih =>
    obtain ⟨first, pending, last⟩ := all.next next
    refine List.forall_mem_cons.mpr ⟨all.current, ih ⟨first _ rfl, pending, last⟩⟩

/-- Every integer that a parser may come to stands in the text. -/
theorem all_of_start {text : String} {s : State} (started : start text = .ok s) :
    s.All fun t => t.kind = .int → t.StandsIn text.toList := by
  have pending (t : Token) (member : .ok t ∈ (TokenStream.ofString text).pending)
      (kind : t.kind = .int) : t.StandsIn text.toList :=
    Scanner.standsIn_of_mem_results (List.mem_filter.mp member).1 kind []
      (Scanner.behind_ofString text)
  have last (t : Token) (same : (TokenStream.ofString text).last = .ok t) (kind : t.kind = .int) :
      t.StandsIn text.toList := by
    rw [Scanner.results_last same] at kind
    cases kind
  unfold start at started
  split at started
  · rename_i t ahead first
    cases started
    -- The state before the first token serves to look at what comes next.
    have all : State.All (fun t => t.kind = .int → t.StandsIn text.toList)
        ⟨⟨⟨.endOfInput, ""⟩, .start⟩, .ofString text, .empty⟩ := ⟨nofun, pending, last⟩
    obtain ⟨here, pending', last'⟩ := all.next first
    exact ⟨here t rfl, pending', last'⟩
  · cases started

/-- The error that a parser ends with, if it fails. -/
def error? {α : Type} (p : Parser α) (s : State) : Option ParseError :=
  match p s with
  | .ok _ _ => none
  | .error e _ => some e

def Call.error? : Call → State → Option ParseError
  | document => Parser.error? Parser.document
  | expression => Parser.error? Parser.expression
  | endOfInput => Parser.error? Parser.endOfInput

/-- What no step raises, no call raises. -/
theorem Call.raised {holds : State → Prop} {raised : ParseError → Prop}
    (stable : Stable holds raised) {s : State} (h : holds s) {call : Call} {e : ParseError}
    (fails : call.error? s = some e) : raised e := by
  have step {α : Type} {p : Parser α} (keeps : Keeps p) (fails : Parser.error? p s = some e) :
      raised e := by
    have ends := keeps stable s h
    unfold Parser.error? at fails
    split at fails
    · cases fails
    · rename_i result
      rw [result] at ends
      cases fails
      exact ends.2
  cases call with
  | document => exact step keeps_document fails
  | expression => exact step keeps_expression fails
  | endOfInput => exact step keeps_endOfInput fails

end Parser

/-! ## Sessions -/

/-- Each declaration holds the integers of its own tokens. -/
theorem Grammar.exists_writtenBy {text : String} {ts : List Token} {ws : List Written.Declaration}
    (h : Declarations ts ws) (proper : ∀ t ∈ ts, t.Proper)
    (found : ∀ t ∈ ts, t.kind = .int → t.StandsIn text.toList) :
    ∃ tss : List (List Token), ts = tss.flatten ∧
      List.Forall₂ (fun us (d : Declaration) => WrittenBy text us d.integers) tss
        (ws.map Written.Declaration.tree) := by
  induction h with
  | nil => exact ⟨[], rfl, .nil⟩
  | @cons ts us w ws first _ ih =>
    simp only [List.forall_mem_append] at proper found
    obtain ⟨tss, rfl, rest⟩ := ih proper.2 found.2
    refine ⟨ts :: tss, rfl, .cons ?_ rest⟩
    rw [integers_of_declares first]
    exact writtenBy_integersOf proper.1 found.1

namespace Parser

/-- Integers are exact, and never fail late. A scanner that comes to digits gives them as an integer
if their value is at most `2 ^ 63 - 1`, and else an error where they start; with a point and more
digits they are given as they are written. No call of a parser refuses the value of an integer, and
what a call gives holds the values of the digits that it has read. -/
theorem integers_exact (text : String) :
    (∀ n before digits rest, DigitsAt text n before digits rest →
      ((∀ d later, rest = '.' :: d :: later → d.isDigit = false) →
        (Scanner.ofString text).call n = Scanner.integerAt digits (.behind before)) ∧
      ∀ part later, rest = '.' :: (part ++ later) → Digits part →
        (∀ c ∈ later.head?, c.isDigit = false) → (Scanner.ofString text).call n =
          .ok ⟨⟨.float, .ofList (digits ++ '.' :: part)⟩, .behind before⟩) ∧
    (∀ digits position, start text ≠ .error (.integer digits position)) ∧
    ∀ s calls, start text = .ok s →
      (∀ (call : Call) digits position,
        call.error? (afterCalls calls s) ≠ some (.integer digits position)) ∧
      (∀ e s', expression (afterCalls calls s) = .ok e s' →
        ∃ (c c' : Cursor) (scope : Table FieldType) (ts : List Token),
          afterCalls calls s = c.state scope ∧ s' = c'.state scope ∧ Reads c ts c' ∧
          WrittenBy text ts e.integers) ∧
      ∀ d s', document (afterCalls calls s) = .ok d s' →
        ∃ (c c' : Cursor) (scope : Table FieldType) (tss : List (List Token))
          (ds : List Declaration),
          afterCalls calls s = c.state scope ∧ Reads c tss.flatten c' ∧
          c'.current.kind = .endOfInput ∧ d.declarations.Perm ds ∧
          List.Forall₂ (fun ts d => WrittenBy text ts d.integers) tss ds := by
  refine ⟨fun n before digits rest here => ⟨here.call_integer, fun part later => here.call_fraction⟩,
    fun digits position failed => ?_, fun s calls started => ?_⟩
  · unfold start at failed
    split at failed <;> cases failed
  have placed := afterCalls_placed calls (placed_of_start started)
  have all := afterCalls_keeps calls (stable_all _) (all_of_start started)
  refine ⟨fun call digits position fails => ?_, fun e s' parsed => ?_, fun d s' parsed => ?_⟩
  · exact Call.raised stable_placed placed fails digits position rfl
  · obtain ⟨c, scope, same⟩ := placed.exists_cursor
    rw [same] at parsed all
    obtain ⟨ts, c', _, reads, ⟨raw, phrase, rfl, rfl⟩, rfl⟩ := expression_sound parsed
    refine ⟨c, c', scope, ts, same, rfl, reads, ?_⟩
    rw [Expr.integers_resolve, Grammar.integers_of_expression phrase]
    exact writtenBy_integersOf reads.proper (reads.all all)
  · obtain ⟨c, scope, same⟩ := placed.exists_cursor
    rw [same] at parsed all
    obtain ⟨ts, c', ws, reads, ends, declares, distinct, rfl⟩ := yields_document.mp ⟨s', parsed⟩
    obtain ⟨tss, rfl, exact⟩ := Grammar.exists_writtenBy declares reads.proper (reads.all all)
    refine ⟨c, c', scope, tss, _, same, reads, ends, ?_, exact⟩
    rw [Written.declarations_document distinct]
    exact (Written.byKind_perm ws).map _

/-- The greatest integer, one that is written with zeros, and one too many. -/
theorem integers_exact_limit :
    (Scanner.ofString "f(9223372036854775807, 007); 9223372036854775808").call 7 =
      .error ⟨.outOfRange "9223372036854775808", ⟨1, 30⟩⟩ ∧
    ∃ s e s', start "f(9223372036854775807, 007); 9223372036854775808" = .ok s ∧
      expression s = .ok e s' ∧ e.integers = [9223372036854775807, 7] ∧
      ∃ (c c' : Cursor) (scope : Table FieldType) (ts : List Token),
        s = c.state scope ∧ s' = c'.state scope ∧ Reads c ts c' ∧
        WrittenBy "f(9223372036854775807, 007); 9223372036854775808" ts e.integers := by
  obtain ⟨scan, _, session⟩ := integers_exact "f(9223372036854775807, 007); 9223372036854775808"
  have here : DigitsAt "f(9223372036854775807, 007); 9223372036854775808" 7
      "f(9223372036854775807, 007); ".toList "9223372036854775808".toList [] :=
    ⟨by simp, ⟨[' '], by decide +kernel, List.forall_mem_singleton.mpr (by decide)⟩,
      ⟨by simp, by simp⟩, nofun⟩
  have answer : (start "f(9223372036854775807, 007); 9223372036854775808").toOption.bind
      (fun s => match expression s with
        | .ok e _ => some e.integers
        | .error _ _ => none) = some [9223372036854775807, 7] := by
    decide +kernel
  refine ⟨((scan _ _ _ _ here).1 nofun).trans (by decide), ?_⟩
  cases started : start "f(9223372036854775807, 007); 9223372036854775808" with
  | error e =>
    rw [started] at answer
    cases answer
  | ok s =>
    rw [started] at answer
    cases parsed : expression s with
    | error e s' =>
      simp [parsed, Except.toOption] at answer
    | ok e s' =>
      refine ⟨s, e, s', rfl, parsed, ?_, (session s [] started).2.1 e s' parsed⟩
      simpa [parsed, Except.toOption] using answer

end Parser

end Rulebook
