import Rulebook.Proofs.Document.RoundTrip
import Rulebook.Proofs.Parser.Layout
import Rulebook.Proofs.Token.Seam

/-!
# A text put after another

A text and another one on the lines after it declare what the two declare, one after the other, if no
name is declared by both. Otherwise the second declaration of such a name is refused.

The tokens of the second text are those that it has alone, moved on, so it means what it means alone.
Nothing of the first text is in scope for it, because every rule and every test clears the scope.
-/

namespace Rulebook

open Rulebook.Parser

/-! ## Names -/

namespace Document

/-- The names that a document declares, for one kind of declarations. -/
def namesOf (d : Document) : Declared → List String
  | .object => d.objects.keys
  | .relation => d.relations.keys
  | .rule => d.rules.keys
  | .test => d.testNames
  | .field | .parameter | .instantiation | .predicate => []

/-- No name is declared by both with declarations of one kind. -/
def Apart (d e : Document) : Prop := ∀ kind, ∀ name ∈ d.namesOf kind, name ∉ e.namesOf kind

/-- The declarations of `d`, kind by kind, and after them those of `e`. -/
structure Appends (whole d e : Document) : Prop where
  objects : whole.objects.entries = d.objects.entries ++ e.objects.entries
  relations : whole.relations.entries = d.relations.entries ++ e.relations.entries
  rules : whole.rules.entries = d.rules.entries ++ e.rules.entries
  tests : whole.tests = d.tests ++ e.tests

theorem mem_namesOf_add {d : Document} {e : Declaration} {kind : Declared} {name : String} :
    name ∈ (d.add e).namesOf kind ↔ (kind, name) = signature e ∨ name ∈ d.namesOf kind := by
  have written {α : Type} (t : Table α) (x : String) (v : α) :
      name ∈ (t.insert x v).keys ↔ name = x ∨ name ∈ t.keys := by
    rw [Table.keys_insert]
    split
    · rename_i known
      exact ⟨.inr, fun h => h.elim (fun same => same ▸ known) id⟩
    · rw [List.mem_append, List.mem_singleton, or_comm]
  cases e <;> cases kind <;>
    simp [namesOf, add, signature, Declaration.kind, Declaration.name, written, testNames, or_comm]

end Document

namespace Written

variable {ws vs : List Declaration}

/-- The names of a document are those of the declarations that it is made from. -/
theorem mem_namesOf_document {kind : Declared} {name : String} :
    name ∈ (document ws).namesOf kind ↔ (kind, name) ∈ ws.map (signature ·.tree) := by
  have fold (d : Document) : name ∈ (ws.foldl (fun d w => d.add w.tree) d).namesOf kind ↔
      (kind, name) ∈ ws.map (signature ·.tree) ∨ name ∈ d.namesOf kind := by
    induction ws generalizing d with
    | nil => simp
    | cons w ws ih =>
      rw [List.foldl_cons, ih, Document.mem_namesOf_add, List.map_cons, List.mem_cons]
      rw [or_left_comm, or_assoc]
  have none : ¬ name ∈ ({} : Document).namesOf kind := by
    cases kind <;> simp [Document.namesOf, Document.testNames]
  rw [← foldl_add_empty, fold, or_iff_left none]

theorem Distinct.append (first : Distinct ws) (second : Distinct vs)
    (apart : (document ws).Apart (document vs)) : Distinct (ws ++ vs) := by
  constructor
  · rw [List.map_append, List.nodup_append]
    refine ⟨first.names, second.names, fun key here key' there same => ?_⟩
    subst same
    exact apart key.1 key.2 (mem_namesOf_document.mpr here) (mem_namesOf_document.mpr there)
  · exact List.forall_mem_append.mpr ⟨first.inner, second.inner⟩

/-- What declarations mean is put together in their order. -/
theorem document_append (first : Distinct ws) (second : Distinct vs) (whole : Distinct (ws ++ vs)) :
    (document (ws ++ vs)).Appends (document ws) (document vs) := by
  have entries {β : Type} {f : Declaration → Option (String × β)} {own : Declared}
      (named : ∀ w, (f w).map Prod.fst = if w.tree.kind = own then some w.tree.name else none) :
      (Table.ofList ((ws ++ vs).filterMap f)).entries =
        (Table.ofList (ws.filterMap f)).entries ++ (Table.ofList (vs.filterMap f)).entries := by
    rw [Table.entries_ofList (nodup_keys_filterMap whole named),
      Table.entries_ofList (nodup_keys_filterMap first named),
      Table.entries_ofList (nodup_keys_filterMap second named), List.filterMap_append]
  exact {
    objects := @entries _ Declaration.object? .object fun w => by cases w <;> rfl
    relations := @entries _ Declaration.relation? .relation fun w => by cases w <;> rfl
    rules := @entries _ Declaration.rule? .rule fun w => by cases w <;> rfl
    tests := List.filterMap_append }

end Written

/-! ## A name that is taken -/

namespace Parser

open Grammar

variable {α β : Type} {c c' : Cursor} {scope : Table FieldType} {ts : List Token}

/-- The parser fails with this error. -/
def Fails (p : Parser α) (s : State) (e : ParseError) : Prop := ∃ s', p s = .error e s'

theorem fails_bind {p : Parser α} {f : α → Parser β} {s s' : State} {a : α} {e : ParseError}
    (first : Yields p s a s') (second : Fails (f a) s' e) : Fails (p >>= f) s e := by
  obtain ⟨s'', second⟩ := second
  refine ⟨s'', ?_⟩
  have first : p s = .ok a s' := first
  change EStateM.bind p f s = .error e s''
  unfold EStateM.bind
  rw [first]
  exact second

/-- A step that refuses what comes before it, or goes on and fails later. -/
theorem fails_unless {refused : Prop} [Decidable refused] {e e' : ParseError}
    {next : Unit → Parser α} {s : State}
    (h : refused ∧ e' = e ∨ ¬ refused ∧ Fails (next ()) s e') :
    Fails (if refused then throw e >>= next else next ()) s e' := by
  rcases h with ⟨holds, rfl⟩ | ⟨holds, fails⟩
  · rw [if_pos holds]
    exact ⟨s, rfl⟩
  · rw [if_neg holds]
    exact fails

/-- If the names are not distinct, the first declaration whose name is taken is refused. -/
theorem declarationsFrom_fails {steps : Nat} {document : Document}
    {ws : List Written.Declaration} (h : Declarations ts ws) (reads : Reads c ts c')
    (distinct : ∀ w ∈ ws, w.Distinct) (clash : ¬ ∃ result, AddAll document ws result)
    (enough : ts.length < steps) :
    ∃ before w later position, ws = before ++ w :: later ∧
      (document.declares w.tree = true ∨ signature w.tree ∈ before.map (signature ·.tree)) ∧
      Fails (declarationsFrom steps document) (c.state scope)
        (.duplicate w.tree.kind w.tree.name position) := by
  induction h generalizing c scope document steps with
  | nil => exact absurd ⟨document, rfl⟩ clash
  | @cons ts us w ws hw rest ih =>
    cases steps with
    | zero => simp at enough
    | succ steps =>
      obtain ⟨c₁, readsTs, readsUs⟩ := Reads.append_iff.mp reads
      have one := List.length_pos_iff.mpr (declares_ne_nil hw)
      rw [List.length_append] at enough
      have starts := readsTs.not_ends (declares_ne_nil hw)
      have here : Yields declaration (c.state scope) w.tree (c₁.state (scopeAfter scope w)) :=
        yields_declaration.mpr ⟨ts, c₁, w, readsTs, hw, distinct w List.mem_cons_self, rfl, rfl⟩
      -- The step either refuses this declaration or goes on with it taken up.
      have step {e : ParseError} (next :
          document.declares w.tree = true ∧
            e = .duplicate w.tree.kind w.tree.name c.current.position ∨
          ¬ document.declares w.tree = true ∧
            Fails (declarationsFrom steps (document.add w.tree)) (c₁.state (scopeAfter scope w)) e) :
          Fails (declarationsFrom (steps + 1) document) (c.state scope) e := by
        have current : Yields current (c.state scope) c.current (c.state scope) := rfl
        refine fails_bind current ?_
        rw [if_neg starts]
        exact fails_bind here (fails_unless next)
      by_cases taken : document.declares w.tree = true
      · exact ⟨[], w, ws, c.current.position, rfl, .inl taken, step (.inl ⟨taken, rfl⟩)⟩
      · have clash' : ¬ ∃ result, AddAll (document.add w.tree) ws result :=
          fun ⟨result, added⟩ => clash ⟨result, taken, added⟩
        obtain ⟨before, v, later, position, rfl, known, fails⟩ := @ih c₁ (scopeAfter scope w) steps
          _ readsUs (fun v member => distinct v (List.mem_cons_of_mem _ member)) clash' (by omega)
        refine ⟨w :: before, v, later, position, rfl, ?_, step (.inr ⟨taken, fails⟩)⟩
        rw [declares_add] at known
        rw [List.map_cons, List.mem_cons]
        rcases known with (same | known) | known
        · exact .inr (.inl same)
        · exact .inl known
        · exact .inr (.inr known)

/-- Declarations whose names are not distinct are no document. -/
theorem document_fails {ws : List Written.Declaration} (h : Declarations ts ws)
    (reads : Reads c ts c') (distinct : ∀ w ∈ ws, w.Distinct)
    (clash : ¬ (ws.map (signature ·.tree)).Nodup) :
    ∃ before w later position, ws = before ++ w :: later ∧
      signature w.tree ∈ before.map (signature ·.tree) ∧
      Fails document (c.state scope) (.duplicate w.tree.kind w.tree.name position) := by
  have short := reads.length_le_size
  have bound := c.size_lt_bound scope
  have none : ¬ ∃ result, AddAll {} ws result := fun ⟨_, added⟩ => clash (addAll_iff.mp added).2.1
  obtain ⟨before, w, later, position, whole, known, fails⟩ := @declarationsFrom_fails c c' scope ts
    (c.state scope).bound {} ws h reads distinct none (by omega)
  refine ⟨before, w, later, position, whole, known.resolve_left ?_, fails⟩
  cases w <;> simp [Document.declares, Written.Declaration.tree, Table.contains]

end Parser

/-! ## Two texts -/

theorem Grammar.Declarations.append {ts us : List Token} {ws vs : List Written.Declaration}
    (first : Grammar.Declarations ts ws) (second : Grammar.Declarations us vs) :
    Grammar.Declarations (ts ++ us) (ws ++ vs) := by
  induction first with
  | nil => exact second
  | cons here _ ih =>
    rw [List.append_assoc]
    exact .cons here ih

theorem map_toLexeme_significant (tokens : List Token) :
    (significant tokens).map Token.toLexeme =
      (tokens.map Token.toLexeme).filter (·.kind != .comment) := by
  rw [List.filter_map]
  rfl

/-- What a stream of tokens shows. -/
theorem TokenStream.map_said_outline {s : Scanner} {tokens : List Token} {last : Token}
    (scanned : s.results = (tokens.map .ok, .ok last)) :
    (ofScanner s).pending = (significant tokens).map .ok ∧
    (ofScanner s).outline.map ScanResult.said =
      (((tokens.map Token.toLexeme).filter (·.kind != .comment)) ++ [last.toLexeme]).map .ok := by
  have pending : (ofScanner s).pending = (significant tokens).map .ok := by
    unfold ofScanner
    rw [scanned]
    exact filter_significant_iff.mpr ⟨tokens, rfl, rfl⟩
  have ends : (ofScanner s).last = .ok last := by
    unfold ofScanner
    rw [scanned]
  refine ⟨pending, ?_⟩
  have whole : (ofScanner s).outline = (significant tokens ++ [last]).map .ok := by
    rw [outline, pending, ends, ← ScanResult.upToError_map_ok (significant tokens ++ [last]),
      List.map_append]
    rfl
  rw [whole, ← map_toLexeme_significant, List.map_map, List.map_append, List.map_append,
    List.map_map]
  rfl

/-- A text that has a document means the same at any position. -/
theorem declarations_moved {text : String} {d : Document} (parsed : Compiler.parse text = .ok d)
    (p : Position) :
    ∃ (tokens : List Token) (last : Token) (ws : List Written.Declaration),
      Scanner.results ⟨text.toList, p⟩ = (tokens.map .ok, .ok last) ∧
      Grammar.Declarations (significant tokens) ws ∧ Written.Distinct ws ∧
      d = Written.document ws := by
  obtain ⟨tokens, _, ⟨last, scanned⟩, _⟩ := parse_ok_iff.mp parsed
  obtain ⟨moved, last', scanned', lexemes, ends⟩ := Scanner.results_moved scanned p
  refine ⟨moved, last', ?_⟩
  let here := TokenStream.ofString text
  let there := TokenStream.ofScanner ⟨text.toList, p⟩
  have proper : there.Proper := TokenStream.ofScanner_proper _
  obtain ⟨pending, shown⟩ := TokenStream.map_said_outline scanned'
  have same : there.outline.map ScanResult.said = here.outline.map ScanResult.said := by
    rw [lexemes, ends] at shown
    exact shown.trans (TokenStream.map_said_outline scanned).2.symm
  have alone : runFrom document here = .ok d := by
    rw [← runOn_eq_runFrom]
    exact parse_eq_ok_iff.mp parsed
  have run := (runFrom_same proper same fun _ => agree_document).eq_ok alone
  obtain ⟨c, starts, yields⟩ := (runFrom_ok_iff proper).mp run
  obtain ⟨ts, c', ws, reads, atEnd, hws, distinct, tree⟩ := yields_document.mp yields
  have whole := ((starts.reads_all proper).mp ⟨c', reads, atEnd⟩).1
  have tokens_eq : significant moved = ts :=
    (List.map_inj_right fun _ _ => Except.ok.inj).mp (pending.symm.trans whole)
  exact ⟨ws, scanned', tokens_eq ▸ hws, distinct, tree⟩

/-- Of lists without repetitions, both hold what comes twice in the two together. -/
theorem mem_both_of_twice {α : Type} [DecidableEq α] {as bs before later : List α} {x : α}
    (whole : as ++ bs = before ++ x :: later) (again : x ∈ before) (first : as.Nodup)
    (second : bs.Nodup) : x ∈ as ∧ x ∈ bs := by
  have twice : 2 ≤ (as ++ bs).count x := by
    have once := List.count_pos_iff.mpr again
    rw [whole, List.count_append, List.count_cons_self]
    omega
  have first := List.nodup_iff_count_le_one.mp first x
  have second := List.nodup_iff_count_le_one.mp second x
  rw [List.count_append] at twice
  exact ⟨List.count_pos_iff.mp (by omega), List.count_pos_iff.mp (by omega)⟩

/-- Two lists of declarations that are right each by itself, but not together. -/
theorem runOn_fails {text : String} {tokens : List Token} {ws vs : List Written.Declaration}
    (scans : Scans text tokens) (written : Grammar.Declarations (significant tokens) (ws ++ vs))
    (first : Written.Distinct ws) (second : Written.Distinct vs)
    (clash : ¬ (Written.document ws).Apart (Written.document vs)) :
    ∃ kind name position, name ∈ (Written.document ws).namesOf kind ∧
      name ∈ (Written.document vs).namesOf kind ∧
      document.runOn text = .error (.duplicate kind name position) := by
  have proper := TokenStream.ofString_proper text
  have whole := scans_iff.mp ⟨tokens, scans, rfl⟩
  obtain ⟨c, starts⟩ := Cursor.exists_starts_of_ok proper whole.1 whole.2
  obtain ⟨c', reads, _⟩ := (starts.reads_all proper).mpr whole
  have repeated : ¬ ((ws ++ vs).map (signature ·.tree)).Nodup := by
    intro names
    rw [List.map_append, List.nodup_append] at names
    refine clash fun kind name here there => ?_
    exact names.2.2 _ (Written.mem_namesOf_document.mp here) _
      (Written.mem_namesOf_document.mp there) rfl
  obtain ⟨before, w, later, position, split, again, s', fails⟩ := @document_fails c c' .empty _ _
    written reads (List.forall_mem_append.mpr ⟨first.inner, second.inner⟩) repeated
  have signatures := congrArg (List.map (signature ·.tree)) split
  rw [List.map_append, List.map_append, List.map_cons] at signatures
  obtain ⟨here, there⟩ := mem_both_of_twice signatures again first.names second.names
  refine ⟨w.tree.kind, w.tree.name, position, Written.mem_namesOf_document.mpr here,
    Written.mem_namesOf_document.mpr there, ?_⟩
  have starts : (TokenStream.ofString text).next = (.ok c.current, c.ahead) := starts
  have fails : document ⟨c.current, c.ahead, .empty⟩ = .error _ s' := fails
  rw [runOn_eq_runFrom, runFrom, starts]
  simp only [fails]

/-- A text and another one after it declare what both declare, in order, unless a name is declared by
both: then the second declaration of such a name is refused. -/
theorem parse_append {first second : String} {d e : Document}
    (parsed : Compiler.parse first = .ok d) (parsed' : Compiler.parse second = .ok e) :
    (d.Apart e → ∃ whole, Compiler.parse (first ++ "\n" ++ second) = .ok whole ∧
      whole.Appends d e) ∧
    (¬ d.Apart e → ∃ kind name, name ∈ d.namesOf kind ∧ name ∈ e.namesOf kind ∧
      Compiler.parse (first ++ "\n" ++ second) = .error (.semantic (.duplicate kind name))) := by
  obtain ⟨tokens, ws, ⟨last, scanned⟩, hws, distinct, rfl⟩ := parse_ok_iff.mp parsed
  obtain ⟨p, joined⟩ := Scanner.results_lineFeed scanned second.toList
  obtain ⟨tokens', last', vs, scanned', hvs, distinct', rfl⟩ := declarations_moved parsed' p
  have scans : Scans (first ++ "\n" ++ second) (tokens ++ tokens') := by
    refine ⟨last', ?_⟩
    rw [scanned'] at joined
    rw [List.map_append, ← joined]
    simp [Scanner.ofString]
  have written : Grammar.Declarations (significant (tokens ++ tokens')) (ws ++ vs) := by
    rw [significant, List.filter_append]
    exact hws.append hvs
  constructor
  · intro apart
    have whole := distinct.append distinct' apart
    exact ⟨_, parse_ok_iff.mpr ⟨_, _, scans, written, whole, rfl⟩,
      Written.document_append distinct distinct' whole⟩
  · intro shared
    obtain ⟨kind, name, position, here, there, refused⟩ :=
      runOn_fails scans written distinct distinct' shared
    refine ⟨kind, name, here, there, ?_⟩
    change (document.runOn _).mapError _ = _
    rw [refused]
    rfl

/-- A comment at the end of the first text ends there. A text put after itself is refused. -/
theorem parse_append_comment :
    (∃ d e whole, Compiler.parse "object a { x : int } # a" = .ok d ∧
      Compiler.parse "rule a { input { } rules { } }" = .ok e ∧
      Compiler.parse ("object a { x : int } # a" ++ "\n" ++ "rule a { input { } rules { } }") =
        .ok whole ∧ whole.Appends d e) ∧
    ∃ kind name, Compiler.parse ("object a { x : int } # a" ++ "\n" ++
      "object a { x : int } # a") = .error (.semantic (.duplicate kind name)) := by
  let names (d : Document) := (d.objects.keys, d.relations.keys, d.rules.keys, d.testNames)
  obtain ⟨d, parsed, ofD⟩ : ∃ d, Compiler.parse "object a { x : int } # a" = .ok d ∧
      names d = (["a"], [], [], []) := exists_ok_of_map (by decide +kernel)
  obtain ⟨e, parsed', ofE⟩ : ∃ e, Compiler.parse "rule a { input { } rules { } }" = .ok e ∧
      names e = ([], [], ["a"], []) := exists_ok_of_map (by decide +kernel)
  simp only [names, Prod.mk.injEq] at ofD ofE
  have apart : d.Apart e := by
    intro kind
    cases kind <;> simp [Document.namesOf, ofD, ofE]
  have shared : ¬ d.Apart d := by
    intro apart
    have object : "a" ∈ d.namesOf .object := by simp [Document.namesOf, ofD]
    exact apart .object "a" object object
  obtain ⟨whole, joined, appends⟩ := (parse_append parsed parsed').1 apart
  obtain ⟨kind, name, _, _, refused⟩ := (parse_append parsed parsed).2 shared
  exact ⟨⟨d, e, whole, parsed, parsed', joined, appends⟩, kind, name, refused⟩

end Rulebook
