import Rulebook.Parser.Document
import Rulebook.Proofs.Parser.List

/-!
# Declarations are parsed by their grammar

Each parser of `Rulebook.Parser.Document` reads exactly the phrases of its kind whose names are
distinct, and gives their trees. A name that is declared twice is found by looking at the items
before or at the scope; over a whole list this says that all names are distinct
(`actAll_distinctly`, `actAll_params`, `actAll_facts`).
-/

namespace Rulebook.Parser

open Grammar

variable {α β : Type} {c c' : Cursor} {scope scope' : Table FieldType} {s s' : State}
variable {ts : List Token}

/-! ## Steps that refuse or register a name -/

/-- A step that refuses something goes on exactly if there is nothing to refuse. -/
theorem yields_unless {refused : Prop} [Decidable refused] {e : ParseError} {next : Unit → Parser α}
    {a : α} :
    Yields (if refused then throw e >>= next else next ()) s a s' ↔
      ¬ refused ∧ Yields (next ()) s a s' := by
  by_cases h : refused
  · simp only [h, if_true, not_true_eq_false, false_and, iff_false, yields_bind]
    intro h
    rcases h with ⟨_, _, thrown, _⟩
    exact not_yields_throw thrown
  · simp [h]

theorem yields_declare {x : String} {type : FieldType} {taken : Bool} :
    Yields (declare x type) (c.state scope) taken s' ↔
      taken = scope.contains x ∧ s' = c.state (scope.insert x type) := by
  change EStateM.Result.ok (scope.contains x) (c.state (scope.insert x type)) = .ok taken s' ↔ _
  simp [eq_comm]

theorem yields_clearScope {u : Unit} :
    Yields clearScope (c.state scope) u s' ↔ s' = c.state .empty := by
  change EStateM.Result.ok () (c.state .empty) = .ok u s' ↔ _
  simp [eq_comm]

/-! ## Items with distinct names -/

/-- An item whose key no item before it has. -/
def distinctly (key : β → String) (keyOf : α → String) (make : Table FieldType → β → α) :
    Action α β :=
  fun before scope b a scope' => key b ∉ before.map keyOf ∧ a = make scope b ∧ scope = scope'

/-- Items with distinct keys, taken one after the other, are items whose keys are all distinct. -/
theorem actAll_distinctly_from {key : β → String} {keyOf : α → String}
    {make : Table FieldType → β → α}
    (keeps : ∀ scope b, keyOf (make scope b) = key b) {before as : List α} {bs : List β}
    (distinct : (before.map keyOf).Nodup) :
    ActAll (distinctly key keyOf make) before scope bs as scope' ↔
      as = before ++ bs.map (make scope) ∧ scope' = scope ∧
        (before.map keyOf ++ bs.map key).Nodup := by
  induction bs generalizing before with
  | nil => simp [ActAll, distinct]
  | cons b bs ih =>
    have step : (before ++ [make scope b]).map keyOf = before.map keyOf ++ [key b] := by
      simp [keeps]
    simp only [ActAll, distinctly]
    constructor
    · intro h
      rcases h with ⟨_, _, ⟨new, rfl, rfl⟩, rest⟩
      have distinct' : ((before ++ [make scope b]).map keyOf).Nodup := by
        rw [step, List.nodup_append]
        exact ⟨distinct, by simp, fun x hx y hy same => new (by simp_all)⟩
      have whole := (ih distinct').mp rest
      rw [step] at whole
      simpa using whole
    · intro h
      rcases h with ⟨rfl, rfl, nodup⟩
      rw [List.map_cons] at nodup
      have new : key b ∉ before.map keyOf := fun hb =>
        (List.nodup_append.mp nodup).2.2 _ hb _ (by simp) rfl
      refine ⟨_, _, ⟨new, rfl, rfl⟩, (ih ?_).mpr ⟨by simp, rfl, ?_⟩⟩
      · rw [step]
        exact (List.nodup_append.mp (by simpa using nodup : (before.map keyOf ++ [key b] ++
          bs.map key).Nodup)).1
      · rw [step]
        simpa using nodup

theorem actAll_distinctly {key : β → String} {keyOf : α → String} {make : Table FieldType → β → α}
    (keeps : ∀ scope b, keyOf (make scope b) = key b) {as : List α} {bs : List β} :
    ActAll (distinctly key keyOf make) [] scope bs as scope' ↔
      as = bs.map (make scope) ∧ scope' = scope ∧ (bs.map key).Nodup := by
  rw [actAll_distinctly_from keeps (by simp)]
  simp

/-- Items that are always taken. -/
def plainly (make : Table FieldType → β → α) : Action α β :=
  fun _ scope b a scope' => a = make scope b ∧ scope = scope'

theorem actAll_plainly {make : Table FieldType → β → α} {before as : List α} {bs : List β} :
    ActAll (plainly make) before scope bs as scope' ↔
      as = before ++ bs.map (make scope) ∧ scope' = scope := by
  induction bs generalizing before with
  | nil => simp [ActAll]
  | cons b bs ih =>
    simp only [ActAll, plainly]
    constructor
    · intro h
      rcases h with ⟨_, _, ⟨rfl, rfl⟩, rest⟩
      simpa using ih.mp rest
    · intro h
      rcases h with ⟨rfl, rfl⟩
      exact ⟨_, _, ⟨rfl, rfl⟩, ih.mpr ⟨by simp, rfl⟩⟩

/-! ## Fields -/

theorem yields_field {f : Field} :
    Yields field (c.state scope) f s' ↔
      ∃ ts c', Reads c ts c' ∧ Typed ts f ∧ s' = c'.state scope := by
  unfold field
  simp only [yields_bind, yields_pure]
  constructor
  · intro h
    rcases h with ⟨x, s₁, hx, colon, s₂, hcolon, y, s₃, hy, rfl, rfl⟩
    obtain ⟨t, c₁, readsT, kindT, rfl, rfl⟩ := yields_identifier.mp hx
    obtain ⟨c₂, readsColon, kindColon, rfl⟩ := (yields_expect (by simp)).mp hcolon
    obtain ⟨u, c₃, readsU, kindU, rfl, rfl⟩ := yields_identifier.mp hy
    exact ⟨[t, colon, u], c₃, (readsT.append readsColon).append readsU,
      .mk kindT kindColon kindU, rfl⟩
  · intro h
    rcases h with ⟨_, c₃, reads, ⟨kindT, kindColon, kindU⟩, rfl⟩
    obtain ⟨c₁, readsT, reads⟩ := Reads.cons_iff.mp reads
    obtain ⟨c₂, readsColon, readsU⟩ := Reads.cons_iff.mp reads
    exact ⟨_, _, yields_identifier.mpr ⟨_, c₁, readsT, kindT, rfl, rfl⟩,
      _, _, (yields_expect (by simp)).mpr ⟨c₂, readsColon, kindColon, rfl⟩,
      _, _, yields_identifier.mpr ⟨_, c₃, readsU, kindU, rfl, rfl⟩, rfl, rfl⟩

theorem yields_newField {owner : String} {before : List Field} {f : Field} :
    Yields (newField owner before) (c.state scope) f s' ↔
      f.name ∉ before.map Field.name ∧ Yields field (c.state scope) f s' := by
  unfold newField
  rw [yields_current, yields_bind]
  dsimp only
  simp only [yields_unless, yields_pure]
  constructor
  · intro h
    rcases h with ⟨_, _, h, new, rfl, rfl⟩
    exact ⟨by simpa using new, h⟩
  · intro h
    rcases h with ⟨new, h⟩
    exact ⟨f, _, h, by simpa using new, rfl, rfl⟩

theorem newField_items (owner : String) :
    Items (newField owner) Typed (distinctly Field.name Field.name fun _ f => f) where
  sound before c scope f s' h := by
    obtain ⟨new, h⟩ := yields_newField.mp h
    obtain ⟨ts, c', reads, typed, rfl⟩ := yields_field.mp h
    exact ⟨ts, c', scope, reads, ⟨f, typed, new, rfl, rfl⟩, rfl⟩
  complete before _ c c' scope _ ts f _ reads h _ := by
    rcases h with ⟨_, typed, new, rfl, rfl⟩
    exact yields_newField.mpr ⟨new, yields_field.mpr ⟨ts, c', reads, typed, rfl⟩⟩
  starts := typed_starts

theorem yields_fields {owner : String} {fs : List Field} :
    Yields (fields owner) (c.state scope) fs s' ↔
      ∃ ts c', Reads c ts c' ∧ Braced Typed ts fs ∧ (fs.map Field.name).Nodup ∧
        s' = c'.state scope := by
  unfold fields
  rw [yields_bracedSome (newField_items owner)]
  constructor
  · intro h
    rcases h with ⟨ts, c', bs, _, reads, braced, acts, rfl⟩
    rw [actAll_distinctly (by intros; rfl), List.map_id'] at acts
    rcases acts with ⟨rfl, rfl, distinct⟩
    exact ⟨ts, c', reads, braced, distinct, rfl⟩
  · intro h
    rcases h with ⟨ts, c', reads, braced, distinct, rfl⟩
    refine ⟨ts, c', fs, scope, reads, braced, ?_, rfl⟩
    rw [actAll_distinctly (by intros; rfl), List.map_id']
    exact ⟨rfl, rfl, distinct⟩

/-- The name and the fields of an object or a relation. -/
theorem yields_named_fields {make : String → List Field → α} {a : α} :
    Yields (do let name ← identifier; return make name (← fields name)) (c.state scope) a s' ↔
      ∃ name ts c' fs, Reads c (name :: ts) c' ∧ name.kind = .identifier ∧ Braced Typed ts fs ∧
        (fs.map Field.name).Nodup ∧ a = make name.literal fs ∧ s' = c'.state scope := by
  simp only [yields_bind, yields_pure]
  constructor
  · intro h
    rcases h with ⟨x, s₁, hx, fs, s₂, hfs, rfl, rfl⟩
    obtain ⟨name, c₁, readsName, kind, rfl, rfl⟩ := yields_identifier.mp hx
    obtain ⟨ts, c', reads, braced, distinct, rfl⟩ := yields_fields.mp hfs
    exact ⟨name, ts, c', fs, readsName.append reads, kind, braced, distinct, rfl, rfl⟩
  · intro h
    rcases h with ⟨name, ts, c', fs, reads, kind, braced, distinct, rfl, rfl⟩
    obtain ⟨c₁, readsName, reads⟩ := Reads.cons_iff.mp reads
    exact ⟨_, _, yields_identifier.mpr ⟨name, c₁, readsName, kind, rfl, rfl⟩, fs, _,
      yields_fields.mpr ⟨ts, c', reads, braced, distinct, rfl⟩, rfl, rfl⟩

/-! ## Rules -/

/-- A parameter is refused if its name is in scope, and enters the scope otherwise. -/
def paramAction : Action Term Field := fun _ scope f t scope' =>
  f.name ∉ scope.keys ∧ t = .var f.name f.type ∧ scope' = scope.insert f.name f.type

theorem not_mem_keys_iff {x : String} : x ∉ scope.keys ↔ ¬ scope.contains x = true := by
  rw [Table.contains_iff]

theorem yields_param {t : Term} :
    Yields param (c.state scope) t s' ↔
      ∃ ts c' f, Reads c ts c' ∧ Typed ts f ∧ f.name ∉ scope.keys ∧ t = .var f.name f.type ∧
        s' = c'.state (scope.insert f.name f.type) := by
  unfold param
  rw [yields_current, yields_bind]
  constructor
  · intro h
    rcases h with ⟨f, s₁, hf, h⟩
    obtain ⟨ts, c', reads, typed, rfl⟩ := yields_field.mp hf
    dsimp only at h
    rw [yields_bind] at h
    rcases h with ⟨taken, s₂, declared, h⟩
    obtain ⟨rfl, rfl⟩ := yields_declare.mp declared
    rw [yields_unless, yields_pure] at h
    rcases h with ⟨new, rfl, rfl⟩
    exact ⟨ts, c', f, reads, typed, not_mem_keys_iff.mpr new, rfl, rfl⟩
  · intro h
    rcases h with ⟨ts, c', f, reads, typed, new, rfl, rfl⟩
    refine ⟨f, _, yields_field.mpr ⟨ts, c', reads, typed, rfl⟩, ?_⟩
    dsimp only
    rw [yields_bind]
    refine ⟨_, _, yields_declare.mpr ⟨rfl, rfl⟩, ?_⟩
    rw [yields_unless, yields_pure]
    exact ⟨not_mem_keys_iff.mp new, rfl, rfl⟩

theorem param_items : Items (fun _ => param) Typed paramAction where
  sound before c scope t s' h := by
    obtain ⟨ts, c', f, reads, typed, new, rfl, rfl⟩ := yields_param.mp h
    exact ⟨ts, c', _, reads, ⟨f, typed, new, rfl, rfl⟩, rfl⟩
  complete before _ c c' scope _ ts t _ reads h _ := by
    rcases h with ⟨f, typed, new, rfl, rfl⟩
    exact yields_param.mpr ⟨ts, c', f, reads, typed, new, rfl, rfl⟩
  starts := typed_starts

theorem keys_insert_of_not_mem {x : String} {type : FieldType} (new : x ∉ scope.keys) :
    (scope.insert x type).keys = scope.keys ++ [x] := by
  rw [Table.keys_insert, if_neg new]

theorem nodup_keys (scope : Table FieldType) : scope.keys.Nodup := scope.distinct

/-- Parameters taken one after the other have names that are new and distinct. -/
theorem actAll_params {before ts : List Term} {fs : List Field} :
    ActAll paramAction before scope fs ts scope' ↔
      ts = before ++ fs.map (fun f => .var f.name f.type) ∧
        scope' = (fs.map fun f => (f.name, f.type)).foldl (fun t e => t.insert e.1 e.2) scope ∧
        (scope.keys ++ fs.map Field.name).Nodup := by
  induction fs generalizing before scope with
  | nil => simp [ActAll, nodup_keys]
  | cons f fs ih =>
    simp only [ActAll, paramAction]
    constructor
    · intro h
      rcases h with ⟨_, _, ⟨new, rfl, rfl⟩, rest⟩
      obtain ⟨rfl, rfl, distinct⟩ := ih.mp rest
      rw [keys_insert_of_not_mem new] at distinct
      exact ⟨by simp, rfl, by simpa using distinct⟩
    · intro h
      rcases h with ⟨rfl, rfl, distinct⟩
      rw [List.map_cons] at distinct
      have new : f.name ∉ scope.keys := fun member =>
        (List.nodup_append.mp distinct).2.2 _ member _ (by simp) rfl
      refine ⟨_, _, ⟨new, rfl, rfl⟩, ih.mpr ⟨by simp, rfl, ?_⟩⟩
      rw [keys_insert_of_not_mem new]
      simpa using distinct

theorem expression_items :
    Items (fun _ => expression) Expression (plainly Expr.resolve) :=
  ⟨fun _ => expression_sound, fun _ => expression_complete, expression_starts⟩

/-- The tree of a rule whose parameters are distinct. The scope is empty afterwards. -/
theorem yields_rule {r : Rule} :
    Yields rule (c.state scope) r s' ↔
      ∃ ts c' w, Reads c ts c' ∧ RuleOf ts w ∧ (w.params.map Field.name).Nodup ∧ r = w.tree ∧
        s' = c'.state .empty := by
  unfold rule
  simp only [yields_bind, yields_pure]
  constructor
  · intro h
    rcases h with ⟨_, _, cleared, x, _, hx, l, _, hl, input, _, hinput, params, _, hparams, rules,
      _, hrules, body, _, hbody, r, _, hr, _, _, cleared', rfl, rfl⟩
    obtain rfl := yields_clearScope.mp cleared
    obtain ⟨name, c₁, readsName, kindName, rfl, rfl⟩ := yields_identifier.mp hx
    obtain ⟨c₂, readsL, kindL, rfl⟩ := (yields_expect (by simp)).mp hl
    obtain ⟨c₃, readsInput, kindInput, rfl⟩ := (yields_expect (by simp)).mp hinput
    obtain ⟨ps, c₄, fs, _, readsPs, bracedPs, acts, rfl⟩ :=
      (yields_bracedMany param_items).mp hparams
    obtain ⟨rfl, rfl, distinct⟩ := actAll_params.mp acts
    obtain ⟨c₅, readsRules, kindRules, rfl⟩ := (yields_expect (by simp)).mp hrules
    obtain ⟨bs, c₆, es, _, readsBs, bracedBs, acts, rfl⟩ :=
      (yields_bracedMany expression_items).mp hbody
    obtain ⟨rfl, rfl⟩ := actAll_plainly.mp acts
    obtain ⟨c₇, readsR, kindR, rfl⟩ := (yields_expect (by simp)).mp hr
    obtain rfl := yields_clearScope.mp cleared'
    have reads := ((((((readsName.append readsL).append readsInput).append readsPs).append
      readsRules).append readsBs).append readsR)
    refine ⟨_, c₇, ⟨name.literal, fs, es⟩, reads, ?_, by simpa using distinct, rfl, rfl⟩
    simpa using RuleOf.mk kindName kindL kindInput bracedPs kindRules bracedBs kindR
  · intro h
    rcases h with ⟨_, c₇, _, reads, ⟨kindName, kindL, kindInput, bracedPs, kindRules, bracedBs,
      kindR⟩, distinct, rfl, rfl⟩
    obtain ⟨c₆, reads, readsR⟩ := Reads.append_iff.mp reads
    obtain ⟨c₄, reads, readsBs⟩ := Reads.append_iff.mp reads
    obtain ⟨c₁, readsName, reads⟩ := Reads.cons_iff.mp reads
    obtain ⟨c₂, readsL, reads⟩ := Reads.cons_iff.mp reads
    obtain ⟨c₃, readsInput, readsPs⟩ := Reads.cons_iff.mp reads
    obtain ⟨c₅, readsRules, readsBs⟩ := Reads.cons_iff.mp readsBs
    exact ⟨(), _, yields_clearScope.mpr rfl,
      _, _, yields_identifier.mpr ⟨_, c₁, readsName, kindName, rfl, rfl⟩,
      _, _, (yields_expect (by simp)).mpr ⟨c₂, readsL, kindL, rfl⟩,
      _, _, (yields_expect (by simp)).mpr ⟨c₃, readsInput, kindInput, rfl⟩,
      _, _, (yields_bracedMany param_items).mpr ⟨_, c₄, _, _, readsPs, bracedPs,
        actAll_params.mpr ⟨rfl, rfl, by simpa using distinct⟩, rfl⟩,
      _, _, (yields_expect (by simp)).mpr ⟨c₅, readsRules, kindRules, rfl⟩,
      _, _, (yields_bracedMany expression_items).mpr ⟨_, c₆, _, _, readsBs, bracedBs,
        actAll_plainly.mpr ⟨rfl, rfl⟩, rfl⟩,
      _, _, (yields_expect (by simp)).mpr ⟨c₇, readsR, kindR, rfl⟩,
      (), _, yields_clearScope.mpr rfl, rfl, rfl⟩

/-! ## Tests -/

theorem yields_assignment {owner : String} {before : List (String × Term)} {x : String × Term} :
    Yields (assignment owner before) (c.state scope) x s' ↔
      ∃ ts c' raw, Reads c ts c' ∧ Assigned ts raw ∧ raw.1 ∉ before.map Prod.fst ∧
        x = (raw.1, raw.2.resolve scope) ∧ s' = c'.state scope := by
  unfold assignment
  rw [yields_current]
  dsimp only
  simp only [yields_bind, yields_unless, yields_pure]
  constructor
  · intro h
    rcases h with ⟨_, _, hname, colon, _, hcolon, v, _, hv, new, rfl, rfl⟩
    obtain ⟨name, c₁, readsName, kindName, rfl, rfl⟩ := yields_identifier.mp hname
    obtain ⟨c₂, readsColon, kindColon, rfl⟩ := (yields_expect (by simp)).mp hcolon
    obtain ⟨t, c', raw, readsT, literal, rfl, rfl⟩ := literal_sound hv
    exact ⟨[name, colon, t], c', (name.literal, raw), (readsName.append readsColon).append readsT,
      .mk kindName kindColon literal, by simpa using new, rfl, rfl⟩
  · intro h
    rcases h with ⟨_, c', _, reads, ⟨kindName, kindColon, literal⟩, new, rfl, rfl⟩
    obtain ⟨c₁, readsName, reads⟩ := Reads.cons_iff.mp reads
    obtain ⟨c₂, readsColon, readsT⟩ := Reads.cons_iff.mp reads
    exact ⟨_, _, yields_identifier.mpr ⟨_, c₁, readsName, kindName, rfl, rfl⟩,
      _, _, (yields_expect (by simp)).mpr ⟨c₂, readsColon, kindColon, rfl⟩,
      _, _, literal_complete readsT literal, by simpa using new, rfl, rfl⟩

theorem assignment_items (owner : String) :
    Items (assignment owner) Assigned
      (distinctly Prod.fst Prod.fst fun scope x => (x.1, x.2.resolve scope)) where
  sound before c scope x s' h := by
    obtain ⟨ts, c', raw, reads, assigned, new, rfl, rfl⟩ := yields_assignment.mp h
    exact ⟨ts, c', scope, reads, ⟨raw, assigned, new, rfl, rfl⟩, rfl⟩
  complete before _ c c' scope _ ts x _ reads h _ := by
    rcases h with ⟨raw, assigned, new, rfl, rfl⟩
    exact yields_assignment.mpr ⟨ts, c', raw, reads, assigned, new, rfl, rfl⟩
  starts h := by
    cases h with
    | mk kind _ _ => exact ⟨_, _, rfl, by simp [kind]⟩

/-- A fact is refused if it assigns a field twice or introduces a name that is in scope. -/
def factAction : Action Expr Written.Fact := fun _ scope f e scope' =>
  f.Distinct ∧ (∀ x ∈ f.introduces, x.1 ∉ scope.keys) ∧ e = f.tree scope ∧ scope' = f.extend scope

theorem yields_instantiation {e : Expr} :
    Yields instantiation (c.state scope) e s' ↔
      ∃ name colon type ts c' assigned, Reads c (name :: colon :: type :: ts) c' ∧
        name.kind = .identifier ∧ colon.kind = .delimiter .colon ∧ type.kind = .identifier ∧
        Braced Assigned ts assigned ∧ factAction [] scope
          (.instantiation name.literal type.literal assigned) e
          (scope.insert name.literal (.object type.literal)) ∧
        s' = c'.state (scope.insert name.literal (.object type.literal)) := by
  unfold instantiation
  rw [yields_current]
  dsimp only
  simp only [yields_bind]
  constructor
  · intro h
    rcases h with ⟨_, _, hname, colon, _, hcolon, _, _, htype, assigned, _, hassigned, taken, _,
      declared, h⟩
    obtain ⟨name, c₁, readsName, kindName, rfl, rfl⟩ := yields_identifier.mp hname
    obtain ⟨c₂, readsColon, kindColon, rfl⟩ := (yields_expect (by simp)).mp hcolon
    obtain ⟨type, c₃, readsType, kindType, rfl, rfl⟩ := yields_identifier.mp htype
    obtain ⟨ts, c', raw, _, readsTs, braced, acts, rfl⟩ :=
      (yields_bracedSome (assignment_items _)).mp hassigned
    rw [actAll_distinctly (by intros; rfl)] at acts
    rcases acts with ⟨rfl, rfl, distinct⟩
    obtain ⟨rfl, rfl⟩ := yields_declare.mp declared
    rw [yields_unless, yields_pure] at h
    rcases h with ⟨new, rfl, rfl⟩
    refine ⟨name, colon, type, ts, c', raw, ((readsName.append readsColon).append
      readsType).append readsTs, kindName, kindColon, kindType, braced, ⟨distinct, ?_, ?_, rfl⟩, rfl⟩
    · rintro _ ⟨⟩
      exact not_mem_keys_iff.mpr new
    · simp [Written.Fact.tree, Function.comp_def]
  · intro h
    rcases h with ⟨name, colon, type, ts, c', raw, reads, kindName, kindColon, kindType, braced,
      ⟨distinct, new, rfl, -⟩, rfl⟩
    obtain ⟨c₁, readsName, reads⟩ := Reads.cons_iff.mp reads
    obtain ⟨c₂, readsColon, reads⟩ := Reads.cons_iff.mp reads
    obtain ⟨c₃, readsType, readsTs⟩ := Reads.cons_iff.mp reads
    refine ⟨_, _, yields_identifier.mpr ⟨_, c₁, readsName, kindName, rfl, rfl⟩,
      _, _, (yields_expect (by simp)).mpr ⟨c₂, readsColon, kindColon, rfl⟩,
      _, _, yields_identifier.mpr ⟨_, c₃, readsType, kindType, rfl, rfl⟩,
      _, _, (yields_bracedSome (assignment_items _)).mpr ⟨ts, c', raw, scope, readsTs, braced,
        (actAll_distinctly (by intros; rfl)).mpr ⟨rfl, rfl, distinct⟩, rfl⟩,
      _, _, yields_declare.mpr ⟨rfl, rfl⟩, ?_⟩
    rw [yields_unless, yields_pure]
    refine ⟨not_mem_keys_iff.mp (new (name.literal, .object type.literal) rfl), ?_, rfl⟩
    simp [Written.Fact.tree, Function.comp_def]

theorem fact_items : Items (fun _ => fact) FactOf factAction where
  sound before c scope e s' h := by
    unfold fact at h
    rw [yields_bind] at h
    rcases h with ⟨b, _, ahead, h⟩
    obtain rfl := atInvocation_state ahead
    split at h
    · obtain ⟨ts, c', raw, reads, invocation, rfl, rfl⟩ := yields_invocation.mp h
      exact ⟨ts, c', scope, reads, ⟨_, .invocation invocation, trivial, nofun, rfl, rfl⟩, rfl⟩
    · obtain ⟨name, colon, type, ts, c', assigned, reads, kindName, kindColon, kindType, braced,
        acts, rfl⟩ := yields_instantiation.mp h
      exact ⟨_, c', _, reads, ⟨_, .instantiation kindName kindColon kindType braced, acts⟩, rfl⟩
  complete before _ c c' scope _ ts e _ reads h _ := by
    rcases h with ⟨f, hf, acts⟩
    unfold fact
    rw [yields_bind]
    cases hf with
    | invocation h =>
      rcases acts with ⟨_, _, rfl, rfl⟩
      refine ⟨true, _, atInvocation_of_invocation h reads, ?_⟩
      exact yields_invocation.mpr ⟨ts, c', _, reads, h, rfl, rfl⟩
    | @instantiation name colon type us assigned kindName kindColon kindType braced =>
      have ahead : Yields atInvocation (c.state scope) false (c.state scope) := by
        obtain ⟨c₁, readsName, rest⟩ := Reads.cons_iff.mp reads
        obtain ⟨rfl, _, next⟩ := Reads.one_iff.mp readsName
        unfold atInvocation
        rw [yields_current, if_pos kindName, yields_bind]
        refine ⟨_, _, yields_peek.mpr ⟨c₁, next, rfl, rfl⟩, yields_pure.mpr ⟨?_, rfl⟩⟩
        simp [rest.current_eq, kindColon]
      rcases acts with ⟨distinct, new, rfl, rfl⟩
      refine ⟨false, _, ahead, ?_⟩
      rw [if_neg (by simp)]
      exact yields_instantiation.mpr ⟨name, colon, type, us, c', assigned, reads, kindName, kindColon,
        kindType, braced, ⟨distinct, new, rfl, rfl⟩, rfl⟩
  starts := factOf_starts

/-- The names in scope after a fact that introduces none of those before. -/
theorem keys_extend {f : Written.Fact} (new : ∀ x ∈ f.introduces, x.1 ∉ scope.keys) :
    (f.extend scope).keys = scope.keys ++ Written.introduced [f] := by
  cases h : f.introduces with
  | none => simp [Written.Fact.extend, Written.introduced, h]
  | some x =>
    rw [Written.Fact.extend, h, keys_insert_of_not_mem (new x h)]
    simp [Written.introduced, h]

/-- Facts taken one after the other introduce names that are new and distinct. -/
theorem actAll_facts {before es : List Expr} {fs : List Written.Fact} :
    ActAll factAction before scope fs es scope' ↔
      es = before ++ Written.factTrees scope fs ∧ scope' = fs.foldl Written.Fact.extend scope ∧
        (scope.keys ++ Written.introduced fs).Nodup ∧ ∀ f ∈ fs, f.Distinct := by
  induction fs generalizing before scope with
  | nil => simp [ActAll, nodup_keys, Written.factTrees, Written.introduced]
  | cons f fs ih =>
    have split : Written.introduced (f :: fs) = Written.introduced [f] ++ Written.introduced fs :=
      List.filterMap_append (l := [f])
    simp only [ActAll, factAction]
    constructor
    · intro h
      rcases h with ⟨_, _, ⟨distinct, new, rfl, rfl⟩, rest⟩
      obtain ⟨rfl, rfl, names, later⟩ := ih.mp rest
      rw [keys_extend new, List.append_assoc, ← split] at names
      refine ⟨by simp [Written.factTrees], rfl, names, fun g member => ?_⟩
      rcases List.mem_cons.mp member with rfl | member
      · exact distinct
      · exact later g member
    · intro h
      rcases h with ⟨rfl, rfl, names, distinct⟩
      have new : ∀ x ∈ f.introduces, x.1 ∉ scope.keys := by
        intro x introduced member
        refine (List.nodup_append.mp names).2.2 _ member x.1 ?_ rfl
        rw [split]
        simp [Written.introduced, Option.mem_def.mp introduced]
      refine ⟨_, _, ⟨distinct f (by simp), new, rfl, rfl⟩, ih.mpr ⟨?_, rfl, ?_, ?_⟩⟩
      · simp [Written.factTrees]
      · rw [keys_extend new, List.append_assoc, ← split]
        exact names
      · exact fun g member => distinct g (List.mem_cons_of_mem _ member)

theorem invocation_items : Items (fun _ => invocation) Invocation (plainly Expr.resolve) where
  sound before c scope e s' h := by
    obtain ⟨ts, c', raw, reads, invocation, rfl, rfl⟩ := yields_invocation.mp h
    exact ⟨ts, c', scope, reads, ⟨raw, invocation, rfl, rfl⟩, rfl⟩
  complete before _ c c' scope _ ts e _ reads h _ := by
    rcases h with ⟨raw, invocation, rfl, rfl⟩
    exact yields_invocation.mpr ⟨ts, c', raw, reads, invocation, rfl, rfl⟩
  starts h := expression_starts (.invocation h)

theorem yields_testName {x : String} :
    Yields testName (c.state scope) x s' ↔
      ∃ t c', Reads c [t] c' ∧ (t.kind = .string ∨ t.kind = .identifier) ∧ x = t.literal ∧
        s' = c'.state scope := by
  have taken (more : c.current.kind ≠ .endOfInput) :
      Yields (do return (← advance).literal) (c.state scope) x s' ↔
        ∃ t c', Reads c [t] c' ∧ x = t.literal ∧ s' = c'.state scope := by
    simp only [yields_bind, yields_pure, yields_advance_of_kind more]
    constructor
    · intro h
      rcases h with ⟨t, _, ⟨c', reads, rfl⟩, rfl, rfl⟩
      exact ⟨t, c', reads, rfl, rfl⟩
    · intro h
      rcases h with ⟨t, c', reads, rfl, rfl⟩
      exact ⟨t, _, ⟨c', reads, rfl⟩, rfl, rfl⟩
  have named (kind : c.current.kind = .string ∨ c.current.kind = .identifier) :
      (∃ t c', Reads c [t] c' ∧ x = t.literal ∧ s' = c'.state scope) ↔
        ∃ t c', Reads c [t] c' ∧ (t.kind = .string ∨ t.kind = .identifier) ∧ x = t.literal ∧
          s' = c'.state scope := by
    constructor
    · intro h
      rcases h with ⟨t, c', reads, rfl, rfl⟩
      exact ⟨t, c', reads, reads.current_eq ▸ kind, rfl, rfl⟩
    · intro h
      rcases h with ⟨t, c', reads, _, rfl, rfl⟩
      exact ⟨t, c', reads, rfl, rfl⟩
  unfold testName
  rw [yields_current]
  split
  · rename_i kind
    rw [taken (by simp [kind]), named (.inl kind)]
  · rename_i kind
    rw [taken (by simp [kind]), named (.inr kind)]
  · rename_i string identifier
    constructor
    · intro h
      exact absurd h not_yields_unexpected
    · intro h
      rcases h with ⟨t, c', reads, kind, _⟩
      rw [← reads.current_eq] at kind
      exact absurd kind (by simp_all)

/-- The tree of a test whose names are distinct. The scope is empty afterwards. -/
theorem yields_test {t : Test} :
    Yields test (c.state scope) t s' ↔
      ∃ ts c' w, Reads c ts c' ∧ TestOf ts w ∧ (Written.Declaration.test w).Distinct ∧ t = w.tree ∧
        s' = c'.state .empty := by
  unfold test
  simp only [yields_bind, yields_pure]
  constructor
  · intro h
    rcases h with ⟨_, _, cleared, x, _, hx, l, _, hl, word, _, hword, given, _, hgiven, rules, _,
      hrules, body, _, hbody, r, _, hr, _, _, cleared', rfl, rfl⟩
    obtain rfl := yields_clearScope.mp cleared
    obtain ⟨name, c₁, readsName, kindName, rfl, rfl⟩ := yields_testName.mp hx
    obtain ⟨c₂, readsL, kindL, rfl⟩ := (yields_expect (by simp)).mp hl
    obtain ⟨c₃, readsWord, kindWord, rfl⟩ := (yields_expect (by simp)).mp hword
    obtain ⟨fs, c₄, facts, _, readsFs, bracedFs, acts, rfl⟩ := (yields_bracedMany fact_items).mp hgiven
    obtain ⟨rfl, rfl, names, distinct⟩ := actAll_facts.mp acts
    obtain ⟨c₅, readsRules, kindRules, rfl⟩ := (yields_expect (by simp)).mp hrules
    obtain ⟨bs, c₆, es, _, readsBs, bracedBs, acts, rfl⟩ :=
      (yields_bracedMany invocation_items).mp hbody
    obtain ⟨rfl, rfl⟩ := actAll_plainly.mp acts
    obtain ⟨c₇, readsR, kindR, rfl⟩ := (yields_expect (by simp)).mp hr
    obtain rfl := yields_clearScope.mp cleared'
    have reads := ((((((readsName.append readsL).append readsWord).append readsFs).append
      readsRules).append readsBs).append readsR)
    refine ⟨_, c₇, ⟨name.literal, facts, es⟩, reads, ?_, ⟨by simpa using names, distinct⟩, rfl, rfl⟩
    simpa using TestOf.mk kindName kindL kindWord bracedFs kindRules bracedBs kindR
  · intro h
    rcases h with ⟨_, c₇, _, reads, ⟨kindName, kindL, kindWord, bracedFs, kindRules, bracedBs,
      kindR⟩, ⟨names, distinct⟩, rfl, rfl⟩
    obtain ⟨c₆, reads, readsR⟩ := Reads.append_iff.mp reads
    obtain ⟨c₄, reads, readsBs⟩ := Reads.append_iff.mp reads
    obtain ⟨c₁, readsName, reads⟩ := Reads.cons_iff.mp reads
    obtain ⟨c₂, readsL, reads⟩ := Reads.cons_iff.mp reads
    obtain ⟨c₃, readsWord, readsFs⟩ := Reads.cons_iff.mp reads
    obtain ⟨c₅, readsRules, readsBs⟩ := Reads.cons_iff.mp readsBs
    exact ⟨(), _, yields_clearScope.mpr rfl,
      _, _, yields_testName.mpr ⟨_, c₁, readsName, kindName, rfl, rfl⟩,
      _, _, (yields_expect (by simp)).mpr ⟨c₂, readsL, kindL, rfl⟩,
      _, _, (yields_expect (by simp)).mpr ⟨c₃, readsWord, kindWord, rfl⟩,
      _, _, (yields_bracedMany fact_items).mpr ⟨_, c₄, _, _, readsFs, bracedFs,
        actAll_facts.mpr ⟨rfl, rfl, by simpa using names, distinct⟩, rfl⟩,
      _, _, (yields_expect (by simp)).mpr ⟨c₅, readsRules, kindRules, rfl⟩,
      _, _, (yields_bracedMany invocation_items).mpr ⟨_, c₆, _, _, readsBs, bracedBs,
        actAll_plainly.mpr ⟨rfl, rfl⟩, rfl⟩,
      _, _, (yields_expect (by simp)).mpr ⟨c₇, readsR, kindR, rfl⟩,
      (), _, yields_clearScope.mpr rfl, rfl, rfl⟩

/-! ## Declarations -/

/-- After a keyword, the rest of a declaration. -/
theorem yields_after_keyword {p : Parser α} {make : α → Declaration} {word : Keyword}
    {d : Declaration}
    (kind : c.current.kind = .keyword word) :
    Yields (do let _ ← advance; return make (← p)) (c.state scope) d s' ↔
      ∃ t c₁ a, Reads c [t] c₁ ∧ t.kind = .keyword word ∧ Yields p (c₁.state scope) a s' ∧
        d = make a := by
  simp only [yields_bind, yields_pure, yields_advance_of_kind (show c.current.kind ≠ .endOfInput by
    simp [kind])]
  constructor
  · intro h
    rcases h with ⟨t, _, ⟨c₁, reads, rfl⟩, a, _, ha, rfl, rfl⟩
    exact ⟨t, c₁, a, reads, by rw [← reads.current_eq, kind], ha, rfl⟩
  · intro h
    rcases h with ⟨t, c₁, a, reads, _, ha, rfl⟩
    exact ⟨t, _, ⟨c₁, reads, rfl⟩, a, _, ha, rfl, rfl⟩

/-- Rules and tests leave an empty scope behind. -/
def scopeAfter (scope : Table FieldType) : Written.Declaration → Table FieldType
  | .object _ | .relation _ => scope
  | .rule _ | .test _ => .empty

theorem yields_declaration {d : Declaration} :
    Yields declaration (c.state scope) d s' ↔
      ∃ ts c' w, Reads c ts c' ∧ Declares ts w ∧ w.Distinct ∧ d = w.tree ∧
        s' = c'.state (scopeAfter scope w) := by
  unfold declaration
  rw [yields_current]
  constructor
  · intro h
    split at h
    · rename_i kind
      obtain ⟨word, c₁, o, readsWord, kindWord, ho, rfl⟩ := (yields_after_keyword kind).mp h
      obtain ⟨name, ts, c', fs, reads, kindName, braced, distinct, rfl, rfl⟩ :=
        yields_named_fields.mp ho
      exact ⟨word :: name :: ts, c', .object ⟨name.literal, fs⟩, readsWord.append reads,
        .object kindWord kindName braced, distinct, rfl, rfl⟩
    · rename_i kind
      obtain ⟨word, c₁, r, readsWord, kindWord, hr, rfl⟩ := (yields_after_keyword kind).mp h
      obtain ⟨name, ts, c', fs, reads, kindName, braced, distinct, rfl, rfl⟩ :=
        yields_named_fields.mp hr
      exact ⟨word :: name :: ts, c', .relation ⟨name.literal, fs⟩, readsWord.append reads,
        .relation kindWord kindName braced, distinct, rfl, rfl⟩
    · rename_i kind
      obtain ⟨word, c₁, r, readsWord, kindWord, hr, rfl⟩ := (yields_after_keyword kind).mp h
      obtain ⟨ts, c', w, reads, hw, distinct, rfl, rfl⟩ := yields_rule.mp hr
      exact ⟨word :: ts, c', .rule w, readsWord.append reads, .rule kindWord hw, distinct, rfl, rfl⟩
    · rename_i kind
      obtain ⟨word, c₁, t, readsWord, kindWord, ht, rfl⟩ := (yields_after_keyword kind).mp h
      obtain ⟨ts, c', w, reads, hw, distinct, rfl, rfl⟩ := yields_test.mp ht
      exact ⟨word :: ts, c', .test w, readsWord.append reads, .test kindWord hw, distinct, rfl, rfl⟩
    · exact absurd h not_yields_unexpected
  · intro h
    rcases h with ⟨_, c', _, reads, h, distinct, rfl, rfl⟩
    cases h with
    | object kindWord kindName braced =>
      obtain ⟨c₁, readsWord, reads⟩ := Reads.cons_iff.mp reads
      have kind := readsWord.current_eq ▸ kindWord
      rw [kind]
      exact (yields_after_keyword kind).mpr ⟨_, c₁, _, readsWord, kindWord,
        yields_named_fields.mpr ⟨_, _, c', _, reads, kindName, braced, distinct, rfl, rfl⟩, rfl⟩
    | relation kindWord kindName braced =>
      obtain ⟨c₁, readsWord, reads⟩ := Reads.cons_iff.mp reads
      have kind := readsWord.current_eq ▸ kindWord
      rw [kind]
      exact (yields_after_keyword kind).mpr ⟨_, c₁, _, readsWord, kindWord,
        yields_named_fields.mpr ⟨_, _, c', _, reads, kindName, braced, distinct, rfl, rfl⟩, rfl⟩
    | rule kindWord hw =>
      obtain ⟨c₁, readsWord, reads⟩ := Reads.cons_iff.mp reads
      have kind := readsWord.current_eq ▸ kindWord
      rw [kind]
      exact (yields_after_keyword kind).mpr ⟨_, c₁, _, readsWord, kindWord,
        yields_rule.mpr ⟨_, c', _, reads, hw, distinct, rfl, rfl⟩, rfl⟩
    | test kindWord hw =>
      obtain ⟨c₁, readsWord, reads⟩ := Reads.cons_iff.mp reads
      have kind := readsWord.current_eq ▸ kindWord
      rw [kind]
      exact (yields_after_keyword kind).mpr ⟨_, c₁, _, readsWord, kindWord,
        yields_test.mpr ⟨_, c', _, reads, hw, distinct, rfl, rfl⟩, rfl⟩

/-- Kind and name of a declaration. -/
def signature (d : Declaration) : Declared × String := (d.kind, d.name)

/-- A document declares what it has taken up, and nothing else. -/
theorem declares_add {document : Document} {d e : Declaration} :
    (document.add d).declares e = true ↔ signature e = signature d ∨ document.declares e = true := by
  have written {α : Type} (t : Table α) (x y : String) (v : α) :
      (t.insert x v).contains y = true ↔ y = x ∨ t.contains y = true := by
    rw [Table.contains, Table.find?_insert]
    by_cases same : x = y
    · simp [same]
    · simp [same, Ne.symm same, Table.contains]
  have tested (ts : List Test) (t u : Test) :
      (ts ++ [t]).any (·.name == u.name) = true ↔
        u.name = t.name ∨ ts.any (·.name == u.name) = true := by
    have one : [t].any (·.name == u.name) = true ↔ u.name = t.name := by
      rw [List.any_cons, List.any_nil, Bool.or_false, beq_iff_eq]
      exact eq_comm
    rw [List.any_append, Bool.or_eq_true, or_comm, one]
  cases d <;> cases e <;>
    simp only [Document.add, Document.declares, signature, Declaration.kind, Declaration.name,
      written, tested, Prod.mk.injEq, reduceCtorEq, true_and, false_and, false_or]

/-- Declarations taken up one after the other, none of which is declared before. -/
def AddAll : Document → List Written.Declaration → Document → Prop
  | document, [], result => result = document
  | document, w :: ws, result =>
    ¬ document.declares w.tree = true ∧ AddAll (document.add w.tree) ws result

theorem addAll_iff {document result : Document} {ws : List Written.Declaration} :
    AddAll document ws result ↔
      result = ws.foldl (fun d w => d.add w.tree) document ∧
        (ws.map fun w => signature w.tree).Nodup ∧ ∀ w ∈ ws, ¬ document.declares w.tree = true := by
  induction ws generalizing document with
  | nil => simp [AddAll]
  | cons w ws ih =>
    simp only [AddAll, ih, declares_add, List.foldl_cons, List.map_cons, List.nodup_cons,
      List.mem_map, List.forall_mem_cons, not_or, not_exists, not_and]
    constructor
    · intro h
      rcases h with ⟨new, rfl, distinct, later⟩
      exact ⟨rfl, ⟨fun v member same => (later v member).1 same, distinct⟩, new,
        fun v member => (later v member).2⟩
    · intro h
      rcases h with ⟨rfl, ⟨apart, distinct⟩, new, later⟩
      exact ⟨new, rfl, distinct, fun v member => ⟨apart v member, later v member⟩⟩

/-- Taking up declarations one after the other sorts them by kind. -/
theorem foldl_add (ws : List Written.Declaration) (document : Document) :
    ws.foldl (fun d w => d.add w.tree) document = {
      objects := (ws.filterMap Written.Declaration.object?).foldl
        (fun t e => t.insert e.1 e.2) document.objects
      relations := (ws.filterMap Written.Declaration.relation?).foldl
        (fun t e => t.insert e.1 e.2) document.relations
      rules := (ws.filterMap Written.Declaration.rule?).foldl
        (fun t e => t.insert e.1 e.2) document.rules
      tests := document.tests ++ ws.filterMap Written.Declaration.test? } := by
  induction ws generalizing document with
  | nil => simp
  | cons w ws ih =>
    rw [List.foldl_cons, ih]
    cases w with
    | object _ => rfl
    | relation _ => rfl
    | rule _ => rfl
    | test t =>
      have tests : document.tests ++ [t.tree] ++ ws.filterMap Written.Declaration.test? =
          document.tests ++ (Written.Declaration.test t :: ws).filterMap Written.Declaration.test? :=
        List.append_assoc ..
      simp only [Document.add, Written.Declaration.tree, tests]
      rfl

theorem foldl_add_empty (ws : List Written.Declaration) :
    ws.foldl (fun d w => d.add w.tree) {} = Written.document ws := by
  rw [foldl_add]
  rfl

theorem declarationsFrom_sound {steps : Nat} {document result : Document}
    (h : Yields (declarationsFrom steps document) (c.state scope) result s') :
    ∃ ts c' ws scope', Reads c ts c' ∧ c'.current.kind = .endOfInput ∧ Declarations ts ws ∧
      (∀ w ∈ ws, w.Distinct) ∧ AddAll document ws result ∧ s' = c'.state scope' := by
  induction steps generalizing c scope document with
  | zero => exact absurd h not_yields_unexpected
  | succ steps ih =>
    unfold declarationsFrom at h
    rw [yields_current] at h
    split at h
    · rename_i ends
      obtain ⟨rfl, rfl⟩ := yields_pure.mp h
      exact ⟨[], c, [], scope, .nil, ends, .nil, by simp, rfl, rfl⟩
    · rw [yields_bind] at h
      rcases h with ⟨d, _, hd, h⟩
      dsimp only at h
      rw [yields_unless] at h
      rcases h with ⟨new, h⟩
      obtain ⟨ts, c₁, w, reads, hw, distinct, rfl, rfl⟩ := yields_declaration.mp hd
      obtain ⟨us, c', ws, scope', reads', ends, hws, distincts, added, rfl⟩ := ih h
      refine ⟨ts ++ us, c', w :: ws, scope', reads.append reads', ends, .cons hw hws, ?_,
        ⟨new, added⟩, rfl⟩
      intro v member
      rcases List.mem_cons.mp member with rfl | member
      · exact distinct
      · exact distincts v member

theorem declarationsFrom_complete {steps : Nat} {document result : Document}
    {ws : List Written.Declaration} (h : Declarations ts ws) (reads : Reads c ts c')
    (ends : c'.current.kind = .endOfInput) (distinct : ∀ w ∈ ws, w.Distinct)
    (added : AddAll document ws result) (enough : ts.length < steps) :
    ∃ s', Yields (declarationsFrom steps document) (c.state scope) result s' := by
  induction h generalizing c scope document steps with
  | nil =>
    obtain rfl := Reads.nil_iff.mp reads
    cases steps with
    | zero => simp at enough
    | succ steps =>
      refine ⟨c'.state scope, ?_⟩
      unfold declarationsFrom
      rw [yields_current, if_pos ends]
      exact yields_pure.mpr ⟨added, rfl⟩
  | @cons ts us w ws hw rest ih =>
    cases steps with
    | zero => simp at enough
    | succ steps =>
      obtain ⟨c₁, readsTs, readsUs⟩ := Reads.append_iff.mp reads
      rcases added with ⟨new, added⟩
      have one := List.length_pos_iff.mpr (declares_ne_nil hw)
      rw [List.length_append] at enough
      obtain ⟨s', later⟩ := @ih c₁ (scopeAfter scope w) steps _ readsUs
        (fun v member => distinct v (List.mem_cons_of_mem _ member)) added (by omega)
      have starts := readsTs.not_ends (declares_ne_nil hw)
      refine ⟨s', ?_⟩
      unfold declarationsFrom
      rw [yields_current, if_neg starts, yields_bind]
      refine ⟨w.tree, _, yields_declaration.mpr ⟨ts, c₁, w, readsTs, hw, distinct w (by simp), rfl,
        rfl⟩, ?_⟩
      dsimp only
      rw [yields_unless]
      exact ⟨new, later⟩

/-- Parsing a document reads declarations with distinct names up to the end of the text. -/
theorem yields_document {d : Document} :
    (∃ s', Yields document (c.state scope) d s') ↔
      ∃ ts c' ws, Reads c ts c' ∧ c'.current.kind = .endOfInput ∧ Declarations ts ws ∧
        Written.Distinct ws ∧ d = Written.document ws := by
  unfold document
  simp only [yields_bound]
  constructor
  · intro h
    rcases h with ⟨s', h⟩
    obtain ⟨ts, c', ws, _, reads, ends, hws, distinct, added, _⟩ := declarationsFrom_sound h
    obtain ⟨rfl, names, _⟩ := addAll_iff.mp added
    exact ⟨ts, c', ws, reads, ends, hws, ⟨names, distinct⟩, foldl_add_empty ws⟩
  · intro h
    rcases h with ⟨ts, c', ws, reads, ends, hws, distinct, rfl⟩
    have short := reads.length_le_size
    have bound := c.size_lt_bound scope
    refine declarationsFrom_complete hws reads ends distinct.inner ?_ (by omega)
    refine addAll_iff.mpr ⟨(foldl_add_empty ws).symm, distinct.names, fun w _ => ?_⟩
    cases w <;> simp [Document.declares, Written.Declaration.tree, Table.contains]

end Rulebook.Parser
