import Rulebook.Proofs.Lowering.Correct

/-!
# Where variables come from

Every variable of a rule or a test stands for a name of the document or for a field access. A field
access is known by its place in the document: the rule or test, the expression in it, and the way
down to the node. Said for every part of a document: which accesses it makes, and where the
variables of its goals and of its value come from. Nothing here mentions numbers of fresh variables.
-/

namespace Rulebook

/-- A place in a document: the positions of the parts that lead to it, from the outside in. -/
abbrev Place := List Nat

/-- What a variable stands for. -/
inductive Origin where
  | user (name : String)
  | access (place : Place)
  deriving DecidableEq

/-- The variables of something lowered, and the accesses that introduce some of them. The goals come
before the value. -/
structure Occurrences (ι ν : Type) where
  accesses : List ι := []
  goals : List ν := []
  value : List ν := []

namespace Occurrences

variable {ι κ ν μ : Type}

/-- One after the other: all goals, and all values. -/
def join (parts : List (Occurrences ι ν)) : Occurrences ι ν :=
  ⟨parts.flatMap accesses, parts.flatMap goals, parts.flatMap value⟩

def map (f : ι → κ) (g : ν → μ) (o : Occurrences ι ν) : Occurrences κ μ :=
  ⟨o.accesses.map f, o.goals.map g, o.value.map g⟩

/-- The value becomes a goal. -/
def closed (o : Occurrences ι ν) : Occurrences ι ν := ⟨o.accesses, o.goals ++ o.value, []⟩

/-- The value becomes a goal and is kept for later. -/
def asserted (o : Occurrences ι ν) : Occurrences ι ν := ⟨o.accesses, o.goals ++ o.value, o.value⟩

theorem map_join {f : ι → κ} {g : ν → μ} (parts : List (Occurrences ι ν)) :
    (join parts).map f g = join (parts.map (map f g)) := by
  simp [join, map, List.map_flatMap, List.flatMap_map]

theorem map_closed {f : ι → κ} {g : ν → μ} (o : Occurrences ι ν) :
    o.closed.map f g = (o.map f g).closed := by
  simp [closed, map]

theorem map_asserted {f : ι → κ} {g : ν → μ} (o : Occurrences ι ν) :
    o.asserted.map f g = (o.map f g).asserted := by
  simp [asserted, map]

/-- A field access whose target has these occurrences: its goal comes last, and introduces the
variable that is the value. -/
def access (target : Occurrences Place Origin) (place : Place) : Occurrences Place Origin :=
  ⟨target.accesses ++ [place], target.goals ++ .access place :: target.value, [.access place]⟩

end Occurrences

/-- Several parts of one thing, each with its own place. -/
def placed {α β : Type} (f : Place → α → β) (place : Place) : Nat → List α → List β
  | _, [] => []
  | i, a :: rest => f (place ++ [i]) a :: placed f place (i + 1) rest

/-! ## Parts of a document -/

def Term.origins (t : Term) : List Origin := t.variable?.toList.map .user

/-- The value that arguments assign to a field. -/
def assigned? (args : List Node) (field : String) : Option Term :=
  args.findSome? fun
    | .term (.field name value) => if name = field then some value else none
    | _ => none

/-- The variable that a field of an object type is assigned. Any other field holds no variable. -/
def Field.origins (args : List Node) (f : Field) : List Origin :=
  match f.type, assigned? args f.name with
  | .object _, some value => value.origins
  | _, _ => []

/-- The variables of an instantiation: the new one, and those assigned to fields, in the order in
which the fields are declared. -/
def Document.instanceOrigins (d : Document) : List Node → List Origin
  | .term (.var name (.object object)) :: args =>
    .user name :: (d.objects.find? object).toList.flatMap fun o => o.fields.flatMap (·.origins args)
  | _ => []

namespace Node

mutual

def origins (d : Document) (place : Place) : Node → Occurrences Place Origin
  | term t => { value := t.origins }
  | app functor args =>
    if functor = Expr.newFunctor then { value := d.instanceOrigins args }
    else if functor = Expr.accessFunctor then (targetOrigins d place args).access place
    else .join (originsFrom d place 0 args)

/-- What stands left of a dot. -/
def targetOrigins (d : Document) (place : Place) : List Node → Occurrences Place Origin
  | [] => {}
  | left :: _ => origins d (place ++ [0]) left

/-- Arguments from left to right. -/
def originsFrom (d : Document) (place : Place) (i : Nat) :
    List Node → List (Occurrences Place Origin)
  | [] => []
  | n :: rest => origins d (place ++ [i]) n :: originsFrom d place (i + 1) rest

end

theorem originsFrom_eq_placed (d : Document) (place : Place) (i : Nat) (args : List Node) :
    originsFrom d place i args = placed (origins d) place i args := by
  induction args generalizing i with
  | nil => rfl
  | cons n rest ih => rw [originsFrom, placed, ih]

end Node

namespace Expr

/-- An expression as a goal. -/
def goalOrigins (d : Document) (place : Place) (e : Expr) : Occurrences Place Origin :=
  (e.node.origins d place).closed

/-- A fact, which is taken away later unless it is an instantiation. -/
def factOrigins (d : Document) (place : Place) (e : Expr) : Occurrences Place Origin :=
  if e.functor = newFunctor then e.goalOrigins d place
  else (Occurrences.join (Node.originsFrom d place 0 e.args)).asserted

end Expr

def Rule.origins (d : Document) (place : Place) (r : Rule) : Occurrences Place Origin :=
  let body := Occurrences.join (placed (Expr.goalOrigins d) place 0 r.body)
  { accesses := body.accesses, goals := r.params.flatMap Term.origins ++ body.goals }

/-- Facts are written three times: once where they are added, and once for each way in which the
checks can end. -/
def Test.origins (d : Document) (place : Place) (t : Test) : Occurrences Place Origin :=
  let facts := Occurrences.join (placed (Expr.factOrigins d) (place ++ [0]) 0 t.facts)
  let checks := Occurrences.join (placed (Expr.goalOrigins d) (place ++ [1]) 0 t.body)
  { accesses := facts.accesses ++ checks.accesses
    goals := facts.goals ++ (checks.goals ++ (facts.value ++ facts.value)) }

/-- The occurrences of each rule and then of each test. -/
def Document.origins (d : Document) : List (Occurrences Place Origin) :=
  placed (Rule.origins d) [0] 0 d.rules.values ++ placed (Test.origins d) [1] 0 d.tests

/-- The node at a place inside another. -/
def Node.part? : Node → Place → Option Node
  | n, [] => some n
  | .app _ args, i :: rest =>
    match args[i]? with
    | some n => n.part? rest
    | none => none
  | .term _, _ :: _ => none
termination_by structural _ place => place

/-- The node at a place of a document: an expression of a rule, or of the facts or the checks of a
test, and the way down from it. -/
def Document.node? (d : Document) : Place → Option Node
  | 0 :: i :: j :: rest => do (← (← d.rules.values[i]?).body[j]?).node.part? rest
  | 1 :: i :: 0 :: j :: rest => do (← (← d.tests[i]?).facts[j]?).node.part? rest
  | 1 :: i :: 1 :: j :: rest => do (← (← d.tests[i]?).body[j]?).node.part? rest
  | _ => none

/-! ## Every access has its own place -/

/-- Different places, all of them below one. -/
structure Under (place : Place) (places : List Place) : Prop where
  distinct : places.Nodup
  below : ∀ p ∈ places, place <+: p

theorem under_nil {place : Place} : Under place [] := ⟨List.nodup_nil, nofun⟩

/-- A place lies below one place of each length. -/
theorem prefix_unique {left right p : Place} (hl : left <+: p) (hr : right <+: p)
    (same : left.length = right.length) : left = right := by
  have inner := List.prefix_of_prefix_length_le hl hr (Nat.le_of_eq same)
  exact inner.eq_of_length same

theorem Under.append {place left right : Place} {ps qs : List Place} (hp : Under left ps)
    (hq : Under right qs) (le : place <+: left) (le' : place <+: right)
    (same : left.length = right.length) (apart : left ≠ right) : Under place (ps ++ qs) := by
  refine ⟨List.nodup_append.mpr ⟨hp.distinct, hq.distinct, fun p hp' q hq' equal => ?_⟩, ?_⟩
  · subst equal
    exact apart (prefix_unique (hp.below p hp') (hq.below p hq') same)
  · intro p member
    rcases List.mem_append.mp member with member | member
    · exact le.trans (hp.below p member)
    · exact le'.trans (hq.below p member)

theorem under_access {place : Place} {target : Occurrences Place Origin}
    (h : Under (place ++ [0]) target.accesses) : Under place (target.access place).accesses := by
  have outside : place ∉ target.accesses := by
    intro member
    have longer := (h.below place member).length_le
    simp only [List.length_append, List.length_singleton] at longer
    omega
  refine ⟨List.nodup_append.mpr ⟨h.distinct, by simp, ?_⟩, ?_⟩
  · intro p member q here equal
    rw [List.mem_singleton.mp here] at equal
    exact outside (equal ▸ member)
  · intro p member
    rcases List.mem_append.mp member with member | here
    · exact (List.prefix_append place [0]).trans (h.below p member)
    · obtain rfl := List.mem_singleton.mp here
      exact List.prefix_refl p

section Placed

variable {α β : Type} {f : Place → α → β} {place : Place}

theorem exists_of_mem_placed {as : List α} {i : Nat} {b : β} (member : b ∈ placed f place i as) :
    ∃ j a, as[j]? = some a ∧ b = f (place ++ [i + j]) a := by
  induction as generalizing i with
  | nil => cases member
  | cons a rest ih =>
    rcases List.mem_cons.mp member with here | member
    · exact ⟨0, a, rfl, here⟩
    · obtain ⟨j, c, there, found⟩ := ih member
      refine ⟨j + 1, c, there, ?_⟩
      rw [found, show i + 1 + j = i + (j + 1) by omega]

/-- Parts that keep to their places keep apart. -/
theorem under_placed {places : β → List Place} {as : List α} {i : Nat}
    (each : ∀ a ∈ as, ∀ p, Under p (places (f p a))) :
    Under place ((placed f place i as).flatMap places) ∧
      ∀ p ∈ (placed f place i as).flatMap places, ∃ j ≥ i, place ++ [j] <+: p := by
  induction as generalizing i with
  | nil => exact ⟨under_nil, nofun⟩
  | cons a rest ih =>
    have first := each a List.mem_cons_self (place ++ [i])
    obtain ⟨later, after⟩ := @ih (i + 1) fun b there => each b (List.mem_cons_of_mem a there)
    rw [placed, List.flatMap_cons]
    refine ⟨⟨List.nodup_append.mpr ⟨first.distinct, later.distinct, ?_⟩, ?_⟩, ?_⟩
    · intro p here q there equal
      subst equal
      obtain ⟨j, larger, under⟩ := after p there
      have same : i = j := by simpa using prefix_unique (first.below p here) under (by simp)
      omega
    · intro p member
      rcases List.mem_append.mp member with here | there
      · exact (List.prefix_append place [i]).trans (first.below p here)
      · exact later.below p there
    · intro p member
      rcases List.mem_append.mp member with here | there
      · exact ⟨i, Nat.le_refl i, first.below p here⟩
      · obtain ⟨j, larger, under⟩ := after p there
        exact ⟨j, by omega, under⟩

end Placed

section Parts

variable {d : Document}

theorem Node.under_origins (n : Node) (place : Place) :
    Under place (n.origins d place).accesses := by
  induction n using Node.induction generalizing place with
  | term t => exact under_nil
  | app functor args ih =>
    rw [Node.origins]
    split
    · exact under_nil
    · split
      · apply under_access
        cases args with
        | nil => exact under_nil
        | cons left rest => exact ih left List.mem_cons_self (place ++ [0])
      · rw [Node.originsFrom_eq_placed]
        exact (under_placed ih).1

theorem Expr.under_goalOrigins (e : Expr) (place : Place) :
    Under place (e.goalOrigins d place).accesses := e.node.under_origins place

theorem Expr.under_factOrigins (e : Expr) (place : Place) :
    Under place (e.factOrigins d place).accesses := by
  unfold Expr.factOrigins
  split
  · exact e.under_goalOrigins place
  · rw [Node.originsFrom_eq_placed]
    exact (under_placed fun n _ p => n.under_origins p).1

theorem Rule.under_origins (r : Rule) (place : Place) : Under place (r.origins d place).accesses :=
  (under_placed fun e _ p => e.under_goalOrigins p).1

theorem Test.under_origins (t : Test) (place : Place) :
    Under place (t.origins d place).accesses := by
  have facts : Under (place ++ [0])
      ((placed (Expr.factOrigins d) (place ++ [0]) 0 t.facts).flatMap Occurrences.accesses) :=
    (under_placed fun e _ p => e.under_factOrigins p).1
  have checks : Under (place ++ [1])
      ((placed (Expr.goalOrigins d) (place ++ [1]) 0 t.body).flatMap Occurrences.accesses) :=
    (under_placed fun e _ p => e.under_goalOrigins p).1
  exact facts.append checks (List.prefix_append ..) (List.prefix_append ..) (by simp) (by simp)

/-- All field accesses of a document have different places. -/
theorem Document.nodup_accesses (d : Document) :
    (d.origins.flatMap Occurrences.accesses).Nodup := by
  have rules : Under [0]
      ((placed (Rule.origins d) [0] 0 d.rules.values).flatMap Occurrences.accesses) :=
    (under_placed fun r _ p => r.under_origins p).1
  have tests : Under [1]
      ((placed (Test.origins d) [1] 0 d.tests).flatMap Occurrences.accesses) :=
    (under_placed fun t _ p => t.under_origins p).1
  have all : Under [] _ :=
    rules.append tests List.nil_prefix List.nil_prefix rfl (by decide)
  rw [Document.origins, List.flatMap_append]
  exact all.distinct

/-! ## At the place of an access stands a field access -/

/-- The place of an access is below the place of what it is made in, at a node that takes a field. -/
def Leads (part? : Place → Option Node) (place p : Place) : Prop :=
  ∃ q args, p = place ++ q ∧ part? q = some (.app Expr.accessFunctor args)

/-- Accesses of arguments lead to nodes inside the arguments. -/
theorem leads_placed {functor : String} {args : List Node} {place p : Place}
    (each : ∀ n ∈ args, ∀ place, ∀ p ∈ (n.origins d place).accesses, Leads n.part? place p)
    (member : p ∈ (Occurrences.join (Node.originsFrom d place 0 args)).accesses) :
    Leads (Node.app functor args).part? place p := by
  rw [Node.originsFrom_eq_placed, Occurrences.join, List.mem_flatMap] at member
  obtain ⟨o, part, inside⟩ := member
  obtain ⟨j, n, here, rfl⟩ := exists_of_mem_placed part
  obtain ⟨q, inner, rfl, found⟩ := each n (List.mem_of_getElem? here) _ p inside
  refine ⟨j :: q, inner, by simp, ?_⟩
  rw [Node.part?, here]
  exact found

theorem Node.leads_origins (n : Node) (place : Place) :
    ∀ p ∈ (n.origins d place).accesses, Leads n.part? place p := by
  induction n using Node.induction generalizing place with
  | term t => exact nofun
  | app functor args ih =>
    intro p member
    rw [Node.origins] at member
    split at member
    · cases member
    · split at member
      · rename_i accesses
        subst accesses
        rcases List.mem_append.mp member with inside | here
        · cases args with
          | nil => cases inside
          | cons left rest =>
            obtain ⟨q, inner, rfl, found⟩ := ih left List.mem_cons_self (place ++ [0]) p inside
            exact ⟨0 :: q, inner, by simp, found⟩
        · obtain rfl := List.mem_singleton.mp here
          exact ⟨[], args, by simp, rfl⟩
      · exact leads_placed ih member

theorem Expr.leads_goalOrigins (e : Expr) (place : Place) :
    ∀ p ∈ (e.goalOrigins d place).accesses, Leads e.node.part? place p :=
  e.node.leads_origins place

theorem Expr.leads_factOrigins (e : Expr) (place : Place) :
    ∀ p ∈ (e.factOrigins d place).accesses, Leads e.node.part? place p := by
  intro p member
  unfold Expr.factOrigins at member
  split at member
  · exact e.leads_goalOrigins place p member
  · exact leads_placed (fun n _ => n.leads_origins) member

/-- Accesses of several expressions lead to nodes of these expressions. -/
theorem exists_leads_of_mem {origins : Place → Expr → Occurrences Place Origin} {es : List Expr}
    {place p : Place}
    (each : ∀ e ∈ es, ∀ place, ∀ p ∈ (origins place e).accesses, Leads e.node.part? place p)
    (member : p ∈ (Occurrences.join (placed origins place 0 es)).accesses) :
    ∃ j e q args, es[j]? = some e ∧ p = place ++ j :: q ∧
      e.node.part? q = some (.app Expr.accessFunctor args) := by
  obtain ⟨o, part, inside⟩ := List.mem_flatMap.mp member
  obtain ⟨j, e, here, rfl⟩ := exists_of_mem_placed part
  obtain ⟨q, args, rfl, found⟩ := each e (List.mem_of_getElem? here) _ p inside
  exact ⟨j, e, q, args, here, by simp, found⟩

/-- Each access of a document is a node of it that takes a field. -/
theorem Document.node?_of_mem_accesses {p : Place}
    (member : p ∈ d.origins.flatMap Occurrences.accesses) :
    ∃ args, d.node? p = some (.app Expr.accessFunctor args) := by
  obtain ⟨o, part, inside⟩ := List.mem_flatMap.mp member
  rcases List.mem_append.mp part with part | part
  · obtain ⟨i, r, declared, rfl⟩ := exists_of_mem_placed part
    obtain ⟨j, e, q, args, here, rfl, found⟩ :=
      exists_leads_of_mem (fun e _ => e.leads_goalOrigins) inside
    exact ⟨args, by simp [Document.node?, declared, here, found]⟩
  · obtain ⟨i, t, declared, rfl⟩ := exists_of_mem_placed part
    rcases List.mem_append.mp inside with inside | inside
    · obtain ⟨j, e, q, args, here, rfl, found⟩ :=
        exists_leads_of_mem (fun e _ => e.leads_factOrigins) inside
      exact ⟨args, by simp [Document.node?, declared, here, found]⟩
    · obtain ⟨j, e, q, args, here, rfl, found⟩ :=
        exists_leads_of_mem (fun e _ => e.leads_goalOrigins) inside
      exact ⟨args, by simp [Document.node?, declared, here, found]⟩

/-! ## Every variable of an access is introduced -/

/-- Accesses that variables come from are made here. -/
def Occurrences.Bound (o : Occurrences Place Origin) : Prop :=
  ∀ p, .access p ∈ o.goals ++ o.value → p ∈ o.accesses

theorem bound_empty : Occurrences.Bound {} := nofun

theorem Term.access_not_mem_origins (t : Term) (p : Place) : .access p ∉ t.origins := by
  simp [Term.origins]

theorem Document.access_not_mem_instanceOrigins (args : List Node) (p : Place) :
    .access p ∉ d.instanceOrigins args := by
  intro member
  unfold Document.instanceOrigins at member
  split at member
  · rename_i name object rest
    simp only [List.mem_cons, reduceCtorEq, false_or, List.mem_flatMap] at member
    rcases member with ⟨o, _, f, _, occurs⟩
    unfold Field.origins at occurs
    split at occurs
    · exact Term.access_not_mem_origins _ p occurs
    · cases occurs
  · cases member

theorem bound_join {parts : List (Occurrences Place Origin)} (each : ∀ o ∈ parts, o.Bound) :
    (Occurrences.join parts).Bound := by
  intro p member
  simp only [Occurrences.join, List.mem_append, List.mem_flatMap] at member
  rw [Occurrences.join, List.mem_flatMap]
  rcases member with ⟨o, here, occurs⟩ | ⟨o, here, occurs⟩
  · exact ⟨o, here, each o here p (List.mem_append_left _ occurs)⟩
  · exact ⟨o, here, each o here p (List.mem_append_right _ occurs)⟩

theorem bound_join_placed {α : Type} {f : Place → α → Occurrences Place Origin} {place : Place}
    {i : Nat} {as : List α} (each : ∀ a ∈ as, ∀ p, (f p a).Bound) :
    (Occurrences.join (placed f place i as)).Bound := by
  apply bound_join
  intro o member
  obtain ⟨j, a, here, rfl⟩ := exists_of_mem_placed member
  exact each a (List.mem_of_getElem? here) _

theorem Occurrences.Bound.closed {o : Occurrences Place Origin} (h : o.Bound) : o.closed.Bound := by
  intro p member
  exact h p (by simpa [Occurrences.closed] using member)

theorem Occurrences.Bound.asserted {o : Occurrences Place Origin} (h : o.Bound) :
    o.asserted.Bound := by
  intro p member
  apply h p
  simp only [Occurrences.asserted, List.mem_append] at member ⊢
  tauto

theorem Occurrences.Bound.access {o : Occurrences Place Origin} (h : o.Bound) (place : Place) :
    (o.access place).Bound := by
  intro p member
  have cases := h p
  simp only [Occurrences.access, List.mem_append, List.mem_cons, List.not_mem_nil, or_false,
    Origin.access.injEq] at member cases ⊢
  tauto

theorem Node.bound_origins (n : Node) (place : Place) : (n.origins d place).Bound := by
  induction n using Node.induction generalizing place with
  | term t =>
    intro p member
    exact absurd member (t.access_not_mem_origins p)
  | app functor args ih =>
    rw [Node.origins]
    split
    · intro p member
      exact absurd member (Document.access_not_mem_instanceOrigins args p)
    · split
      · apply Occurrences.Bound.access
        cases args with
        | nil => exact bound_empty
        | cons left rest => exact ih left List.mem_cons_self (place ++ [0])
      · rw [Node.originsFrom_eq_placed]
        exact bound_join_placed ih

theorem Expr.bound_goalOrigins (e : Expr) (place : Place) : (e.goalOrigins d place).Bound :=
  (e.node.bound_origins place).closed

theorem Expr.bound_factOrigins (e : Expr) (place : Place) : (e.factOrigins d place).Bound := by
  unfold Expr.factOrigins
  split
  · exact e.bound_goalOrigins place
  · rw [Node.originsFrom_eq_placed]
    exact (bound_join_placed fun n _ p => n.bound_origins p).asserted

theorem Rule.bound_origins (r : Rule) (place : Place) : (r.origins d place).Bound := by
  have body : (Occurrences.join (placed (Expr.goalOrigins d) place 0 r.body)).Bound :=
    bound_join_placed fun e _ p => e.bound_goalOrigins p
  intro p member
  simp only [Rule.origins, List.append_nil, List.mem_append, List.mem_flatMap] at member
  rcases member with ⟨t, _, occurs⟩ | occurs
  · exact absurd occurs (t.access_not_mem_origins p)
  · exact body p (List.mem_append_left _ occurs)

theorem Test.bound_origins (t : Test) (place : Place) : (t.origins d place).Bound := by
  have facts : (Occurrences.join (placed (Expr.factOrigins d) (place ++ [0]) 0 t.facts)).Bound :=
    bound_join_placed fun e _ p => e.bound_factOrigins p
  have checks : (Occurrences.join (placed (Expr.goalOrigins d) (place ++ [1]) 0 t.body)).Bound :=
    bound_join_placed fun e _ p => e.bound_goalOrigins p
  intro p member
  simp only [Test.origins, List.append_nil, List.mem_append] at member ⊢
  rcases member with occurs | occurs | occurs | occurs
  · exact .inl (facts p (List.mem_append_left _ occurs))
  · exact .inr (checks p (List.mem_append_left _ occurs))
  · exact .inl (facts p (List.mem_append_right _ occurs))
  · exact .inl (facts p (List.mem_append_right _ occurs))

theorem Document.bound_origins (d : Document) : ∀ o ∈ d.origins, o.Bound := by
  intro o member
  rcases List.mem_append.mp member with member | member
  · obtain ⟨_, r, _, rfl⟩ := exists_of_mem_placed member
    exact r.bound_origins _
  · obtain ⟨_, t, _, rfl⟩ := exists_of_mem_placed member
    exact t.bound_origins _

end Parts

end Rulebook
