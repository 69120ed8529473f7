import Rulebook.Proofs.Grammar.Chain

/-!
# Precedence climbing

The textbook way to read a chain. From an operand on, as long as an operator follows that binds at
least as tightly as the level asks, everything that binds more tightly than the operator is read
first and becomes its right side; then reading goes on from the joined node. `ChainTree.attach` works
the other way round, along the right side of the tree that is there so far. Both give every chain
the same node.
-/

namespace Rulebook

namespace Climb

/-- An operator and the operand on its right. -/
abbrev Step := Operator × Node

/-- A node read from the front of some steps, and the steps that are left. -/
structure Front (steps : List Step) where
  node : Node
  rest : List Step
  le : rest.length ≤ steps.length

/-- Go on from the node on the left as long as operators bind at least as tightly as the level. -/
def climb (level : Nat) (left : Node) : (steps : List Step) → Front steps
  | [] => ⟨left, [], Nat.le_refl _⟩
  | (op, operand) :: steps =>
    match op.precedence? with
    | none => ⟨left, (op, operand) :: steps, Nat.le_refl _⟩
    | some p =>
      if level ≤ p then
        let right := climb (p + 1) operand steps
        let whole := climb level (.app op.spelling [left, right.node]) right.rest
        ⟨whole.node, whole.rest, Nat.le_succ_of_le (Nat.le_trans whole.le right.le)⟩
      else ⟨left, (op, operand) :: steps, Nat.le_refl _⟩
termination_by steps => steps.length
decreasing_by
  · exact Nat.lt_succ_self _
  · exact Nat.lt_succ_of_le right.le

end Climb

namespace ChainTree

/-- What stands in a chain. -/
inductive Item where
  | operand (n : Node)
  | operator (op : Operator)

/-- Operands and operators from left to right; operands are not entered. -/
def inOrder : ChainTree → List Item
  | leaf n => [.operand n]
  | join op _ left right => left.inOrder ++ .operator op :: right.inOrder

theorem inOrder_attach (op : Operator) (p : Nat) (n : Node) (tree : ChainTree) :
    (tree.attach op p n).inOrder = tree.inOrder ++ [.operator op, .operand n] := by
  induction tree with
  | leaf _ => rfl
  | join root q left right _ ih =>
    unfold attach
    by_cases looser : q < p
    · rw [if_pos looser, inOrder, ih, inOrder, List.append_assoc, List.cons_append]
    · rw [if_neg looser]
      rfl

theorem inOrder_foldl_link (links : List Link) (tree : ChainTree) :
    (links.foldl link tree).inOrder =
      tree.inOrder ++ links.flatMap fun x => [.operator x.1, .operand x.2.2] := by
  induction links generalizing tree with
  | nil => simp
  | cons x links ih =>
    rw [List.foldl_cons, ih, link, inOrder_attach, List.flatMap_cons, List.append_assoc]

/-- The operator at the root, if there is one, binds at least as tightly as the first of the links,
so that the first link goes above it. -/
def Fits : ChainTree → List Link → Prop
  | join _ q _ _, x :: _ => x.2.1 ≤ q
  | _, _ => True

theorem Fits.link_eq {tree : ChainTree} {op : Operator} {p : Nat} {n : Node} {links : List Link}
    (fits : tree.Fits ((op, p, n) :: links)) :
    tree.link (op, p, n) = join op p tree (leaf n) := by
  cases tree with
  | leaf _ => rfl
  | join root q left right =>
    have le : p ≤ q := fits
    show attach op p n _ = _
    rw [attach, if_neg (Nat.not_lt.mpr le)]

end ChainTree

namespace Climb

open ChainTree

/-- A link without its precedence. -/
def step (x : Link) : Step := (x.1, x.2.2)

variable {level p : Nat} {op : Operator} {operand : Node}

/-- An operator that binds tightly enough takes what binds more tightly as its right side. -/
theorem climb_of_le (binds : op.precedence? = some p) (le : level ≤ p) (left : Node)
    (steps : List Step) :
    (climb level left ((op, operand) :: steps)).node =
      (climb level (.app op.spelling [left, (climb (p + 1) operand steps).node])
        (climb (p + 1) operand steps).rest).node ∧
    (climb level left ((op, operand) :: steps)).rest =
      (climb level (.app op.spelling [left, (climb (p + 1) operand steps).node])
        (climb (p + 1) operand steps).rest).rest := by
  rw [climb, binds]
  simp only [if_pos le, and_self]

/-- An operator that does not bind tightly enough ends the node. -/
theorem climb_of_lt (binds : op.precedence? = some p) (lt : p < level) (left : Node)
    (steps : List Step) :
    (climb level left ((op, operand) :: steps)).node = left ∧
    (climb level left ((op, operand) :: steps)).rest = (op, operand) :: steps := by
  rw [climb, binds]
  simp only [if_neg (Nat.not_le.mpr lt), and_self]

/-- What is read of links from a tree on: some links from the front that all bind at least as tightly
as the level, up to one that does not. The node is that of the tree with these links attached. -/
structure Takes (level : Nat) (tree : ChainTree) (links : List Link) (node : Node)
    (rest : List Step) (taken after : List Link) : Prop where
  all : links = taken ++ after
  tight : ∀ x ∈ taken, level ≤ x.2.1
  stops : ∀ x ∈ after.head?, x.2.1 < level
  node : node = (taken.foldl link tree).node
  rest : rest = after.map step

/-- What is left over goes above the operator that stopped before it. -/
theorem Takes.fits_join {tree : ChainTree} {links taken after : List Link} {node : Node}
    {rest : List Step} (takes : Takes (p + 1) tree links node rest taken after)
    (left : ChainTree) {right : ChainTree} : (ChainTree.join op p left right).Fits after := by
  cases after with
  | nil => trivial
  | cons x after => exact Nat.lt_succ_iff.mp (takes.stops x rfl)

/-- One round of climbing. What the operator takes as its right side binds more tightly, so it is
attached below the operator. -/
theorem Takes.join {tree : ChainTree} {links inner after taken last : List Link}
    {right whole : Node} {restRight restWhole : List Step} (le : level ≤ p)
    (fits : tree.Fits ((op, p, operand) :: links))
    (first : Takes (p + 1) (.leaf operand) links right restRight inner after)
    (later : Takes level (.join op p tree (inner.foldl link (.leaf operand))) after whole restWhole
      taken last) :
    Takes level tree ((op, p, operand) :: links) whole restWhole
      ((op, p, operand) :: inner ++ taken) last := by
  constructor
  case all => rw [first.all, later.all, List.cons_append, List.cons_append, List.append_assoc]
  case tight =>
    intro x member
    rcases List.mem_append.mp member with member | member
    · rcases List.mem_cons.mp member with rfl | member
      · exact le
      · have := first.tight x member
        omega
    · exact later.tight x member
  case stops => exact later.stops
  case node =>
    have below := @foldl_link_join op p tree inner first.tight (.leaf operand)
    rw [later.node, List.foldl_append, List.foldl_cons, fits.link_eq, below]
  case rest => exact later.rest

/-- Climbing from the node of a tree reads links as attaching them to the tree does. -/
theorem exists_takes (level : Nat) (tree : ChainTree) {links : List Link}
    (binds : ∀ x ∈ links, x.1.precedence? = some x.2.1) (fits : tree.Fits links) :
    ∃ taken after, Takes level tree links (climb level tree.node (links.map step)).node
      (climb level tree.node (links.map step)).rest taken after := by
  match links with
  | [] =>
    rw [List.map_nil, climb]
    exact ⟨[], [], rfl, nofun, nofun, rfl, rfl⟩
  | (op, p, operand) :: links =>
    rw [List.forall_mem_cons] at binds
    have here : op.precedence? = some p := binds.1
    show ∃ taken after, Takes level tree ((op, p, operand) :: links)
      (climb level tree.node ((op, operand) :: links.map step)).node
      (climb level tree.node ((op, operand) :: links.map step)).rest taken after
    by_cases le : level ≤ p
    · obtain ⟨node, rest⟩ := @climb_of_le level p op operand here le tree.node (links.map step)
      obtain ⟨inner, after, first⟩ := exists_takes (p + 1) (.leaf operand) binds.2 trivial
      have joined : .app op.spelling [tree.node, (climb (p + 1) operand (links.map step)).node] =
          (ChainTree.join op p tree (inner.foldl link (.leaf operand))).node := by
        rw [ChainTree.node, ← first.node]
        rfl
      have shorter : after.length ≤ links.length := by simp [first.all]
      have bindsAfter : ∀ x ∈ after, x.1.precedence? = some x.2.1 := by
        intro x member
        exact binds.2 x (by simp [first.all, member])
      obtain ⟨taken, last, later⟩ := exists_takes level _ bindsAfter (first.fits_join tree)
      rw [← joined, ← first.rest] at later
      rw [node, rest]
      exact ⟨_, _, first.join le fits later⟩
    · obtain ⟨node, rest⟩ :=
        @climb_of_lt level p op operand here (Nat.not_le.mp le) tree.node (links.map step)
      refine ⟨[], _, rfl, nofun, ?_, node, rest⟩
      intro x first
      cases first
      exact Nat.not_le.mp le
termination_by links.length

end Climb

namespace ChainTree

/-- Attaching the operators of a chain one after the other gives the node that precedence climbing
gives, which leaves nothing of the chain unread. The tree holds the operands and the operators of the
chain in their order, and every operand, also a group, is a leaf of it. -/
theorem attach_climbs (first : Node) {links : List Link}
    (binds : ∀ x ∈ links, x.1.precedence? = some x.2.1) :
    (links.foldl link (.leaf first)).node = (Climb.climb 0 first (links.map Climb.step)).node ∧
    (Climb.climb 0 first (links.map Climb.step)).rest = [] ∧
    (links.foldl link (.leaf first)).inOrder =
      .operand first :: links.flatMap fun x => [.operator x.1, .operand x.2.2] := by
  obtain ⟨taken, after, takes⟩ := Climb.exists_takes 0 (.leaf first) binds trivial
  -- Every operator binds at least as tightly as level zero asks.
  have none : after = [] := by
    cases after with
    | nil => rfl
    | cons x after => exact absurd (takes.stops x rfl) (Nat.not_lt_zero _)
  have whole : links = taken := by rw [takes.all, none, List.append_nil]
  refine ⟨?_, ?_, inOrder_foldl_link links (.leaf first)⟩
  · subst whole
    exact takes.node.symm
  · exact takes.rest.trans (by rw [none, List.map_nil])

/-- `a - (b == c) * d.e - f`: the group stays whole, and the two differences group to the left. -/
theorem attach_climbs_mixed :
    ∃ links : List Link,
      links = [(.minus, 4, .app "==" [.term (.ident "b"), .term (.ident "c")]),
        (.star, 5, .term (.ident "d")), (.dot, 6, .term (.ident "e")),
        (.minus, 4, .term (.ident "f"))] ∧
      (∀ x ∈ links, x.1.precedence? = some x.2.1) ∧
      (Climb.climb 0 (.term (.ident "a")) (links.map Climb.step)).node =
        .app "-" [.app "-" [.term (.ident "a"),
          .app "*" [.app "==" [.term (.ident "b"), .term (.ident "c")],
            .app "." [.term (.ident "d"), .term (.ident "e")]]], .term (.ident "f")] ∧
      (Climb.climb 0 (.term (.ident "a")) (links.map Climb.step)).rest = [] := by
  refine ⟨_, rfl, by decide, ?_, ?_⟩
  · exact (attach_climbs _ (by decide)).1.symm
  · exact (attach_climbs _ (by decide)).2.1

end ChainTree

end Rulebook
