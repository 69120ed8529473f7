import Rulebook.Parser.Chain
import Rulebook.Proofs.Grammar.Basic

/-!
# Chains and trees

Reading a chain from left to right with `ChainTree.attach` builds the one tree that the grammar
gives it. A tree is `Ordered` if its operators are nested as the grammar asks, and it `Spells` the
tokens of the chain. Attaching keeps both (`Ordered.attach`, `Spells.attach`), and an ordered tree
is what attaching its own operators one after the other gives (`Ordered.foldl_link`).
-/

namespace Rulebook

namespace ChainTree

/-- Operators bind at least as tightly as the level, on the left of an operator at least as tightly
as it does, and on its right more tightly. -/
def Ordered : Nat → ChainTree → Prop
  | _, leaf _ => True
  | level, join op p left right =>
    op.precedence? = some p ∧ level ≤ p ∧ left.Ordered p ∧ right.Ordered (p + 1)

/-- An operator, its precedence and the operand on its right. -/
abbrev Link := Operator × Nat × Node

/-- Attach one more link. -/
def link (tree : ChainTree) (x : Link) : ChainTree := tree.attach x.1 x.2.1 x.2.2

/-- The leftmost operand. -/
def first : ChainTree → Node
  | leaf n => n
  | join _ _ left _ => left.first

/-- The links after the leftmost operand, from left to right. -/
def links : ChainTree → List Link
  | leaf _ => []
  | join op p left right => left.links ++ (op, p, right.first) :: right.links

theorem Ordered.attach {op : Operator} {p level : Nat} {tree : ChainTree} (n : Node)
    (binds : op.precedence? = some p) (h : tree.Ordered level) (le : level ≤ p) :
    (tree.attach op p n).Ordered level := by
  induction tree generalizing level with
  | leaf _ => exact ⟨binds, le, trivial, trivial⟩
  | join root q left right _ ih =>
    rcases h with ⟨hq, hle, hl, hr⟩
    unfold ChainTree.attach
    split
    · rename_i lt
      exact ⟨hq, hle, hl, ih hr (by omega)⟩
    · rename_i ge
      exact ⟨binds, le, ⟨hq, by omega, hl, hr⟩, trivial⟩

/-- The links of an ordered tree bind at least as tightly as its level. -/
theorem Ordered.le_of_mem_links {level : Nat} {tree : ChainTree} (h : tree.Ordered level) :
    ∀ x ∈ tree.links, level ≤ x.2.1 := by
  induction tree generalizing level with
  | leaf _ => simp [links]
  | join op p left right ihl ihr =>
    rcases h with ⟨_, le, hl, hr⟩
    intro x hx
    rcases List.mem_append.mp hx with hx | hx
    · exact Nat.le_trans le (ihl hl x hx)
    · rcases List.mem_cons.mp hx with rfl | hx
      · exact le
      · have := ihr hr x hx
        omega

/-- Links that bind more tightly than the operator at the root stay on its right. -/
theorem foldl_link_join {op : Operator} {p : Nat} (left : ChainTree) {xs : List Link}
    (tighter : ∀ x ∈ xs, p < x.2.1) (right : ChainTree) :
    xs.foldl link (join op p left right) = join op p left (xs.foldl link right) := by
  induction xs generalizing right with
  | nil => rfl
  | cons x xs ih =>
    have one : link (join op p left right) x = join op p left (link right x) := by
      simp [link, ChainTree.attach, tighter x (by simp)]
    rw [List.foldl_cons, one, ih (fun y hy => tighter y (by simp [hy])), List.foldl_cons]

/-- An operator goes above a tree that binds at least as tightly. -/
theorem Ordered.link_eq_join {p : Nat} {tree : ChainTree} (h : tree.Ordered p) (op : Operator)
    (n : Node) : tree.link (op, p, n) = join op p tree (leaf n) := by
  cases tree with
  | leaf _ => rfl
  | join root q left right =>
    have le : ¬ q < p := by
      have := h.2.1
      omega
    simp [link, ChainTree.attach, le]

/-- An ordered tree is what attaching its links gives. -/
theorem Ordered.foldl_link {level : Nat} {tree : ChainTree} (h : tree.Ordered level) :
    tree.links.foldl link (leaf tree.first) = tree := by
  induction tree generalizing level with
  | leaf _ => rfl
  | join op p left right ihl ihr =>
    rcases h with ⟨_, _, hl, hr⟩
    have tighter : ∀ x ∈ right.links, p < x.2.1 := fun x hx => hr.le_of_mem_links x hx
    calc (left.links ++ (op, p, right.first) :: right.links).foldl link (leaf left.first)
        = right.links.foldl link (left.link (op, p, right.first)) := by
          rw [List.foldl_append, ihl hl, List.foldl_cons]
      _ = right.links.foldl link (join op p left (leaf right.first)) := by
          rw [hl.link_eq_join]
      _ = join op p left right := by rw [foldl_link_join left tighter, ihr hr]

section Tokens

variable {operand : List Token → Node → Prop}

/-- The tokens of a tree, from left to right, with those of its operands. -/
inductive Spells (operand : List Token → Node → Prop) : List Token → ChainTree → Prop
  | leaf {ts : List Token} {n : Node} : operand ts n → Spells operand ts (.leaf n)
  | join {ts us : List Token} {t : Token} {op : Operator} {p : Nat} {left right : ChainTree} :
      Spells operand ts left → t.kind = .operator op → Spells operand us right →
      Spells operand (ts ++ t :: us) (.join op p left right)

/-- The tokens of links. -/
inductive SpellsLinks (operand : List Token → Node → Prop) : List Token → List Link → Prop
  | nil : SpellsLinks operand [] []
  | cons {ts us : List Token} {t : Token} {op : Operator} {p : Nat} {n : Node} {xs : List Link} :
      t.kind = .operator op → op.precedence? = some p → operand ts n →
      SpellsLinks operand us xs → SpellsLinks operand (t :: (ts ++ us)) ((op, p, n) :: xs)

theorem Spells.attach {ts us : List Token} {t : Token} {op : Operator} {n : Node} {tree : ChainTree}
    (p : Nat) (h : Spells operand ts tree) (ht : t.kind = .operator op) (hn : operand us n) :
    Spells operand (ts ++ t :: us) (tree.attach op p n) := by
  induction h with
  | leaf hm => exact .join (.leaf hm) ht (.leaf hn)
  | @join ts₁ ts₂ t₀ root q left right hl h₀ hr _ ihr =>
    unfold ChainTree.attach
    split
    · rw [List.append_assoc, List.cons_append]
      exact .join hl h₀ ihr
    · exact .join (.join hl h₀ hr) ht (.leaf hn)

theorem SpellsLinks.append {ts us : List Token} {xs ys : List Link}
    (h : SpellsLinks operand ts xs) (k : SpellsLinks operand us ys) :
    SpellsLinks operand (ts ++ us) (xs ++ ys) := by
  induction h with
  | nil => exact k
  | cons ht hp hn _ ih =>
    simp only [List.cons_append, List.append_assoc]
    exact .cons ht hp hn ih

/-- The tokens of a tree are those of its leftmost operand, then those of its links. -/
theorem Spells.split {ts : List Token} {tree : ChainTree} {level : Nat}
    (h : Spells operand ts tree) (ordered : tree.Ordered level) :
    ∃ us vs, ts = us ++ vs ∧ operand us tree.first ∧ SpellsLinks operand vs tree.links := by
  induction h generalizing level with
  | leaf hn => exact ⟨_, [], by simp, hn, .nil⟩
  | join _ ht _ ihl ihr =>
    rcases ordered with ⟨hp, _, hl, hr⟩
    obtain ⟨us, vs, rfl, hfirst, hlinks⟩ := ihl hl
    obtain ⟨us', vs', rfl, hfirst', hlinks'⟩ := ihr hr
    exact ⟨us, vs ++ _, List.append_assoc .., hfirst, hlinks.append (.cons ht hp hfirst' hlinks')⟩

end Tokens

end ChainTree

namespace Grammar

open ChainTree (Spells)

/-- An operand whose names are resolved: a literal, or a chain in parentheses. -/
inductive Operand (scope : Table FieldType) : List Token → Node → Prop
  | literal {t : Token} {v : Term} : Literal t v → Operand scope [t] (.term (v.resolve scope))
  | group {l r : Token} {ts : List Token} {n : Node} :
      l.kind = .delimiter .leftParen → Chain 0 ts n → r.kind = .delimiter .rightParen →
      Operand scope (l :: ts ++ [r]) (n.resolve scope)

/-- An ordered tree stands for the chain of its tokens. -/
theorem chain_of_spells {scope : Table FieldType} {ts : List Token} {tree : ChainTree} {level : Nat}
    (h : Spells (Operand scope) ts tree) (ordered : tree.Ordered level) :
    ∃ n, Chain level ts n ∧ n.resolve scope = tree.node := by
  induction h generalizing level with
  | leaf hn =>
    cases hn with
    | literal hv => exact ⟨_, .literal hv, rfl⟩
    | group hl hc hr => exact ⟨_, .group hl hc hr, rfl⟩
  | join _ ht _ ihl ihr =>
    rcases ordered with ⟨hp, le, hl, hr⟩
    obtain ⟨n, hn, en⟩ := ihl hl
    obtain ⟨m, hm, em⟩ := ihr hr
    refine ⟨_, .join hp le hn ht hm, ?_⟩
    simp [Node.resolve, Node.resolveAll, ChainTree.node, en, em]

/-- Every chain has an ordered tree. -/
theorem spells_of_chain (scope : Table FieldType) {ts : List Token} {n : Node} {level : Nat}
    (h : Chain level ts n) :
    ∃ tree, Spells (Operand scope) ts tree ∧ tree.Ordered level ∧ tree.node = n.resolve scope := by
  induction h with
  | literal hv => exact ⟨.leaf _, .leaf (.literal hv), trivial, rfl⟩
  | group hl hc hr _ => exact ⟨.leaf _, .leaf (.group hl hc hr), trivial, rfl⟩
  | join hp le _ ht _ ihl ihr =>
    rcases ihl with ⟨left, sl, ol, el⟩
    rcases ihr with ⟨right, sr, or, er⟩
    refine ⟨.join _ _ left right, .join sl ht sr, ⟨hp, le, ol, or⟩, ?_⟩
    simp [Node.resolve, Node.resolveAll, ChainTree.node, el, er]

theorem operand_ne_nil {scope : Table FieldType} {ts : List Token} {n : Node}
    (h : Operand scope ts n) : ts ≠ [] := by
  cases h <;> simp

theorem length_links_le {scope : Table FieldType} {ts : List Token} {xs : List ChainTree.Link}
    (h : ChainTree.SpellsLinks (Operand scope) ts xs) : xs.length ≤ ts.length := by
  induction h with
  | nil => simp
  | cons _ _ _ _ ih =>
    simp only [List.length_cons, List.length_append]
    omega

end Grammar

end Rulebook
