import Rulebook.Expr
import Rulebook.Token.Basic

/-!
# Operator chains

A chain `a₀ op₁ a₁ … opₙ aₙ` is read from left to right into a tree. Each operator joins what is on
its left, as far as that binds at least as tightly, with the operand on its right.
-/

namespace Rulebook

/-- A tree of joined operands. An operand, also a group in parentheses, is a leaf and stays whole. -/
inductive ChainTree where
  | leaf (node : Node)
  | join (op : Operator) (precedence : Nat) (left right : ChainTree)
  deriving Repr

namespace ChainTree

/-- Join one more operand. An operator at the root that binds less tightly keeps its left side and
gives up the right one to the new operator. -/
def attach (op : Operator) (precedence : Nat) (operand : Node) : ChainTree → ChainTree
  | leaf node => join op precedence (leaf node) (leaf operand)
  | join root p left right =>
    if p < precedence then join root p left (attach op precedence operand right)
    else join op precedence (join root p left right) (leaf operand)

/-- The expression that the tree stands for. -/
def node : ChainTree → Node
  | leaf node => node
  | join op _ left right => .app op.spelling [left.node, right.node]

end ChainTree

end Rulebook
