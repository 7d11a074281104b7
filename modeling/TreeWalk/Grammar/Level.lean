import TreeWalk.Tree

/-!
# Levels of operators

The operators of two operands form a ladder of levels. An operand of a level is
tighter than the level; operators of one level group to the left.
-/

namespace TreeWalk.Grammar

/-- The operators of two operands, from the loosest to the tightest. -/
inductive Level
  | or
  | and
  | equality
  | comparison
  | term
  | factor
  deriving DecidableEq

namespace Level

/-- The operators of a level. -/
def operators : Level → List TokenKind
  | .or => [.orWord]
  | .and => [.andWord]
  | .equality => [.bangEqual, .equalEqual]
  | .comparison => [.greater, .greaterEqual, .less, .lessEqual]
  | .term => [.minus, .plus]
  | .factor => [.slash, .star]

/-- The next tighter level; the operands of a factor are no operations of a level. -/
def tighter : Level → Option Level
  | .or => some .and
  | .and => some .equality
  | .equality => some .comparison
  | .comparison => some .term
  | .term => some .factor
  | .factor => none

/-- The operation of a level. The two loosest do not always evaluate their right
operand. -/
def node (level : Level) (left : Expr) (operator : Token) (right : Expr) : Expr :=
  match level with
  | .or | .and => .logical left operator right
  | _ => .binary left operator right

end Level

end TreeWalk.Grammar
