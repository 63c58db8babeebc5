import Obligations.Expr.Basic

/-!
# How expressions are written

An operator application stands in parentheses, a bit vector shows its value before its width, and
the arguments of a function are separated by commas.
-/

namespace Obligations

/-- The text of a constant. -/
def Literal.text : Literal → String
  | .bool b => toString b
  | .bv width value => toString value ++ "bv" ++ toString width
  | .int value => toString value

/-- The sign of an operator on one operand. -/
def UnaryOp.text : UnaryOp → String
  | .not => "!"
  | .neg => "-"

/-- The sign of an operator on two operands. -/
def BinaryOp.text : BinaryOp → String
  | .and => "&&"
  | .or => "||"
  | .implies => "==>"
  | .iff => "<==>"
  | .eq => "=="
  | .neq => "!="
  | .lt => "<"
  | .le => "<="
  | .gt => ">"
  | .ge => ">="
  | .add => "+"
  | .sub => "-"
  | .mul => "*"
  | .div => "div"
  | .mod => "mod"

/-- The items one after the other, with a comma and a space between two of them. -/
def commaSeparated (items : List String) : String := ", ".intercalate items

namespace Expr

/- The texts of an expression and of a list of expressions. -/
mutual

/-- The text of an expression. -/
def text : Expr → String
  | literal v => v.text
  | symbol n => n.text
  | old a => "old(" ++ a.text ++ ")"
  | unary op a => op.text ++ "(" ++ a.text ++ ")"
  | binary op a b => "(" ++ a.text ++ " " ++ op.text ++ " " ++ b.text ++ ")"
  | apply f args => f.text ++ "(" ++ commaSeparated (texts args) ++ ")"

/-- The texts of several expressions. -/
def texts : List Expr → List String
  | [] => []
  | a :: as => a.text :: texts as

end

end Expr

end Obligations
