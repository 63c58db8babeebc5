import Obligations.Expr.Printer

/-!
# Evaluation

A valuation gives values to names, to names on entry, and to applications of functions; an
expression then has a value or there is a reason why not. The connectives decide by their left
operand where it suffices, division is Euclidean (the remainder is never negative), and equality is
defined between two values of one kind.
-/

namespace Obligations

/-- A value of an expression. -/
inductive Value where
  /-- An integer. -/
  | int (value : Int)
  /-- A truth value. -/
  | bool (value : Bool)
deriving DecidableEq, Repr, Inhabited

namespace Value

/-- The truth value, if the value is one. -/
def asBool? : Value → Option Bool
  | bool b => some b
  | int _ => none

/-- The integer, if the value is one. -/
def asInt? : Value → Option Int
  | int i => some i
  | bool _ => none

/-- The literal that denotes the value. -/
def toExpr : Value → Expr
  | int i => .int i
  | bool b => .bool b

/-- The text of a value. -/
def text : Value → String
  | int i => toString i
  | bool b => toString b

/-- Whether two values are both integers or both truth values. -/
def sameKind : Value → Value → Bool
  | int _, int _ => true
  | bool _, bool _ => true
  | _, _ => false

end Value

/-- Why an expression has no value. -/
inductive EvalError where
  /-- A name has no value. -/
  | unbound (name : Name)
  /-- A name has no value on entry. -/
  | unboundOnEntry (name : Name)
  /-- A function has no value on the arguments. -/
  | uninterpreted (function : Name)
  /-- An operator is applied to values of a wrong kind. -/
  | illTyped (application : Expr)
  /-- A divisor is zero. -/
  | divisionByZero
  /-- A bit vector occurs. -/
  | bitVector
deriving DecidableEq, Repr

/-- The text that reports the reason. -/
def EvalError.message : EvalError → String
  | unbound n => "no value for `" ++ n.text ++ "`"
  | unboundOnEntry n => "no value for `old(" ++ n.text ++ ")`"
  | uninterpreted f => "no interpretation for this application of `" ++ f.text ++ "`"
  | illTyped e => "ill-typed operands in `" ++ e.text ++ "`"
  | divisionByZero => "division by zero"
  | bitVector => "bit-vector values are not supported"

/-- Where evaluation finds the values of names and of applications. -/
structure Valuation where
  /-- The value of a name in the state at hand. -/
  symbol : Name → Option Value
  /-- The value of a name on entry. -/
  onEntry : Name → Option Value := fun _ => none
  /-- The value of a function on arguments. -/
  application : Name → List Value → Option Value := fun _ _ => none

/-- The value that a name has at a moment. -/
def Valuation.read (v : Valuation) : Moment → Name → Except EvalError Value
  | .current, n => (v.symbol n).elim (.error (.unbound n)) .ok
  | .entry, n => (v.onEntry n).elim (.error (.unboundOnEntry n)) .ok

/-- The value of an application that its left operand alone decides. -/
def BinaryOp.decidedBy? : BinaryOp → Value → Option Value
  | .and, .bool false => some (.bool false)
  | .or, .bool true => some (.bool true)
  | .implies, .bool false => some (.bool true)
  | _, _ => none

/-- The value of an application whose left operand alone does not decide it; `wrongKind` is the
answer for operands of a wrong kind. -/
def BinaryOp.apply (wrongKind : EvalError) : BinaryOp → Value → Value → Except EvalError Value
  | .and, .bool _, .bool b => .ok (.bool b)
  | .or, .bool _, .bool b => .ok (.bool b)
  | .implies, .bool _, .bool b => .ok (.bool b)
  | .eq, a, b => if a.sameKind b then .ok (.bool (a = b)) else .error wrongKind
  | .iff, a, b => if a.sameKind b then .ok (.bool (a = b)) else .error wrongKind
  | .neq, a, b => if a.sameKind b then .ok (.bool (a ≠ b)) else .error wrongKind
  | .lt, .int a, .int b => .ok (.bool (a < b))
  | .le, .int a, .int b => .ok (.bool (a ≤ b))
  | .gt, .int a, .int b => .ok (.bool (b < a))
  | .ge, .int a, .int b => .ok (.bool (b ≤ a))
  | .add, .int a, .int b => .ok (.int (a + b))
  | .sub, .int a, .int b => .ok (.int (a - b))
  | .mul, .int a, .int b => .ok (.int (a * b))
  | .div, .int a, .int b => if b = 0 then .error .divisionByZero else .ok (.int (a / b))
  | .mod, .int a, .int b => if b = 0 then .error .divisionByZero else .ok (.int (a % b))
  | _, _, _ => .error wrongKind

/-- The value of an operator on one operand. -/
def UnaryOp.apply (wrongKind : EvalError) : UnaryOp → Value → Except EvalError Value
  | .not, .bool b => .ok (.bool !b)
  | .neg, .int i => .ok (.int (-i))
  | _, _ => .error wrongKind

namespace Expr

/- Evaluation at a moment, of an expression and of a list of arguments. -/
mutual

/-- The value of an expression whose names are read at a moment. -/
def evalAt (v : Valuation) (t : Moment) : Expr → Except EvalError Value
  | literal (.bool b) => .ok (.bool b)
  | literal (.int i) => .ok (.int i)
  | literal (.bv _ _) => .error .bitVector
  | symbol n => v.read t n
  | old a => a.evalAt v .entry
  | unary op a => do
    let x ← a.evalAt v t
    op.apply (.illTyped (unary op a)) x
  | binary op a b => do
    let x ← a.evalAt v t
    match op.decidedBy? x with
    | some r => .ok r
    | none => do
      let y ← b.evalAt v t
      op.apply (.illTyped (binary op a b)) x y
  | apply f args => do
    let xs ← evalAllAt v t args
    (v.application f xs).elim (.error (.uninterpreted f)) .ok

/-- The values of several expressions, evaluated from left to right. -/
def evalAllAt (v : Valuation) (t : Moment) : List Expr → Except EvalError (List Value)
  | [] => .ok []
  | a :: as => do
    let x ← a.evalAt v t
    let xs ← evalAllAt v t as
    return x :: xs

end

/-- The value of an expression in the state at hand. -/
def eval (e : Expr) (v : Valuation) : Except EvalError Value := e.evalAt v .current

end Expr

end Obligations
