import Obligations.Name

/-!
# Expressions

Terms and formulas are one type, `Expr`. An expression reads the current value of a name, or, under
`old`, the value on entry to the procedure; `Moment` tells the two apart, and `Expr.reads` lists
what an expression reads at which moment. The simplifying connectives at the end fold the literals
`true` and `false` away and do nothing else.

Two expressions are compared as trees: `Expr.beq_iff` makes the comparison decidable.
-/

namespace Obligations

/-- A constant. -/
inductive Literal where
  /-- A truth value. -/
  | bool (value : Bool)
  /-- A bit vector of a width. -/
  | bv (width : Nat) (value : Int)
  /-- An unbounded integer. -/
  | int (value : Int)
deriving DecidableEq, Repr, Inhabited

/-- An operator on one operand. -/
inductive UnaryOp where
  /-- Logical negation. -/
  | not
  /-- Arithmetic negation. -/
  | neg
deriving DecidableEq, Repr

/-- An operator on two operands. -/
inductive BinaryOp where
  | and | or | implies | iff | eq | neq | lt | le | gt | ge | add | sub | mul | div | mod
deriving DecidableEq, Repr

/-- A term or a formula. -/
inductive Expr where
  /-- A constant. -/
  | literal (value : Literal)
  /-- A variable or one of its incarnations. -/
  | symbol (name : Name)
  /-- The value of the operand on entry to the procedure. -/
  | old (operand : Expr)
  /-- An operator on one operand. -/
  | unary (op : UnaryOp) (operand : Expr)
  /-- An operator on two operands. -/
  | binary (op : BinaryOp) (left right : Expr)
  /-- An application of an uninterpreted function. -/
  | apply (function : Name) (args : List Expr)
deriving Repr, Inhabited

namespace Expr

/-! ## Equality -/

/- Equality of expressions and of lists of expressions as trees. -/
mutual

/-- Whether two expressions are the same tree. -/
def beq : Expr → Expr → Bool
  | literal v, literal w => v = w
  | symbol n, symbol m => n = m
  | old a, old b => beq a b
  | unary o a, unary p b => o = p && beq a b
  | binary o a b, binary p c d => o = p && beq a c && beq b d
  | apply f as, apply g bs => f = g && beqAll as bs
  | _, _ => false

/-- Whether two lists of expressions agree position by position. -/
def beqAll : List Expr → List Expr → Bool
  | [], [] => true
  | a :: as, b :: bs => beq a b && beqAll as bs
  | _, _ => false

end

mutual

/-- The comparison of trees is equality. -/
theorem beq_iff : ∀ a b : Expr, beq a b = true ↔ a = b
  | literal v, b => by cases b <;> simp [beq]
  | symbol n, b => by cases b <;> simp [beq]
  | old a, b => by cases b <;> simp [beq, beq_iff a]
  | unary o a, b => by cases b <;> simp [beq, beq_iff a]
  | binary o a c, b => by cases b <;> simp [beq, beq_iff a, beq_iff c, and_assoc]
  | apply f as, b => by cases b <;> simp [beq, beqAll_iff as]

/-- The comparison of lists of trees is equality. -/
theorem beqAll_iff : ∀ as bs : List Expr, beqAll as bs = true ↔ as = bs
  | [], bs => by cases bs <;> simp [beqAll]
  | a :: as, bs => by cases bs <;> simp [beqAll, beq_iff a, beqAll_iff as]

end

instance : DecidableEq Expr := fun a b => decidable_of_iff _ (beq_iff a b)

/-! ## Building expressions -/

/-- The literal of a truth value. -/
def bool (b : Bool) : Expr := literal (.bool b)

/-- The literal of an integer. -/
def int (i : Int) : Expr := literal (.int i)

/-- The negation of a formula. -/
def not (e : Expr) : Expr := unary .not e

/-! ## Questions about an expression -/

/-- Whether the expression is the literal `true`. -/
def isTrue (e : Expr) : Bool := e = bool true

/-- Whether the expression is the literal `false`. -/
def isFalse (e : Expr) : Bool := e = bool false

/-- Whether the expression is a literal. -/
def isLiteral : Expr → Bool
  | literal _ => true
  | _ => false

/-- The name that the expression consists of, if it is a single name. -/
def asSymbol? : Expr → Option Name
  | symbol n => some n
  | _ => none

/- The subexpressions of an expression, each before its parts, from left to right. -/
mutual

/-- The expression itself and all its parts, each before its own parts, from left to right. -/
def subexprs : Expr → List Expr
  | literal v => [literal v]
  | symbol n => [symbol n]
  | old a => old a :: a.subexprs
  | unary op a => unary op a :: a.subexprs
  | binary op a b => binary op a b :: (a.subexprs ++ b.subexprs)
  | apply f args => apply f args :: subexprsAll args

/-- The parts of several expressions in turn. -/
def subexprsAll : List Expr → List Expr
  | [] => []
  | a :: as => a.subexprs ++ subexprsAll as

end

/-- The function that the expression applies at its root. -/
def head? : Expr → Option Name
  | apply f _ => some f
  | _ => none

/-- The applications of a function in an expression, each once, in order of first occurrence. -/
def applicationsOf (e : Expr) (f : Name) : List Expr :=
  (e.subexprs.filter fun a => a.head? = some f).eraseDups

/-- The functions applied in an expression, each once, in order of first occurrence. -/
def functions (e : Expr) : List Name := (e.subexprs.filterMap head?).eraseDups

end Expr

/-! ## What an expression reads -/

/-- The moment whose values an expression reads: the state at hand, or, under `old`, the state on
entry to the procedure. -/
inductive Moment where
  | current
  | entry
deriving DecidableEq, Repr

namespace Expr

/- The names an expression reads, with the moment at which it reads them. -/
mutual

/-- What an expression read at a given moment reads, in order of occurrence. -/
def readsAt (t : Moment) : Expr → List (Moment × Name)
  | literal _ => []
  | symbol n => [(t, n)]
  | old a => a.readsAt .entry
  | unary _ a => a.readsAt t
  | binary _ a b => a.readsAt t ++ b.readsAt t
  | apply _ args => readsAllAt t args

/-- What several expressions read in turn. -/
def readsAllAt (t : Moment) : List Expr → List (Moment × Name)
  | [] => []
  | a :: as => a.readsAt t ++ readsAllAt t as

end

/-- The names an expression reads at a moment, in order of occurrence. -/
def namesAt (e : Expr) (t : Moment) : List Name :=
  (e.readsAt .current).filterMap fun r => if r.1 = t then some r.2 else none

/-- The names that occur outside of any `old`. -/
def currentNames (e : Expr) : List Name := e.namesAt .current

/-- The names that occur under some `old`. -/
def entryNames (e : Expr) : List Name := e.namesAt .entry

/-- The names that occur anywhere. -/
def names (e : Expr) : List Name := (e.readsAt .current).map (·.2)

/-! ## Simplifying connectives -/

/-- The conjunction of two formulas without literal `true` or `false` conjuncts. -/
def conj (a b : Expr) : Expr :=
  if a.isTrue || b.isFalse then b
  else if b.isTrue || a.isFalse then a
  else binary .and a b

/-- The disjunction of two formulas without literal `true` or `false` disjuncts. -/
def disj (a b : Expr) : Expr :=
  if a.isFalse || b.isTrue then b
  else if b.isFalse || a.isTrue then a
  else binary .or a b

/-- The implication between two formulas, without literal `true` or `false` on either side. -/
def impl (a b : Expr) : Expr :=
  if a.isTrue then b
  else if a.isFalse || b.isTrue then bool true
  else if b.isFalse then a.not
  else binary .implies a b

/-- The conjunction of all formulas of a list, `true` if it is empty. -/
def conjAll (es : List Expr) : Expr := es.foldl conj (bool true)

/-- The disjunction of all formulas of a list, `false` if it is empty. -/
def disjAny (es : List Expr) : Expr := es.foldl disj (bool false)

end Expr

end Obligations
