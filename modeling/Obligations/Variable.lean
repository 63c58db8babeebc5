import Obligations.Ty
import Obligations.Expr.Printer

/-!
# Declarations

Variables, and the uninterpreted functions that formulas apply.
-/

namespace Obligations

/-- Where a variable is declared. -/
inductive VariableKind where
  /-- Shared by all procedures. -/
  | global
  /-- An input of a procedure. -/
  | input
  /-- An output of a procedure. -/
  | output
  /-- Local to a body or to a scope in it. -/
  | local
  /-- One of the versions of another variable, with its number. -/
  | incarnation (of : Name) (sequence : Nat)
deriving DecidableEq, Repr

/-- A named, typed storage location. -/
structure Variable where
  /-- Its name. -/
  name : Name
  /-- The type of its values. -/
  ty : Ty
  /-- A condition that holds whenever the variable gets an arbitrary value. -/
  whereClause : Option Expr
  /-- Where it is declared. -/
  kind : VariableKind
deriving Repr

/-- Whether the variable is a version of another one. -/
def Variable.isIncarnation (v : Variable) : Bool :=
  match v.kind with
  | .incarnation _ _ => true
  | _ => false

/-- The declaration of a variable as it is written, without a keyword. -/
def Variable.text (v : Variable) : String :=
  v.name.text ++ ": " ++ v.ty.text ++
    match v.whereClause with
    | none => ""
    | some e => " where " ++ e.text

/-- A parameter of a function. -/
structure Parameter where
  /-- Its name, which has no meaning outside of the declaration. -/
  name : Name
  /-- The type of the argument. -/
  ty : Ty
deriving Repr

/-- An uninterpreted function: it has a signature and no body. -/
structure Function where
  /-- Its name. -/
  name : Name
  /-- Its parameters. -/
  params : List Parameter
  /-- The type of its results. -/
  result : Ty
deriving Repr

end Obligations
