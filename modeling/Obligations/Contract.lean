import Obligations.Cmd

/-!
# Contracts

A procedure declares what its callers provide and what its bodies establish. A condition of a
contract is a formula or a small block graph whose paths end by returning the value of the
condition.
-/

namespace Obligations

/-- How a block of a condition ends. -/
inductive ContractExit where
  /-- It goes on to one of several blocks of the same condition. -/
  | goto (targets : List Nat)
  /-- It ends the condition with a value. -/
  | ret (value : Expr)
deriving Repr

/-- A block of a condition. -/
structure ContractBlock where
  /-- The label of the block. -/
  label : Name
  /-- The commands of the block. -/
  cmds : List Cmd
  /-- How the block ends. -/
  exit : ContractExit
deriving Repr

/-- A condition of a contract. -/
inductive Condition where
  /-- A formula. -/
  | formula (e : Expr)
  /-- A block graph, entered at its first block. -/
  | blocks (bs : List ContractBlock)
deriving Repr

/-- Applies a substitution to the value that a block returns. -/
def ContractExit.substitute (f : Subst) : ContractExit → ContractExit
  | goto targets => goto targets
  | ret value => ret (value.substitute f)

/-- Applies a substitution to the commands and the exit of a block. -/
def ContractBlock.substitute (f : Subst) (b : ContractBlock) : ContractBlock :=
  { b with cmds := Cmd.substituteAll f b.cmds, exit := b.exit.substitute f }

/-- Applies a substitution to every formula and command of a condition. -/
def Condition.substitute (f : Subst) : Condition → Condition
  | formula e => formula (e.substitute f)
  | blocks bs => blocks (bs.map (·.substitute f))

/-- The formula, if the condition is one. -/
def Condition.asFormula? : Condition → Option Expr
  | formula e => some e
  | blocks _ => none

/-- A precondition. -/
structure Requires where
  /-- What callers provide. -/
  condition : Condition
  /-- A free precondition is assumed by bodies and not checked at calls. -/
  free : Bool
deriving Repr

/-- A postcondition. -/
structure Ensures where
  /-- What bodies establish. -/
  condition : Condition
  /-- A free postcondition is assumed at calls and not checked in bodies. -/
  free : Bool
  /-- The attributes of the clause. -/
  attributes : List Name
  /-- A text to report when the clause fails. -/
  note : Option String
deriving Repr

/-- The declaration of a procedure. -/
structure Procedure where
  /-- Its name. -/
  name : Name
  /-- Its inputs. -/
  inputs : List Variable
  /-- Its outputs. -/
  outputs : List Variable
  /-- Its preconditions. -/
  requires : List Requires
  /-- Its postconditions. -/
  ensures : List Ensures
  /-- The globals that it may change. -/
  modifies : List Name
  /-- Its attributes. -/
  attributes : List Name
deriving Repr

/-- Whether a clause has an attribute. -/
def Ensures.hasAttribute (e : Ensures) (name : Name) : Bool := name ∈ e.attributes

/-- Whether a procedure has an attribute. -/
def Procedure.hasAttribute (p : Procedure) (name : Name) : Bool := name ∈ p.attributes

end Obligations
