import Obligations.NameMap
import Obligations.Expr.Subst
import Obligations.Variable

/-!
# Commands

The commands of a block. Assertions remember where they come from, so that a failure can be blamed
on the right clause. A scope declares locals for the commands inside it.
-/

namespace Obligations

/-- Where an assertion comes from. -/
inductive AssertKind where
  /-- It is written in a body. -/
  | plain
  /-- It is a precondition of a procedure, checked where the procedure is called. -/
  | requires (callee : Name)
  /-- It is a postcondition, checked where the body is left; the text is reported when it fails. -/
  | ensures (note : Option String)
deriving DecidableEq, Repr

/-- A condition to check. -/
structure Assertion where
  /-- What must hold. -/
  condition : Expr
  /-- Where the assertion comes from. -/
  kind : AssertKind
  /-- In a passive body: the condition over the program's variables. -/
  source : Option Expr := none
  /-- In a passive body: what stands for each variable at the assertion. -/
  incarnations : Option (NameMap Expr) := none
deriving Repr

/-- A command of a block. -/
inductive Cmd where
  /-- Checks a condition. -/
  | assert (assertion : Assertion)
  /-- Restricts the runs considered to those where a condition holds. -/
  | assume (condition : Expr)
  /-- Assigns to several variables at once. -/
  | assign (pairs : List (Name × Expr))
  /-- Gives arbitrary values to variables. -/
  | havoc (vars : List Name)
  /-- Calls a procedure and stores its results. -/
  | call (callee : Name) (args : List Expr) (outputs : List Name)
  /-- Has no effect. -/
  | comment (text : String)
  /-- Runs commands with locals of their own. -/
  | scope (locals : List Variable) (cmds : List Cmd)
deriving Repr

instance : Inhabited Cmd := ⟨.comment ""⟩

namespace Cmd

/-- Whether the command only restricts or checks the state and never changes it. -/
def isPassive : Cmd → Bool
  | assert _ => true
  | assume _ => true
  | _ => false

/- The procedures called by a command and by several commands, in order of occurrence. -/
mutual

/-- The procedures called by the command, those called inside a scope included. -/
def callees : Cmd → List Name
  | call callee _ _ => [callee]
  | scope _ cmds => calleesAll cmds
  | _ => []

/-- The procedures called by several commands. -/
def calleesAll : List Cmd → List Name
  | [] => []
  | c :: cs => c.callees ++ calleesAll cs

end

/-- The name under which a substitution leaves a variable that is written to: it changes only if the
substitution gives another name. -/
def renameTarget (f : Subst) (x : Name) : Name := ((f x).bind Expr.asSymbol?).getD x

/- Substitution in a command and in several commands. The declarations of a scope stay as they
are. -/
mutual

/-- Applies a substitution to every variable that the command reads or writes. -/
def substitute (f : Subst) : Cmd → Cmd
  | assert a => assert { a with condition := a.condition.substitute f }
  | assume e => assume (e.substitute f)
  | assign pairs => assign (pairs.map fun p => (renameTarget f p.1, p.2.substitute f))
  | havoc vars => havoc (vars.map (renameTarget f))
  | call callee args outputs =>
    call callee (args.map (·.substitute f)) (outputs.map (renameTarget f))
  | comment text => comment text
  | scope locals cmds => scope locals (substituteAll f cmds)

/-- Applies a substitution to several commands. -/
def substituteAll (f : Subst) : List Cmd → List Cmd
  | [] => []
  | c :: cs => c.substitute f :: substituteAll f cs

end

end Cmd

end Obligations
