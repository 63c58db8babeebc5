import Obligations.Implementation.Order
import Obligations.Program.Printer

/-!
# Why no condition is generated

Either the body is malformed, or the program contradicts itself: it uses what it does not declare,
or in another way than declared.
-/

namespace Obligations

/-- A contradiction in a program. -/
inductive Inconsistency where
  /-- A body has no procedure. -/
  | noProcedure (body : Name)
  /-- A call has no procedure. -/
  | undeclaredCallee (caller callee : Name)
  /-- A call has the wrong number of arguments or results. -/
  | wrongArity (caller callee : Name)
  /-- The contract of a procedure that is called has a condition with blocks. -/
  | blocksInCallee (caller callee : Name)
  /-- A procedure that is called changes a global that is not declared. -/
  | undeclaredModified (callee global : Name)
  /-- A body has other numbers of parameters than its procedure. -/
  | wrongSignature (body : Name)
  /-- A condition has an empty list of blocks. -/
  | emptyCondition (body : Name)
  /-- A block of a condition goes on to a block that does not exist. -/
  | missingTarget (label : Name) (target : Nat)
  /-- A variable is assigned to and not declared. -/
  | undeclaredTarget (x : Name)
  /-- A variable is to get a new version and is not declared. -/
  | undeclaredVariable (x : Name)
  /-- A call is left in a body. -/
  | unexpandedCall (callee block : Name)
  /-- Control leaves a body at no or several blocks. -/
  | severalExits (body : Name) (count : Nat)
  /-- Control leaves a body at another block than expected. -/
  | unexpectedExit (body : Name) (actual expected : Nat)
  /-- A command that changes the state is left in a body. -/
  | notPassive (block : Name) (cmd : Cmd)
  /-- A block has no condition. -/
  | notVisited (body : Name) (block : Nat)
  /-- A block to be visited does not exist. -/
  | noSuchBlock (body : Name) (block : Nat)
  /-- A symbol of a condition is not declared. -/
  | undeclaredSymbol (body symbol : Name)
  /-- A function is applied and not declared. -/
  | undeclaredFunction (function : Name)
deriving Repr

/-- The text that reports the contradiction. -/
def Inconsistency.message : Inconsistency → String
  | noProcedure i => "no procedure declared for implementation `" ++ i.text ++ "`"
  | undeclaredCallee caller callee =>
    "`" ++ caller.text ++ "` calls undeclared procedure `" ++ callee.text ++ "`"
  | wrongArity caller callee =>
    "call from `" ++ caller.text ++ "` to `" ++ callee.text ++
      "` has the wrong number of arguments or results"
  | blocksInCallee caller callee =>
    "call from `" ++ caller.text ++ "` to `" ++ callee.text ++
      "`: block expressions are not supported in callee contracts"
  | undeclaredModified callee g =>
    "`" ++ callee.text ++ "` modifies undeclared global `" ++ g.text ++ "`"
  | wrongSignature i =>
    "implementation `" ++ i.text ++ "` does not match the signature of its procedure"
  | emptyCondition i => "empty block expression in the contract of `" ++ i.text ++ "`"
  | missingTarget label target =>
    "block `" ++ label.text ++ "` of a block expression jumps to missing block " ++ toString target
  | undeclaredTarget x => "assignment to undeclared variable `" ++ x.text ++ "`"
  | undeclaredVariable x => "variable `" ++ x.text ++ "` is not declared"
  | unexpandedCall callee block =>
    "call to `" ++ callee.text ++ "` in block `" ++ block.text ++ "` was not desugared"
  | severalExits i count =>
    "`" ++ i.text ++ "` has " ++ toString count ++ " returning blocks after unification"
  | unexpectedExit i actual expected =>
    "`" ++ i.text ++ "` returns from " ++ blockText actual ++ ", expected " ++ blockText expected
  | notPassive block c => "block `" ++ block.text ++ "` is not passive: `" ++ c.text ++ "`"
  | notVisited i block => "block " ++ blockText block ++ " of `" ++ i.text ++ "` was not visited"
  | noSuchBlock i block => "block " ++ blockText block ++ " of `" ++ i.text ++ "` does not exist"
  | undeclaredSymbol i n =>
    "symbol `" ++ n.text ++ "` in the condition of `" ++ i.text ++ "` is not declared"
  | undeclaredFunction f => "function `" ++ f.text ++ "` is applied but not declared"

/-- Why no condition is generated for a body. -/
inductive ConditionError where
  /-- The body is malformed. -/
  | malformed (body : Name) (reason : GraphError)
  /-- The program contradicts itself. -/
  | inconsistent (cause : Inconsistency)
deriving Repr

/-- The text that reports the reason. -/
def ConditionError.message : ConditionError → String
  | malformed body reason =>
    "implementation `" ++ body.text ++ "` is malformed: " ++ reason.message
  | inconsistent cause => "internal error: " ++ cause.message

namespace Implementation

/-- The reachable blocks of a well-formed body, each before its successors. -/
def order (i : Implementation) : Except ConditionError (List Nat) :=
  i.topologicalOrder.mapError (.malformed i.name)

/-- Checks that a body is well formed. -/
def check (i : Implementation) : Except ConditionError Unit := i.order.map fun _ => ()

end Implementation

end Obligations
