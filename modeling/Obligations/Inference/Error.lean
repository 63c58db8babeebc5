import Obligations.Condition.Error
import Obligations.Oracle.Basic

/-!
# Why inference stops

Inference stops when no condition can be generated, when the oracle fails, or when something that
inference relies on does not hold.
-/

namespace Obligations

/-- Something that inference relies on and that does not hold. -/
inductive InferenceFault where
  /-- A procedure has several bodies. -/
  | severalBodies (body : Name)
  /-- A body has no procedure. -/
  | noProcedure (body : Name)
  /-- A body has other numbers of parameters than its procedure. -/
  | wrongSignature (body : Name)
  /-- A procedure changes a global that is not declared. -/
  | undeclaredModified (body global : Name)
  /-- A body does not assert its summary. -/
  | noSummaryAssertion (body : Name)
  /-- The summary that a body asserts has the wrong number of arguments. -/
  | summaryArity (body : Name) (actual expected : Nat)
  /-- A placeholder for a summary has the wrong number of arguments. -/
  | placeholderArity (body : Name) (actual expected : Nat)
  /-- A model lacks a value. -/
  | noModelValue (body symbol : Name)
  /-- A term has no value that can be read off a model. -/
  | unreadableTerm (e : Expr)
  /-- An oracle refutes a condition without a model. -/
  | noModel (body : Name)
  /-- An end state lacks a value. -/
  | noStateValue (x : Name)
  /-- A variable has a value that is no integer. -/
  | nonInteger (x : Name) (v : Value)
  /-- A name of a summary stands for no term. -/
  | unmapped (x : Name)
  /-- A predicate has no value. -/
  | undefinedPredicate (e : Expr) (cause : EvalError)
  /-- A predicate is an integer. -/
  | notPredicate (e : Expr)
  /-- A template has a clause with blocks. -/
  | blocksInTemplate (template : Name)
deriving Repr

/-- The text that reports the fault. -/
def InferenceFault.message : InferenceFault → String
  | severalBodies n => "`" ++ n.text ++ "` has several implementations"
  | noProcedure n => "no procedure for `" ++ n.text ++ "`"
  | wrongSignature n => "`" ++ n.text ++ "` does not match the signature of its procedure"
  | undeclaredModified n g => "`" ++ n.text ++ "` modifies undeclared global `" ++ g.text ++ "`"
  | noSummaryAssertion n => "`" ++ n.text ++ "` does not assert its summary at the exit"
  | summaryArity n actual expected =>
    "summary of `" ++ n.text ++ "` has " ++ toString actual ++ " arguments, expected " ++
      toString expected
  | placeholderArity n actual expected =>
    "placeholder for `" ++ n.text ++ "` has " ++ toString actual ++ " arguments, expected " ++
      toString expected
  | noModelValue n x => "model of `" ++ n.text ++ "` has no value for `" ++ x.text ++ "`"
  | unreadableTerm e => "cannot read the value of `" ++ e.text ++ "` from a model"
  | noModel n => "oracle reported errors for `" ++ n.text ++ "` without a model"
  | noStateValue x => "state has no value for `" ++ x.text ++ "`"
  | nonInteger x v => "`" ++ x.text ++ "` has the non-integer value " ++ v.text
  | unmapped x => "`" ++ x.text ++ "` is not mapped at this site"
  | undefinedPredicate e cause => "cannot evaluate `" ++ e.text ++ "`: " ++ cause.message
  | notPredicate e => "`" ++ e.text ++ "` is not a predicate"
  | blocksInTemplate t => "template `" ++ t.text ++ "` has a non-expression ensures"

/-- Why inference stops. -/
inductive InferenceError where
  /-- No condition can be generated. -/
  | condition (cause : ConditionError)
  /-- The oracle fails. -/
  | oracle (cause : OracleError)
  /-- Something that inference relies on does not hold. -/
  | fault (cause : InferenceFault)
deriving Repr

/-- The text that reports the reason. -/
def InferenceError.message : InferenceError → String
  | condition cause => cause.message
  | oracle cause => cause.message
  | fault cause => "internal error: " ++ cause.message

end Obligations
