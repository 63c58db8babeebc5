import Obligations.NameMap
import Obligations.Expr.Eval
import Obligations.VerificationCondition

/-!
# Oracles

An oracle is asked whether a verification condition is valid. It answers with an outcome and, if it
refutes the condition, with models in which the formula is false. An oracle takes one query at a
time: a query is begun, and no other can be begun before it has been answered.
-/

namespace Obligations

/-- The answer to a query. -/
inductive Outcome where
  /-- The condition is valid. -/
  | correct
  /-- The condition is refuted. -/
  | errors
  /-- The time allowed was used up. -/
  | timedOut
  /-- The memory allowed was used up. -/
  | outOfMemory
  /-- The oracle gave up for another reason. -/
  | inconclusive
deriving DecidableEq, Repr

/-- The text of an outcome. -/
def Outcome.text : Outcome → String
  | correct => "correct"
  | errors => "errors"
  | timedOut => "timed-out"
  | outOfMemory => "out-of-memory"
  | inconclusive => "inconclusive"

/-! ## Models -/

/-- Values of the symbols of a condition. -/
abbrev Model := NameMap Value

namespace Model

/-- A model gives values to names in the state at hand and to nothing else. -/
def valuation (m : Model) : Valuation where
  symbol := m.find?

/-- The block variables that are false in a model: the blocks from which an assertion can fail. -/
def failingBlocks (m : Model) (vc : VerificationCondition) : List Name :=
  vc.blockVariables.filter fun n => m.find? n = some (.bool false)

end Model

/-! ## Failures -/

/-- Why a condition is beyond an oracle. -/
inductive Unsupported where
  /-- A symbol ranges over values that the oracle does not have. -/
  | symbolType (symbol : Name) (ty : Ty)
  /-- A function gives values that the oracle does not have. -/
  | functionType (function : Name) (ty : Ty)
  /-- An argument of an application contains an application. -/
  | nestedApplication (query : String)
  /-- A function is applied and not declared. -/
  | undeclaredFunction (function : Name)
  /-- The condition is an integer. -/
  | notFormula (query : String)
  /-- The condition has no value. -/
  | evaluation (cause : EvalError)
  /-- A type with arguments occurs. -/
  | genericType (ty : Ty)
  /-- A value on entry occurs. -/
  | entryValue (e : Expr)
deriving Repr

/-- The text that reports the reason. -/
def Unsupported.message : Unsupported → String
  | symbolType n ty => "symbol `" ++ n.text ++ "` has type `" ++ ty.text ++ "`"
  | functionType f ty => "function `" ++ f.text ++ "` has type `" ++ ty.text ++ "`"
  | nestedApplication query =>
    "`" ++ query ++ "` applies a function to the result of an application"
  | undeclaredFunction f => "function `" ++ f.text ++ "` is not declared"
  | notFormula query => "`" ++ query ++ "` is not a formula"
  | evaluation cause => cause.message
  | genericType ty => "generic type `" ++ ty.text ++ "`"
  | entryValue e => "`" ++ e.text ++ "` survived passification"

/-- Why the text that a solver wrote makes no answer. -/
inductive ResponseError where
  /-- A closing parenthesis has no opening one. -/
  | unbalancedClose
  /-- An opening parenthesis has no closing one. -/
  | unbalancedOpen
  /-- A string is not closed. -/
  | unterminatedString
  /-- A quoted symbol is not closed. -/
  | unterminatedSymbol
  /-- There is no verdict; the first line is reported. -/
  | noVerdict (firstLine : String)
deriving DecidableEq, Repr

/-- The text that reports the reason. -/
def ResponseError.message : ResponseError → String
  | unbalancedClose => "unbalanced `)`"
  | unbalancedOpen => "unbalanced `(`"
  | unterminatedString => "unterminated string"
  | unterminatedSymbol => "unterminated quoted symbol"
  | noVerdict firstLine => firstLine

/-- Why an oracle gives no outcome. -/
inductive OracleError where
  /-- There is no query to answer. -/
  | noPendingQuery
  /-- Another query has not been answered yet. -/
  | queryInFlight (pending : String)
  /-- The condition is beyond the oracle. -/
  | unsupported (cause : Unsupported)
  /-- A solver answered something that makes no sense. -/
  | unexpectedResponse (cause : ResponseError)
  /-- A solver could not be run. -/
  | process (reason : String)
deriving Repr

/-- The text that reports the reason. -/
def OracleError.message : OracleError → String
  | noPendingQuery => "no query has been started"
  | queryInFlight pending => "query `" ++ pending ++ "` has not been answered yet"
  | unsupported cause => "cannot encode the condition: " ++ cause.message
  | unexpectedResponse cause => "unexpected prover response: " ++ cause.message
  | process reason => reason

/-! ## Answers -/

/-- What an oracle gives back: the models it reports, each with the labels of failing blocks, and
then an outcome or the reason why there is none. -/
structure Answer where
  /-- The models, with labels, in the order in which they are reported. -/
  models : List (List Name × Model)
  /-- The outcome. -/
  result : Except OracleError Outcome

namespace Answer

/-- An outcome without a model. -/
def outcome (o : Outcome) : Answer := ⟨[], .ok o⟩

/-- A failure. -/
def failure (e : OracleError) : Answer := ⟨[], .error e⟩

/-- A refutation by one model. -/
def refutation (vc : VerificationCondition) (m : Model) : Answer :=
  ⟨[(m.failingBlocks vc, m)], .ok .errors⟩

end Answer

end Obligations
