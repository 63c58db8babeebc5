import Obligations.Solver.SExpr
import Obligations.Text.Numeral

/-!
# What a solver answers

The first of the words `sat`, `unsat` and `unknown` outside of all lists is the verdict. After
`sat`, every pair of a symbol and a value in a list is an entry of the model, whatever list it is
in; values that a model cannot hold are left out. After `unknown` the reason decides the outcome.
-/

namespace Obligations.Solver

/-- The value that an S-expression denotes: a truth value, or an integer with any number of minus
signs applied to it. -/
def value? : SExpr → Option Value
  | .atom "true" => some (.bool true)
  | .atom "false" => some (.bool false)
  | .atom text => (Text.readInt? text.toList).map .int
  | .list [.atom "-", operand] =>
    match value? operand with
    | some (.int i) => some (.int (-i))
    | _ => none
  | _ => none

/-- The entry of a model that an S-expression gives: a pair of a symbol of the condition and its
value. -/
def pairIn? (vc : VerificationCondition) : SExpr → Option (Name × Value)
  | .list [.atom text, v] => do
    let (n, _) ← vc.symbols.find? (·.1.text = text)
    let x ← value? v
    return (n, x)
  | _ => none

/-- The model in a response. -/
def modelOf (vc : VerificationCondition) (response : List SExpr) : Model :=
  .ofList ((response.filterMap (·.asList?)).flatten.filterMap (pairIn? vc))

/-- The verdict in a response. -/
def verdict? (response : List SExpr) : Option String :=
  (response.filterMap (·.asAtom?)).find? fun a => a = "sat" ∨ a = "unsat" ∨ a = "unknown"

/-- The reason that an S-expression gives for an unknown verdict. -/
def reason? : SExpr → Option String
  | .list [.atom ":reason-unknown", .string reason] => some reason
  | .list [.atom ":reason-unknown", .atom reason] => some reason
  | _ => none

/-- Whether `part` occurs in a list without a gap. -/
def occursIn (part : List Char) : List Char → Bool
  | [] => part.isEmpty
  | c :: cs => part.isPrefixOf (c :: cs) || occursIn part cs

/-- The outcome of an unknown verdict. -/
def giveUpOutcome (reason : String) : Outcome :=
  let mentions (words : String) : Bool := occursIn words.toList reason.toList
  if mentions "timeout" || mentions "canceled" then .timedOut
  else if mentions "memout" || mentions "out of memory" then .outOfMemory
  else .inconclusive

/-- The first line of a text. A line ends with a line feed, before which there may be a carriage
return. -/
def firstLine (text : String) : String :=
  let cs := text.toList
  let line := cs.takeWhile (· ≠ '\n')
  String.ofList <|
    if line.length < cs.length ∧ line.getLast? = some '\r' then line.dropLast else line

/-- The answer that a solver's response to the script of a condition makes. -/
def interpret (vc : VerificationCondition) (response : String) : Answer :=
  match readAll response with
  | .error cause => .failure (.unexpectedResponse cause)
  | .ok parsed =>
    match verdict? parsed with
    | none => .failure (.unexpectedResponse (.noVerdict (firstLine response)))
    | some "unsat" => .outcome .correct
    | some "sat" => .refutation vc (modelOf vc parsed)
    | some _ => .outcome (giveUpOutcome ((parsed.findSome? reason?).getD ""))

end Obligations.Solver
