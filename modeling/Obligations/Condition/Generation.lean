import Obligations.Call.Expansion
import Obligations.Contract.Threading
import Obligations.Passive.Body
import Obligations.Condition.Encoding
import Obligations.VerificationCondition

/-!
# From a body to its condition

A body becomes a condition in steps: calls are expanded into contracts, control is made to leave the
body at one block, the contract of the body's own procedure is put in, critical edges are split, the
body is passified, and its weakest precondition is encoded. The condition lists its symbols in the
order of their first mention.
-/

namespace Obligations

/-- How conditions are generated. -/
structure GenerationOptions where
  /-- How the weakest precondition is written down. -/
  encoding : Encoding := .blockVariables
  /-- Whether variables that are dead at a join get no version there. -/
  prune : Bool := true
  /-- Whether passive bodies are logged. -/
  trace : Bool := false
deriving Repr

/-- A body made ready for passification, with its procedure. -/
def Implementation.prepare (i : Implementation) (p : Program) :
    Minting ConditionError (Procedure × SingleExit) := do
  match p.procedure? i.name with
  | none => .fail (.inconsistent (.noProcedure i.name))
  | some q => do
    i.check
    let j ← i.expandCalls p
    let unified := j.unifyExits
    let s ← (⟨unified.outcome.mapError (.malformed i.name), unified.names⟩ : Minting _ _)
    let (j, exit) ← assertPostconditions q s.body s.exit
    let j ← assumePreconditions q j
    -- The blocks of a condition may contain a cycle, so the body is checked again.
    j.check
    let j ← j.splitCriticalEdges
    return (q, ⟨j, exit, s.replaced⟩)

/-- The passive form of a body. -/
def Implementation.passiveForm (i : Implementation) (p : Program) (o : GenerationOptions) :
    NamingExcept ConditionError PassiveImplementation := do
  let (q, e) ← (i.prepare p).record
  -- Joins go through variables in the order of mention, which includes the names just made up.
  (Passive.passify (← get) o.prune p q e).record

/-- The type of a symbol in the condition of a body. -/
def symbolType (p : Program) (i : Implementation) (blockVariables : List Name) (n : Name) :
    Except ConditionError Ty :=
  if n ∈ blockVariables then .ok .bool
  else
    match (i.lookup? n).or (p.global? n) with
    | some v => .ok v.ty
    | none => .error (.inconsistent (.undeclaredSymbol i.name n))

/-- The condition of a formula with declarations for what occurs in it. -/
def closeFormula (l : Lexicon) (p : Program) (i : Implementation) (formula : Expr)
    (blockVariables : List Name) : Except ConditionError VerificationCondition := do
  let symbols ← (l.sortedSet formula.names).mapM fun n => do
    let ty ← symbolType p i blockVariables n
    return (n, ty)
  let functions ← formula.functions.mapM fun f =>
    (p.function? f).elim (.error (.inconsistent (.undeclaredFunction f))) .ok
  return ⟨i.name, formula, symbols, functions, blockVariables⟩

/-- The condition that every assertion of a passive body holds on every path. -/
def PassiveImplementation.condition (b : PassiveImplementation) (p : Program)
    (o : GenerationOptions) : NamingExcept ConditionError VerificationCondition := do
  let (formula, blockVariables) ← (Condition.encode b.body b.order o.encoding).record
  closeFormula (← get) p b.body formula blockVariables

end Obligations
