import Obligations.Condition.Generation
import Obligations.Inference.CallGraph
import Obligations.Inference.Placeholder

/-!
# Systems of conditions

The conditions of all bodies of a program with placeholders for the summaries make up a system whose
unknowns are the summaries. A node of the system is a body with its condition, the terms of the end
state that it asserts at its exit, and the sites at which its condition applies placeholders.
-/

namespace Obligations

/-- A body with its condition. -/
structure Node where
  /-- The body. -/
  name : Name
  /-- The names of an end state. -/
  keys : List Name
  /-- What these names denote in the body. -/
  ownTerms : List Expr
  /-- The condition of the body. -/
  condition : VerificationCondition
  /-- The terms of the end state at the exit of the body. -/
  endState : List Expr
  /-- The placeholders applied in the condition, by the index of the body for which each stands. -/
  sites : List (Nat × List Expr)

/-- The conditions of all bodies of a program. -/
structure ConditionSystem where
  /-- The program with placeholders. -/
  program : Program
  /-- The bodies with their conditions. -/
  nodes : List Node
  /-- Who calls whom. -/
  calls : CallGraph

/-- The arguments of a predicate that a command asserts. -/
def Cmd.assertedArgs? (predicate : Name) : Cmd → Option (List Expr)
  | .assert a =>
    match a.condition with
    | .apply f args => if f = predicate then some args else none
    | _ => none
  | _ => none

/-- The terms of the end state that a passive body asserts: the arguments of the first assertion of
its placeholder. -/
def PassiveImplementation.endState (b : PassiveImplementation) :
    Except InferenceError (List Expr) :=
  let cmds := b.body.blocks.flatMap (·.cmds)
  (cmds.findSome? (Cmd.assertedArgs? (summaryPredicate b.body.name))).elim
    (.error (.fault (.noSummaryAssertion b.body.name))) .ok

/-- A body with its condition, without the sites. -/
def Placeholder.node (h : Placeholder) (p : Program) (o : GenerationOptions)
    (i : Implementation) : NamingExcept InferenceError Node := do
  let b ← ExceptT.adapt .condition (i.passiveForm p o)
  let vc ← ExceptT.adapt .condition (b.condition p o)
  let terms ← b.endState
  if terms.length ≠ h.keys.length then
    throw (.fault (.summaryArity i.name terms.length h.keys.length))
  return ⟨i.name, h.keys, h.ownTerms, vc, terms, []⟩

/-- The applications of the placeholders of all bodies in a formula, by the index of the body. -/
def placeholderSites (predicates : List Name) (formula : Expr) : List (Nat × List Expr) :=
  predicates.zipIdx.flatMap fun (f, target) =>
    (formula.applicationsOf f).filterMap fun
      | .apply _ args => some (target, args)
      | _ => none

namespace ConditionSystem

/-- The system of a program. -/
def ofProgram (p : Program) (o : GenerationOptions) :
    NamingExcept InferenceError ConditionSystem := do
  let hs ← (placeholders p [] p.implementations).record
  let q := hs.foldl Program.attach p
  let nodes ← (hs.zip q.implementations).mapM fun (h, i) => h.node q o i
  let predicates := nodes.map fun n => summaryPredicate n.name
  return ⟨q, nodes.map fun n => { n with sites := placeholderSites predicates n.condition.formula },
    CallGraph.ofProgram q⟩

/-- The height of a body in the call graph. -/
def height (s : ConditionSystem) (i : Nat) : Nat := (s.calls.heights[i]?).getD 0

end ConditionSystem

end Obligations
