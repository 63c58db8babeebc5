import Obligations.Minting
import Obligations.Condition.Error
import Obligations.Implementation.Normal

/-!
# Contracts in bodies

The contract of a procedure becomes part of its body. A new entry assumes the preconditions and the
conditions on the parameters; the exit asserts the postconditions that are not free. A condition
with blocks is copied into the body: where it returns a value, the value is assumed or asserted, and
control goes on to a new block, after which later clauses come.
-/

namespace Obligations

/-- What becomes of the value that a condition returns. -/
inductive Splice where
  /-- It is assumed. -/
  | assume
  /-- It is asserted. -/
  | assert (kind : AssertKind)

/-- The command for the value that a condition returns. -/
def Splice.cmd : Splice → Expr → Cmd
  | assume, e => .assume e
  | assert kind, e => .assert { condition := e, kind }

/-- The formals of a body that stand for the formals of its procedure. -/
def formalMap (p : Procedure) (i : Implementation) : Except ConditionError (NameMap Expr) :=
  if p.inputs.length ≠ i.inputs.length ∨ p.outputs.length ≠ i.outputs.length then
    .error (.inconsistent (.wrongSignature i.name))
  else
    .ok (.ofList ((p.inputs ++ p.outputs).zipWith (fun a b => (a.name, .symbol b.name))
      (i.inputs ++ i.outputs)))

/-- Adds the blocks of a condition to a body, without their exits. -/
def addConditionBlocks (i : Implementation) :
    List ContractBlock → Minting ConditionError (Implementation × List Nat)
  | [] => return (i, [])
  | b :: bs => do
    let (i, id) ← i.addFreshBlock b.label.text b.cmds
    let (i, ids) ← addConditionBlocks i bs
    return (i, id :: ids)

/-- Gives the added blocks of a condition their exits. `ids` are the indices of all of them. -/
def setConditionExits (ids : List Nat) (continuation : Nat) (s : Splice) (i : Implementation) :
    List (ContractBlock × Nat) → Except ConditionError Implementation
  | [] => .ok i
  | (b, id) :: rest =>
    match b.exit with
    | .goto targets => do
      let targets ← targets.mapM fun t =>
        (ids[t]?).elim (.error (.inconsistent (.missingTarget b.label t))) .ok
      setConditionExits ids continuation s (i.setTransfer id (.goto targets)) rest
    | .ret value =>
      setConditionExits ids continuation s
        ((i.pushCmd id (s.cmd value)).setTransfer id (.goto [continuation])) rest

/-- Copies the blocks of a condition into a body after the block `insertion`. What came after that
block comes after `continuation` then. -/
def threadCondition (i : Implementation) (insertion continuation : Nat) (bs : List ContractBlock)
    (s : Splice) : Minting ConditionError Implementation := do
  let (i, ids) ← addConditionBlocks i bs
  match ids with
  | [] => .fail (.inconsistent (.emptyCondition i.name))
  | first :: _ => do
    let i ← setConditionExits ids continuation s i (bs.zip ids)
    -- The continuation takes over where control went on after the insertion point.
    let onward := ((i.blocks[insertion]?).map (·.transfer)).getD .ret
    return (i.setTransfer continuation onward).setTransfer insertion (.goto [first])

/-- A body that grows at one of its blocks, with the number of blocks made for continuations. -/
structure Growth where
  /-- The body. -/
  body : Implementation
  /-- The block after which the next clause comes. -/
  insertion : Nat
  /-- The number of continuations so far. -/
  count : Nat

/-- Adds a clause at the place where a body grows. -/
def Growth.addClause (g : Growth) (title : String) (s : Splice) :
    Condition → Minting ConditionError Growth
  | .formula e => return { g with body := g.body.pushCmd g.insertion (s.cmd e) }
  | .blocks bs => do
    let (i, next) ← g.body.addFreshBlock (title ++ toString g.count) []
    let i ← threadCondition i g.insertion next bs s
    return ⟨i, next, g.count + 1⟩

/-- Adds several clauses in turn. -/
def Growth.addClauses (g : Growth) (title : String) :
    List (Splice × Condition) → Minting ConditionError Growth
  | [] => return g
  | (s, c) :: rest => do
    let g ← g.addClause title s c
    g.addClauses title rest

/-- Asserts the postconditions at the exit of a body, and gives the exit that it has then. -/
def assertPostconditions (p : Procedure) (i : Implementation) (exit : Nat) :
    Minting ConditionError (Implementation × Nat) := do
  let formals ← formalMap p i
  let g ← Growth.addClauses ⟨i, exit, 0⟩ "ReallyLastGeneratedExit"
    ((p.ensures.filter (!·.free)).map fun e =>
      (.assert (.ensures e.note), e.condition.substitute formals.find?))
  return (g.body, g.insertion)

/-- Formals with the conditions that the procedure's formals have, where they have none of their
own. -/
def inheritWhereClauses (f : Subst) (declared formals : List Variable) : List Variable :=
  declared.zipWith
    (fun d v => { v with whereClause := v.whereClause.or (d.whereClause.map (·.substitute f)) })
    formals

/-- Assumes, at a new entry of a body, the conditions on its formals and the preconditions. -/
def assumePreconditions (p : Procedure) (i : Implementation) :
    Minting ConditionError Implementation := do
  let formals ← formalMap p i
  let i := { i with
    inputs := inheritWhereClauses formals.find? p.inputs i.inputs
    outputs := inheritWhereClauses formals.find? p.outputs i.outputs }
  let assumptions := (i.inputs ++ i.outputs).filterMap fun v => v.whereClause.map Cmd.assume
  let title := "PreconditionGeneratedEntry"
  let (j, entry) ← i.addFreshBlock (title ++ "0") assumptions
  let g ← Growth.addClauses ⟨{ j with entry }, entry, 1⟩ title
    (p.requires.map fun r => (.assume, r.condition.substitute formals.find?))
  return g.body.setTransfer g.insertion (.goto [i.entry])

end Obligations
