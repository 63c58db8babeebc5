import Obligations.Minting
import Obligations.Condition.Error

/-!
# Calls as contracts

A call means what the contract of its procedure says. It becomes a scope that

* asserts every precondition that is not free, for the arguments;
* keeps the arguments, and the globals that the procedure may change, in locals of its own;
* gives arbitrary values to the results and to those globals;
* assumes every postcondition, in which an input stands for the argument kept, an output for the
  result, and the value of a changed global on entry for the value kept.

The calls of a body are numbered in the order in which they stand, and the number is part of the
names of the locals.
-/

namespace Obligations

/-- A call of a declared procedure with the right numbers of arguments and results. -/
structure CallSite where
  /-- The body in which the call stands. -/
  caller : Name
  /-- The procedure. -/
  callee : Procedure
  /-- The number of the call in the body. -/
  number : Nat
  /-- The arguments. -/
  args : List Expr
  /-- The variables that get the results. -/
  outputs : List Name

namespace CallSite

/-- The local that keeps the argument for an input. -/
def inputKeeper (s : CallSite) (x : Name) : Name :=
  ⟨"call" ++ toString s.number ++ "formal" ++ x.text⟩

/-- The local that keeps the value of a global on entry. -/
def globalKeeper (s : CallSite) (g : Name) : Name :=
  ⟨"call" ++ toString s.number ++ "old" ++ g.text⟩

/-- The formula of a clause of the contract. -/
def formula (s : CallSite) (c : Condition) : Except ConditionError Expr :=
  match c with
  | .formula e => .ok e
  | .blocks _ => .error (.inconsistent (.blocksInCallee s.caller s.callee.name))

/-- The argument for each input. -/
def arguments (s : CallSite) : NameMap Expr :=
  .ofList (s.callee.inputs.zipWith (fun x a => (x.name, a)) s.args)

/-- The preconditions to check. -/
def checks (s : CallSite) : Except ConditionError (List Cmd) :=
  (s.callee.requires.filter (!·.free)).mapM fun r => do
    let e ← s.formula r.condition
    return .assert { condition := e.substitute s.arguments.find?, kind := .requires s.callee.name }

/-- A local with the expression whose value it keeps. -/
structure Keeper where
  /-- The local. -/
  holder : Variable
  /-- What it keeps. -/
  value : Expr

/-- The locals that keep the arguments. -/
def inputKeepers (s : CallSite) : List Keeper :=
  s.callee.inputs.zipWith
    (fun x a => ⟨⟨s.inputKeeper x.name, x.ty, none, .local⟩, a⟩) s.args

/-- The locals that keep the globals that the procedure may change. -/
def globalKeepers (s : CallSite) (p : Program) :
    List Name → Minting ConditionError (List Keeper)
  | [] => return []
  | g :: gs => do
    match p.global? g with
    | none => .fail (.inconsistent (.undeclaredModified s.callee.name g))
    | some d => do
      let n ← .mint (s.globalKeeper g)
      let rest ← globalKeepers s p gs
      return ⟨⟨n, d.ty, none, .local⟩, .symbol g⟩ :: rest

/-- The variables that get arbitrary values: the results, then the globals that the procedure may
change and that are no results. -/
def changed (s : CallSite) : List Name :=
  s.callee.modifies.foldl (fun xs g => if g ∈ xs then xs else xs ++ [g]) s.outputs

/-- What stands for the parameters after the call: the argument kept, or the result. -/
def parameters (s : CallSite) : Subst :=
  let ins : NameMap Expr :=
    .ofList (s.callee.inputs.map fun x => (x.name, .symbol (s.inputKeeper x.name)))
  let outs : NameMap Expr :=
    .ofList (s.callee.outputs.zipWith (fun x o => (x.name, .symbol o)) s.outputs)
  fun n => (ins.find? n).or (outs.find? n)

/-- What stands for the values of the changed globals on entry. -/
def entryValues (s : CallSite) : Subst :=
  let olds : NameMap Expr :=
    .ofList (s.callee.modifies.map fun g => (g, .symbol (s.globalKeeper g)))
  olds.find?

/-- The postconditions to assume. -/
def guarantees (s : CallSite) : Except ConditionError (List Cmd) :=
  s.callee.ensures.mapM fun e => do
    let c ← s.formula e.condition
    return .assume (c.substituteOld s.parameters s.entryValues)

/-- The scope that a call becomes. -/
def expand (s : CallSite) (p : Program) : Minting ConditionError Cmd := do
  let checks ← s.checks
  let ins := s.inputKeepers
  .mintAll (ins.map (·.holder.name))
  let globals ← s.globalKeepers p s.callee.modifies
  let keepers := ins ++ globals
  let keep := if keepers.isEmpty then [] else
    [.assign (keepers.map fun k => (k.holder.name, k.value))]
  let change := if s.changed.isEmpty then [] else [.havoc s.changed]
  let guarantees ← s.guarantees
  return .scope (keepers.map (·.holder)) (checks ++ keep ++ change ++ guarantees)

end CallSite

/-- The call of a procedure by name. -/
def callSite (p : Program) (caller callee : Name) (number : Nat) (args : List Expr)
    (outputs : List Name) : Except ConditionError CallSite :=
  match p.procedure? callee with
  | none => .error (.inconsistent (.undeclaredCallee caller callee))
  | some q =>
    if args.length ≠ q.inputs.length ∨ outputs.length ≠ q.outputs.length then
      .error (.inconsistent (.wrongArity caller callee))
    else .ok ⟨caller, q, number, args, outputs⟩

/- Expansion of the calls in a command and in several commands, the first call having the given
number. -/
mutual

/-- Expands the calls in a command. -/
def Cmd.expandCalls (p : Program) (caller : Name) (number : Nat) : Cmd → Minting ConditionError Cmd
  | .call callee args outputs => do
    let s ← callSite p caller callee number args outputs
    s.expand p
  | .scope locals cmds => do
    let cmds ← Cmd.expandCallsAll p caller number cmds
    return .scope locals cmds
  | c => return c

/-- Expands the calls in several commands. -/
def Cmd.expandCallsAll (p : Program) (caller : Name) (number : Nat) :
    List Cmd → Minting ConditionError (List Cmd)
  | [] => return []
  | c :: cs => do
    let d ← c.expandCalls p caller number
    let ds ← Cmd.expandCallsAll p caller (number + c.callees.length) cs
    return d :: ds

end

/-- Expands the calls in several blocks. -/
def expandBlocks (p : Program) (caller : Name) (number : Nat) :
    List Block → Minting ConditionError (List Block)
  | [] => return []
  | b :: bs => do
    let cmds ← Cmd.expandCallsAll p caller number b.cmds
    let rest ← expandBlocks p caller (number + (Cmd.calleesAll b.cmds).length) bs
    return { b with cmds } :: rest

/-- Expands the calls of a body, block by block in order of index. -/
def Implementation.expandCalls (i : Implementation) (p : Program) :
    Minting ConditionError Implementation := do
  let blocks ← expandBlocks p i.name 0 i.blocks
  return { i with blocks }

end Obligations
