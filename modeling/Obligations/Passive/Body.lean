import Obligations.Implementation.Normal
import Obligations.Passive.Block

/-!
# Passive bodies

Blocks are passified in an order in which each one comes before its successors. A block starts from
what its predecessors agree on. Where they disagree about a variable, the variable gets a version,
and every predecessor assumes at its end that the version equals what stands for the variable there.
With pruning, a variable that is not live at the block gets none.
-/

namespace Obligations.Passive

/-- What stays the same while a body is passified. -/
structure Setting where
  /-- The order of first mention, in which variables get their versions at a join. -/
  lexicon : Lexicon
  /-- What stands for the values on entry of the globals that the procedure may change. -/
  frame : NameMap Expr
  /-- The names live at the start of each block, if dead variables get no versions. -/
  liveness : Option Liveness.Table

/-- How far a body has been passified. -/
structure Advance where
  /-- The body. -/
  body : Implementation
  /-- The versions made so far. -/
  versions : Versions
  /-- What stands for each variable at the end of the blocks passified so far. -/
  exitMaps : List (Nat × NameMap Expr)

/-- A predecessor with what stands for each variable at its end. -/
abbrev Incoming := Nat × NameMap Expr

/-- What all of some predecessors agree on for a variable. -/
def agreed? (incoming : List Incoming) (x : Name) : Option Expr :=
  match incoming with
  | [] => none
  | (_, first) :: rest =>
    match first.find? x with
    | none => none
    | some e => if rest.all fun (_, m) => m.find? x = some e then some e else none

/-- Makes a version for a variable on which predecessors disagree, and tells each of them. -/
def reconcile (label : Name) (incoming : List Incoming) (x : Name) (s : Advance) :
    Minting ConditionError (Name × Advance) := do
  let (name, versions) ← s.versions.next x (.join label)
  let body := incoming.foldl
    (fun i (pred, m) => i.pushCmd pred
      (.assume (.binary .eq (.symbol name) ((m.find? x).getD (.symbol x))))) s.body
  return (name, { s with body, versions })

/-- Reconciles the predecessors in each variable on which they disagree and that is live. -/
def reconcileAll (isLive : Name → Bool) (label : Name) (incoming : List Incoming) :
    List Name → NameMap Expr → Advance → Minting ConditionError (NameMap Expr × Advance)
  | [], map, s => return (map, s)
  | x :: xs, map, s =>
    if isLive x then do
      let (name, s) ← reconcile label incoming x s
      reconcileAll isLive label incoming xs (map.insert x (.symbol name)) s
    else reconcileAll isLive label incoming xs map s

/-- What stands for each variable at the start of a block. -/
def startMap (c : Setting) (id : Nat) (label : Name) (incoming : List Incoming) (s : Advance) :
    Minting ConditionError (NameMap Expr × Advance) :=
  -- A variable for which nothing stands anywhere still has its value on entry and is in no dispute.
  let xs := c.lexicon.sortedSet (incoming.flatMap fun (_, m) => m.keys)
  let kept := xs.filterMap fun x => (agreed? incoming x).map fun e => (x, e)
  let disputed := xs.filter fun x => (agreed? incoming x).isNone
  let isLive (x : Name) : Bool := (c.liveness.map fun t => decide (x ∈ t.at id)).getD true
  reconcileAll isLive label incoming disputed (.ofList kept) s

/-- Passifies a block. -/
def passifyBlock (c : Setting) (id : Nat) (s : Advance) : Minting ConditionError Advance :=
  match s.body.blocks[id]? with
  | none => return s
  | some b => do
    -- Predecessors that control does not reach have not been passified and do not count.
    let incoming := b.preds.filterMap fun p => (s.exitMaps.lookup p).map fun m => (p, m)
    let (map, s) ← startMap c id b.label incoming s
    let p ← passifyCmds c.frame b.label b.cmds ⟨s.versions, map, []⟩
    return ⟨s.body.modifyBlock id fun b => { b with cmds := p.cmds }, p.versions,
      (id, p.map) :: s.exitMaps⟩

/-- Passifies several blocks in turn. -/
def passifyBlocks (c : Setting) : List Nat → Advance → Minting ConditionError Advance
  | [], s => return s
  | id :: ids, s => do
    let s ← passifyBlock c id s
    passifyBlocks c ids s

/- The locals that scopes declare, in a command and in several commands. -/
mutual

/-- The locals that the scopes in a command declare, outer scopes first. -/
def scopeLocals : Cmd → List Variable
  | .scope locals cmds => locals ++ scopeLocalsAll cmds
  | _ => []

/-- The locals that the scopes in several commands declare. -/
def scopeLocalsAll : List Cmd → List Variable
  | [] => []
  | c :: cs => scopeLocals c ++ scopeLocalsAll cs

end

/-- The declarations in force at the start: of several of one name the last counts. -/
def declarations (p : Program) (i : Implementation) : Declarations :=
  .ofList ((p.globals ++ i.inputs ++ i.outputs ++ i.locals ++
    i.blocks.flatMap fun b => scopeLocalsAll b.cmds).map fun v => (v.name, v))

/-- The versions at the start: none. -/
def initialVersions (p : Program) (i : Implementation) : Versions :=
  ⟨declarations p i, .empty, .empty, [], []⟩

/-- The body with declarations for the locals of its scopes, where they have none of that name, and
for the versions made. -/
def declareVersions (i : Implementation) (s : Versions) : Implementation :=
  let i := s.scopeLocals.foldl
    (fun i v => if (i.lookup? v.name).isSome then i else { i with locals := i.locals ++ [v] }) i
  { i with locals := i.locals ++ s.made }

/-- Passifies a body that has one exit and no critical edges. -/
def passify (l : Lexicon) (prune : Bool) (p : Program) (q : Procedure) (e : SingleExit) :
    Minting ConditionError PassiveImplementation := do
  let i := e.body
  let order ← i.order
  let versions := initialVersions p i
  let frame : NameMap Expr := .ofList (q.modifies.map fun g => (g, .symbol g))
  let liveness := if prune then some (Liveness.ofOrder versions.declarations i order) else none
  let s ← passifyBlocks ⟨l, frame, liveness⟩ order ⟨i, versions, []⟩
  match order.filter fun id => (s.body.blocks[id]?.map (·.transfer.isReturn)).getD false with
  | [exit] =>
    if exit = e.exit then
      return ⟨declareVersions s.body s.versions, order, exit,
        (s.exitMaps.lookup exit).getD .empty, s.versions.origins, e.replaced⟩
    else .fail (.inconsistent (.unexpectedExit i.name exit e.exit))
  | exits => .fail (.inconsistent (.severalExits i.name exits.length))

end Obligations.Passive
