import Obligations.Passive.Basic

/-!
# Passive blocks

Passification of the commands of a block. An assertion or an assumption is stated about what stands
for the variables at that point. An assignment of a literal or of a single name only changes what
stands for the variable; any other makes a version and assumes that it equals the value. A variable
that gets an arbitrary value gets a version about which only the condition on the variable is
assumed.
-/

namespace Obligations.Passive

/-- How far a block has been passified. -/
structure Progress where
  /-- The versions made so far. -/
  versions : Versions
  /-- What stands for each variable at this point. -/
  map : NameMap Expr
  /-- The passive commands so far. -/
  cmds : List Cmd

namespace Progress

/-- Adds a passive command. -/
def emit (s : Progress) (c : Cmd) : Progress := { s with cmds := s.cmds ++ [c] }

/-- Lets an expression stand for a variable. -/
def stand (s : Progress) (x : Name) (e : Expr) : Progress := { s with map := s.map.insert x e }

/-- Makes the next version of a variable and lets it stand for the variable. -/
def renew (s : Progress) (x : Name) (o : Origin) : Minting ConditionError (Name × Progress) := do
  let (name, versions) ← s.versions.next x o
  return (name, { s with versions, map := s.map.insert x (.symbol name) })

/-- Assumes the condition on a variable, if there is one. -/
def assumeWhere (s : Progress) (frame : NameMap Expr) : Option Expr → Progress
  | none => s
  | some w => s.emit (.assume (standIn frame s.map w))

end Progress

/-- Whether an expression is a literal or a single name. -/
def isAtomic (e : Expr) : Bool := e.isLiteral || e.asSymbol?.isSome

/-- Assigns values to variables one by one. Gives the equalities to assume. -/
def assignAll (block : Name) (s : Progress) :
    List (Name × Expr) → Minting ConditionError (List Expr × Progress)
  | [] => return ([], s)
  | (x, value) :: rest =>
    if !s.versions.declarations.contains x then .fail (.inconsistent (.undeclaredTarget x))
    else if s.versions.isIncarnation x then do
      let (es, s) ← assignAll block s rest
      return (.binary .eq (.symbol x) value :: es, s)
    else if isAtomic value then assignAll block (s.stand x value) rest
    else do
      let (name, s) ← s.renew x (.assignment block)
      let (es, s) ← assignAll block s rest
      return (.binary .eq (.symbol name) value :: es, s)

/-- Makes versions of variables that get arbitrary values. Versions themselves stay. -/
def renewAll (block : Name) (s : Progress) : List Name → Minting ConditionError Progress
  | [] => return s
  | x :: xs =>
    if s.versions.isIncarnation x then renewAll block s xs
    else do
      let (_, s) ← s.renew x (.havoc block)
      renewAll block s xs

/- Passification of a command and of several commands. -/
mutual

/-- Passifies a command. -/
def passifyCmd (frame : NameMap Expr) (block : Name) :
    Cmd → Progress → Minting ConditionError Progress
  | .assert a, s =>
    return s.emit (.assert
      ⟨standIn frame s.map a.condition, a.kind, some a.condition, some s.map⟩)
  | .assume e, s => return s.emit (.assume (standIn frame s.map e))
  | .assign pairs, s => do
    let (es, s) ← assignAll block s (pairs.map fun p => (p.1, standIn frame s.map p.2))
    return if es.isEmpty then s else s.emit (.assume (.conjAll es))
  | .havoc vars, s => do
    let s ← renewAll block s vars
    return vars.foldl (fun s x => s.assumeWhere frame (s.versions.whereClause? x)) s
  | .call callee _ _, _ => .fail (.inconsistent (.unexpandedCall callee block))
  | .comment _, s => return s
  | .scope locals cmds, s => do
    let s := { s with versions := s.versions.declare locals }
    let s := locals.foldl (fun s v => s.assumeWhere frame v.whereClause) s
    let s ← passifyCmds frame block cmds s
    return { s with map := locals.foldl (fun m v => m.erase v.name) s.map }

/-- Passifies several commands. -/
def passifyCmds (frame : NameMap Expr) (block : Name) :
    List Cmd → Progress → Minting ConditionError Progress
  | [], s => return s
  | c :: cs, s => do
    let s ← passifyCmd frame block c s
    passifyCmds frame block cs s

end

end Obligations.Passive
