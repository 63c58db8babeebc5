import Obligations.Minting
import Obligations.Condition.Error
import Obligations.Passive.Liveness

/-!
# Versions of variables

A passive body never changes a variable. Instead of a new value a variable gets a new version, an
incarnation, and commands become assertions and assumptions about versions. `Versions` keeps account
of the versions made so far, and an incarnation map says what stands for each variable at a point.
-/

namespace Obligations

/-- Why a version was made, with the label of the block in which it was. -/
inductive Origin where
  /-- Predecessors of the block disagree. -/
  | join (block : Name)
  /-- An assignment in the block. -/
  | assignment (block : Name)
  /-- The variable gets an arbitrary value in the block. -/
  | havoc (block : Name)
deriving DecidableEq, Repr

/-- A body whose reachable blocks only assert and assume. -/
structure PassiveImplementation where
  /-- The body. -/
  body : Implementation
  /-- The reachable blocks, each before its successors. -/
  order : List Nat
  /-- The block at which control leaves the body. -/
  exit : Nat
  /-- What stands for each variable at the end of the exit. -/
  exitMap : NameMap Expr
  /-- Why each version was made. -/
  origins : NameMap Origin
  /-- The transfers that were replaced to have one exit. -/
  replaced : List (Nat × Transfer)

/-- The versions made so far. -/
structure Versions where
  /-- The declarations in force, those of versions included. -/
  declarations : Declarations
  /-- The number of versions of each variable. -/
  counts : NameMap Nat
  /-- Why each version was made. -/
  origins : NameMap Origin
  /-- The versions in the order in which they were made. -/
  made : List Variable
  /-- The locals of the scopes met so far, one of each name. -/
  scopeLocals : List Variable

namespace Versions

/-- Whether a name is declared as a version. -/
def isIncarnation (s : Versions) (x : Name) : Bool :=
  ((s.declarations.find? x).map (·.isIncarnation)).getD false

/-- Makes the next version of a variable. -/
def next (s : Versions) (x : Name) (o : Origin) : Minting ConditionError (Name × Versions) :=
  match s.declarations.find? x with
  | none => .fail (.inconsistent (.undeclaredVariable x))
  | some d => do
    let n := (s.counts.find? x).getD 0
    let name ← .mint (x.incarnation n)
    let v : Variable := ⟨name, d.ty, none, .incarnation x n⟩
    return (name, { s with
      declarations := s.declarations.insert name v
      counts := s.counts.insert x (n + 1)
      origins := s.origins.insert name o
      made := s.made ++ [v] })

/-- Puts the locals of a scope in force. -/
def declare (s : Versions) (locals : List Variable) : Versions :=
  { s with
    declarations := s.declarations.insertAll (locals.map fun v => (v.name, v))
    scopeLocals := locals.foldl
      (fun vs v => if vs.any (·.name = v.name) then vs else vs ++ [v]) s.scopeLocals }

/-- The condition on a variable. -/
def whereClause? (s : Versions) (x : Name) : Option Expr :=
  (s.declarations.find? x).bind (·.whereClause)

end Versions

/-- An expression with what stands for each variable put in its place. Under `old`, the globals that
the procedure may change denote their values on entry. -/
def standIn (frame map : NameMap Expr) (e : Expr) : Expr := e.substituteOld map.find? frame.find?

end Obligations
