import Obligations.Implementation.Basic

/-!
# Live variables

A variable is live at a point of a body if its value there can still be read. The analysis goes
backwards through the body; in a loop-free body one pass is enough. The condition on a variable is
read where the variable gets an arbitrary value and where a scope declares it.
-/

namespace Obligations

/-- The declarations in force, by name. -/
abbrev Declarations := NameMap Variable

namespace Liveness

/-- The names that the conditions on variables read. -/
def whereReads (d : Declarations) (xs : List Name) : List Name :=
  xs.flatMap fun x => (((d.find? x).bind (·.whereClause)).map Expr.names).getD []

/-- The names other than those of a list. -/
def without (xs live : List Name) : List Name := live.filter (· ∉ xs)

/- The names live before a command and before several commands, given those live after. -/
mutual

/-- The names live before a command. -/
def before (d : Declarations) : Cmd → List Name → List Name
  | .assert a, live => a.condition.names ++ live
  | .assume e, live => e.names ++ live
  | .assign pairs, live => pairs.flatMap (·.2.names) ++ without (pairs.map (·.1)) live
  | .havoc vars, live => without vars (whereReads d vars ++ live)
  | .call _ args outputs, live => args.flatMap (·.names) ++ without outputs live
  | .comment _, live => live
  | .scope locals cmds, live =>
    let xs := locals.map (·.name)
    without xs (whereReads d xs ++ beforeAll d cmds live)

/-- The names live before several commands. -/
def beforeAll (d : Declarations) : List Cmd → List Name → List Name
  | [], live => live
  | c :: cs, live => before d c (beforeAll d cs live)

end

/-- The names live at the start of each of some blocks. -/
abbrev Table := List (Nat × List Name)

/-- The names live at the start of a block. -/
def Table.at (t : Table) (id : Nat) : List Name := (t.lookup id).getD []

/-- The names live at the start of the blocks of a list, in which every block comes before its
successors. -/
def ofOrder (d : Declarations) (i : Implementation) : List Nat → Table
  | [] => []
  | id :: ids =>
    let later := ofOrder d i ids
    let after := (i.successors id).flatMap later.at
    let cmds := (i.blocks[id]?.map (·.cmds)).getD []
    (id, (beforeAll d cmds after).eraseDups) :: later

end Liveness

end Obligations
