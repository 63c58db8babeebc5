import Obligations.Minting
import Obligations.Implementation.Order

/-!
# One exit, no critical edges

Two changes bring a body into the form that passification needs. Both add empty blocks only, so that
the commands along the paths through the body stay the same.

* `unifyExits`: if control leaves the body at several blocks, they go on to a new block instead,
  which is then the only exit.
* `splitCriticalEdges`: an edge from a block with several targets to a block with several
  predecessors gets a new block in its middle.
-/

namespace Obligations

/-- A body with the one block at which control leaves it. -/
structure SingleExit where
  /-- The body. -/
  body : Implementation
  /-- The exit. -/
  exit : Nat
  /-- The blocks that were exits before, with how control left them. -/
  replaced : List (Nat × Transfer)

namespace Implementation

variable {ε : Type}

/-- Adds a block whose label begins with a given text, and gives its index. -/
def addFreshBlock (i : Implementation) (base : String) (cmds : List Cmd) :
    Minting ε (Implementation × Nat) := do
  let label ← .mint (i.freshLabel base)
  return (i.addBlock label cmds, i.blocks.length)

/-- Makes control leave the body at one block. -/
def unifyExits (i : Implementation) : Minting GraphError SingleExit :=
  match i.returning with
  | [] => .fail .noExit
  | [exit] => return ⟨i, exit, []⟩
  | exits => do
    let (j, exit) ← i.addFreshBlock "GeneratedUnifiedExit" []
    return ⟨exits.foldl (fun j id => j.setTransfer id (.goto [exit])) j, exit,
      exits.map fun id => (id, .ret)⟩

/-- Puts a block in the middle of the edges from one block to another. -/
def splitEdge (i : Implementation) (source target : Nat) : Minting ε Implementation := do
  let text (id : Nat) : String := ((i.label? id).map (·.text)).getD ""
  let (j, middle) ← i.addFreshBlock (text source ++ "_@2_" ++ text target) []
  -- If several edges lead from the one block to the other, all of them go through the new one.
  let j := j.setTransfer middle (.goto [target])
  let targets := (j.successors source).map fun t => if t = target then middle else t
  return j.setTransfer source (.goto targets)

/-- The predecessors of a block, each once, in order of index. -/
def predecessorSet (i : Implementation) (id : Nat) : List Nat :=
  (((i.blocks[id]?.map (·.preds)).getD []).mergeSort).eraseDups

/-- Splits the critical edges that lead to a block. -/
def splitEdgesInto (i : Implementation) (target : Nat) : Minting ε Implementation :=
  (i.predecessorSet target).foldlM
    (fun i source =>
      if (i.successors source).length < 2 then pure i else i.splitEdge source target) i

/-- The blocks with several predecessors. -/
def joins (i : Implementation) : List Nat :=
  i.blockIds.filter fun id => 1 < ((i.blocks[id]?.map (·.preds.length)).getD 0)

/-- Splits all critical edges. -/
def splitCriticalEdges (i : Implementation) : Minting ε Implementation :=
  i.joins.foldlM splitEdgesInto i

end Implementation

end Obligations
