import Obligations.Contract
import Obligations.Graph

/-!
# Implementations

An implementation is a body for a procedure: parameters, locals and blocks, with one block at which
control enters. Blocks are known by their index. A block lists its predecessors, once for every
target that leads to it; `setTransfer` keeps these lists in step with the transfers.
-/

namespace Obligations

/-- How control leaves a block. -/
inductive Transfer where
  /-- It goes on to one of several blocks. -/
  | goto (targets : List Nat)
  /-- It leaves the body. -/
  | ret
deriving DecidableEq, Repr

namespace Transfer

/-- The blocks at which control can go on. -/
def targets : Transfer → List Nat
  | goto targets => targets
  | ret => []

/-- Whether control leaves the body. -/
def isReturn : Transfer → Bool
  | goto _ => false
  | ret => true

end Transfer

/-- A sequence of commands that control enters at the top and leaves at the bottom. -/
structure Block where
  /-- The label of the block. -/
  label : Name
  /-- Its commands. -/
  cmds : List Cmd
  /-- The blocks from which control comes, once for each target. -/
  preds : List Nat
  /-- How control leaves the block. -/
  transfer : Transfer
deriving Repr

/-- The blocks at which control can go on. -/
def Block.successors (b : Block) : List Nat := b.transfer.targets

/-- A body for a procedure. -/
structure Implementation where
  /-- The name of the procedure. -/
  name : Name
  /-- The inputs. -/
  inputs : List Variable
  /-- The outputs. -/
  outputs : List Variable
  /-- The locals. -/
  locals : List Variable
  /-- The attributes. -/
  attributes : List Name
  /-- The blocks, each known by its index. -/
  blocks : List Block
  /-- The block at which control enters. -/
  entry : Nat
deriving Repr

/-- How the index of a block is written. -/
def blockText (id : Nat) : String := "bb" ++ toString id

namespace Implementation

/-- The indices of the blocks. -/
def blockIds (i : Implementation) : List Nat := List.range i.blocks.length

/-- The label of a block, if there is one of that index. -/
def label? (i : Implementation) (id : Nat) : Option Name := i.blocks[id]?.map (·.label)

/-- The blocks at which control can go on after a block. -/
def successors (i : Implementation) (id : Nat) : List Nat :=
  (i.blocks[id]?.map (·.successors)).getD []

/-- The first block of a label. -/
def findBlock? (i : Implementation) (label : Name) : Option Nat :=
  i.blocks.findIdx? (·.label = label)

/-- Whether the implementation has an attribute. -/
def hasAttribute (i : Implementation) (name : Name) : Bool := name ∈ i.attributes

/-- The parameter or local of a name. -/
def lookup? (i : Implementation) (name : Name) : Option Variable :=
  (i.inputs ++ i.outputs ++ i.locals).find? (·.name = name)

/-- The blocks at which control leaves the body. -/
def returning (i : Implementation) : List Nat :=
  i.blockIds.filter fun id => (i.blocks[id]?.map (·.transfer.isReturn)).getD false

/-- The blocks that control can reach, in breadth-first order. -/
def reachable (i : Implementation) : List Nat :=
  Graph.reachFrom i.successors i.blockIds [i.entry]

/-! ## Changes -/

/-- Changes a block. -/
def modifyBlock (i : Implementation) (id : Nat) (f : Block → Block) : Implementation :=
  { i with blocks := i.blocks.modify id f }

/-- Adds a block that returns and that control does not reach. Its index is the number of the
blocks before. -/
def addBlock (i : Implementation) (label : Name) (cmds : List Cmd) : Implementation :=
  { i with blocks := i.blocks ++ [⟨label, cmds, [], .ret⟩] }

/-- Adds a command at the end of a block. -/
def pushCmd (i : Implementation) (id : Nat) (c : Cmd) : Implementation :=
  i.modifyBlock id fun b => { b with cmds := b.cmds ++ [c] }

/-- Strikes one occurrence of `id` from the predecessors of each target. -/
def detach (bs : List Block) (id : Nat) (targets : List Nat) : List Block :=
  targets.foldl (fun bs t => bs.modify t fun b => { b with preds := b.preds.erase id }) bs

/-- Adds `id` to the predecessors of each target. -/
def attach (bs : List Block) (id : Nat) (targets : List Nat) : List Block :=
  targets.foldl (fun bs t => bs.modify t fun b => { b with preds := b.preds ++ [id] }) bs

/-- Replaces how control leaves a block and brings the lists of predecessors up to date. -/
def setTransfer (i : Implementation) (id : Nat) (t : Transfer) : Implementation :=
  let detached := detach i.blocks id (i.successors id)
  if id < i.blocks.length then
    { i with blocks := attach (detached.modify id fun b => { b with transfer := t }) id t.targets }
  else i

/-- The name `base`, or `base` with a number. -/
def numbered (base : String) : Nat → Name
  | 0 => ⟨base⟩
  | n => ⟨base ++ "_" ++ toString n⟩

/-- A label that no block has: `base` itself, or else `base` with the least number, from one on,
that makes a new label. One of as many numbers as there are blocks always does. -/
def freshLabel (i : Implementation) (base : String) : Name :=
  (((List.range (i.blocks.length + 1)).map (numbered base)).find? fun n =>
    (i.findBlock? n).isNone).getD ⟨base⟩

end Implementation

end Obligations
