import Obligations.Implementation.Basic

/-!
# Well-formed loop-free bodies

A body is well formed if it has blocks, every target exists, the lists of predecessors agree with
the transfers, every block that returns can be reached, and control never comes back to a block.
Then there is an order of the reachable blocks in which each block comes before its successors;
among the blocks that may come next the one of least index is taken.
-/

namespace Obligations

/-- Why a body is not well formed. -/
inductive GraphError where
  /-- There are no blocks. -/
  | empty
  /-- No block returns. -/
  | noExit
  /-- A block goes on to a block that does not exist. -/
  | danglingTarget (label : Name) (target : Nat)
  /-- The predecessors of a block disagree with the transfers. -/
  | inconsistentPredecessors (label : Name)
  /-- A block that returns cannot be reached. -/
  | unreachableReturn (label : Name)
  /-- Control can come back to a block. -/
  | cycle (label : Name)
deriving DecidableEq, Repr

/-- The text that reports the reason. -/
def GraphError.message : GraphError → String
  | empty => "implementation has no blocks"
  | noExit => "no block returns"
  | danglingTarget label target =>
    "block `" ++ label.text ++ "` jumps to " ++ blockText target ++ ", which does not exist"
  | inconsistentPredecessors label =>
    "predecessors of `" ++ label.text ++ "` disagree with the transfers that reach it"
  | unreachableReturn label =>
    "returning block `" ++ label.text ++ "` is unreachable from the entry"
  | cycle label => "control flow through `" ++ label.text ++ "` is cyclic"

namespace Implementation

/-- The first target that does not exist, with the label of the block that goes on to it. -/
def danglingTarget? (i : Implementation) : Option (Name × Nat) :=
  i.blocks.findSome? fun b =>
    (b.successors.find? fun t => i.blocks.length ≤ t).map fun t => (b.label, t)

/-- The blocks whose transfers lead to a block, in order of index, once for each target. -/
def expectedPreds (i : Implementation) (id : Nat) : List Nat :=
  i.blockIds.flatMap fun p => (i.successors p).filterMap fun t => if t = id then some p else none

/-- The first block whose predecessors are not, up to order, the blocks whose transfers lead to
it. -/
def inconsistentBlock? (i : Implementation) : Option Name :=
  i.blocks.zipIdx.findSome? fun (b, id) =>
    if b.preds.mergeSort = i.expectedPreds id then none else some b.label

/-- The first block that returns and cannot be reached. -/
def unreachableReturn? (i : Implementation) : Option Name :=
  let reached := i.reachable
  (i.returning.find? (· ∉ reached)).bind i.label?

/-- The reachable blocks in order of index. -/
def reachableIds (i : Implementation) : List Nat :=
  let reached := i.reachable
  i.blockIds.filter (· ∈ reached)

/-- The reachable blocks, each before its successors and of least index among those that may come
next; or why the body is not well formed. -/
def topologicalOrder (i : Implementation) : Except GraphError (List Nat) :=
  if i.blocks.isEmpty then .error .empty
  else
    match i.danglingTarget? with
    | some (label, target) => .error (.danglingTarget label target)
    | none =>
    match i.inconsistentBlock? with
    | some label => .error (.inconsistentPredecessors label)
    | none =>
    match i.unreachableReturn? with
    | some label => .error (.unreachableReturn label)
    | none =>
    match Graph.orderFrom i.successors i.reachableIds with
    | (order, []) => .ok order
    | (_, stuck :: _) => .error (.cycle ((i.label? stuck).getD i.name))

end Implementation

end Obligations
