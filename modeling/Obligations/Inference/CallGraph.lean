import Obligations.Program.Basic

/-!
# Who calls whom

The bodies of a program are known by their index. The height of a body is the greatest number of
steps that one can take from it down the call graph when bodies that call each other count as one;
bodies are analysed in order of height, so that the bodies that a body calls come first.
-/

namespace Obligations

/-- For each body the bodies that it calls. -/
structure CallGraph where
  /-- The bodies called, each once, by the index of the caller. -/
  callees : List (List Nat)

/-- The bodies that a body calls; a procedure without a body is left out. -/
def Implementation.calledBodies (i : Implementation) (p : Program) : List Nat :=
  let names := i.blocks.flatMap fun b => Cmd.calleesAll b.cmds
  (names.filterMap fun n => p.implementations.findIdx? (·.name = n)).eraseDups

namespace CallGraph

/-- The call graph of a program. -/
def ofProgram (p : Program) : CallGraph := ⟨p.implementations.map (·.calledBodies p)⟩

/-- The number of bodies. -/
def size (g : CallGraph) : Nat := g.callees.length

/-- The bodies that a body calls. -/
def successors (g : CallGraph) (i : Nat) : List Nat := (g.callees[i]?).getD []

/-- The bodies that call a body, in order of index. -/
def callers (g : CallGraph) (i : Nat) : List Nat :=
  (List.range g.size).filter fun j => i ∈ g.successors j

/-- The bodies that a body calls, directly or through others, and the body itself. -/
def reach (g : CallGraph) (i : Nat) : List Nat :=
  Graph.reachFrom g.successors (List.range g.size) [i]

/-- For each body the bodies that it reaches and that do not reach it. -/
def below (g : CallGraph) : List (List Nat) :=
  let reached := (List.range g.size).map g.reach
  reached.zipIdx.map fun (js, i) => js.filter fun j => i ∉ (reached[j]?).getD []

/-- Approximations of the heights, which no longer change after as many steps as there are
bodies. -/
def heightsAfter (below : List (List Nat)) : Nat → List Nat
  | 0 => below.map fun _ => 0
  | k + 1 =>
    let heights := heightsAfter below k
    below.map fun js => (js.map fun j => (heights[j]?).getD 0 + 1).foldl max 0

/-- The height of each body. -/
def heights (g : CallGraph) : List Nat := heightsAfter g.below g.size

end CallGraph

end Obligations
