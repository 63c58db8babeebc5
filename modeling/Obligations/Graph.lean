/-!
# Reachability and order in a graph

A graph is given by the list of successors of each node, and nodes are numbers. `reachFrom` lists
what can be reached, nearest nodes first, and `orderFrom` puts nodes into an order in which each one
comes before its successors, as far as there is one.
-/

namespace Obligations.Graph

theorem length_erase_lt {nodes : List Nat} {node : Nat} (h : node ∈ nodes) :
    (nodes.erase node).length < nodes.length := by
  rw [List.length_erase_of_mem h]
  have := List.length_pos_of_mem h
  omega

/-- The nodes of `unvisited` that can be reached from a queue of nodes, in the order in which a
breadth-first search meets them. -/
def reachFrom (successors : Nat → List Nat) (unvisited queue : List Nat) : List Nat :=
  match queue with
  | [] => []
  | node :: queue =>
    if node ∈ unvisited then
      node :: reachFrom successors (unvisited.erase node) (queue ++ successors node)
    else reachFrom successors unvisited queue
termination_by (unvisited.length, queue.length)
decreasing_by
  -- A visited node leaves the unvisited ones; any other leaves the queue.
  · exact Prod.Lex.left _ _ (length_erase_lt ‹node ∈ unvisited›)
  · exact Prod.Lex.right _ (by simp)

/-- The first of the given nodes that is no successor of any of them. -/
def source? (successors : Nat → List Nat) (nodes : List Nat) : Option Nat :=
  nodes.find? fun node => nodes.all fun other => node ∉ successors other

theorem mem_of_source? {successors : Nat → List Nat} {nodes : List Nat} {node : Nat}
    (h : source? successors nodes = some node) : node ∈ nodes :=
  List.mem_of_find?_eq_some h

/-- Takes nodes away one by one, each time the first that is no successor of a remaining one. Gives
the nodes in the order in which they were taken and those that could not be taken. -/
def orderFrom (successors : Nat → List Nat) (nodes : List Nat) : List Nat × List Nat :=
  match _ : source? successors nodes with
  | none => ([], nodes)
  | some node =>
    let rest := orderFrom successors (nodes.erase node)
    (node :: rest.1, rest.2)
termination_by nodes.length
decreasing_by
  exact length_erase_lt (mem_of_source? ‹source? successors nodes = some node›)

end Obligations.Graph
