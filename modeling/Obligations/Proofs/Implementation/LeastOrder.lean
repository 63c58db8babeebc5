import Mathlib.Data.List.Permutation
import Mathlib.Data.Set.Finite.Basic
import Mathlib.Order.WellFounded
import Obligations.Proofs.Implementation.Consistency

/-!
# The order of the blocks is complete and least

An order of the blocks is found exactly for the well-formed bodies (`Implementation.WellFormed`):
those that have blocks, whose targets exist and whose lists of predecessors agree with the
transfers, whose exits can be reached and in which control does not come back to a block that it
reaches. Nodes are left over when the others are taken away only if each of them is a successor of
another (`Graph.exists_predecessor`), and then there is a cycle among them
(`Graph.exists_transGen_self`). Since the first node that may come next is taken each time, the order
comes lexicographically before every other (`Graph.orderFrom_lex`).
`Implementation.topologicalOrder_least` puts the two together.
-/

namespace Obligations.Graph

variable {successors : Nat → List Nat} {nodes : List Nat}

/-! ## Nodes left over -/

/-- Each node that is left over is a successor of a node that is left over. -/
theorem exists_predecessor : ∀ node ∈ (orderFrom successors nodes).2,
    ∃ other ∈ (orderFrom successors nodes).2, node ∈ successors other := by
  fun_induction orderFrom successors nodes with
  | case1 nodes h =>
    intro node hnode
    have hnot := List.find?_eq_none.1 h node hnode
    by_contra hall
    push Not at hall
    exact hnot (List.all_eq_true.2 fun other hother => decide_eq_true (hall other hother))
  | case2 nodes first h rest ih => exact ih

/-- Among finitely many nodes each of which is a successor of another, some node leads back to
itself. -/
theorem exists_transGen_self (hne : nodes ≠ [])
    (h : ∀ node ∈ nodes, ∃ other ∈ nodes, node ∈ successors other) :
    ∃ node ∈ nodes, Relation.TransGen (fun a b => b ∈ successors a) node node := by
  by_contra hacyclic
  push Not at hacyclic
  -- Otherwise the paths among the nodes are well-founded, and a first node has no predecessor.
  let before (a b : { node // node ∈ nodes }) : Prop :=
    Relation.TransGen (fun a b => b ∈ successors a) a.1 b.1
  have : IsTrans _ before := ⟨fun _ _ _ hab hbc => Relation.TransGen.trans hab hbc⟩
  have : Std.Irrefl before := ⟨fun a => hacyclic a.1 a.2⟩
  have : Finite { node // node ∈ nodes } := (List.finite_toSet nodes).to_subtype
  obtain ⟨first, hfirst⟩ := List.exists_mem_of_ne_nil nodes hne
  obtain ⟨⟨node, hnode⟩, -, hmin⟩ := (Finite.wellFounded_of_trans_of_irrefl before).has_min
    Set.univ ⟨⟨first, hfirst⟩, Set.mem_univ _⟩
  obtain ⟨other, hother, edge⟩ := h node hnode
  exact hmin ⟨other, hother⟩ (Set.mem_univ _) (.single edge)

/-! ## The least order -/

/-- A node that is taken comes before those of its successors that are taken. -/
theorem idxOf_lt_of_mem_successors (hnodup : (orderFrom successors nodes).1.Nodup) {a b : Nat}
    (ha : a ∈ (orderFrom successors nodes).1) (hb : b ∈ (orderFrom successors nodes).1)
    (edge : b ∈ successors a) :
    (orderFrom successors nodes).1.idxOf a < (orderFrom successors nodes).1.idxOf b := by
  obtain ⟨before, after, hsplit⟩ := List.append_of_mem hb
  have hlast := not_mem_successors_of_orderFrom before b after hsplit
  rw [hsplit] at hnodup ha ⊢
  have hnot : b ∉ before := fun hmem =>
    (List.nodup_append.1 hnodup).2.2 b hmem b List.mem_cons_self rfl
  rcases List.mem_append.1 ha with ha | ha
  · rw [List.idxOf_append_of_mem ha, List.idxOf_append_of_notMem hnot]
    exact (List.idxOf_lt_length_of_mem ha).trans_le (Nat.le_add_right _ _)
  · -- A node is no successor of itself or of a node that comes after it.
    exact absurd edge (hlast a ha)

/-- Where all nodes are taken, they are taken in an order that is lexicographically the least of the
orders that put each node before its successors. -/
theorem orderFrom_lex (hsorted : nodes.Pairwise (· < ·)) (hdone : (orderFrom successors nodes).2 = [])
    {other : List Nat} (hperm : other.Perm nodes)
    (hbefore : ∀ a ∈ other, ∀ b ∈ other, b ∈ successors a → other.idxOf a < other.idxOf b) :
    (orderFrom successors nodes).1 = other ∨
      List.Lex (· < ·) (orderFrom successors nodes).1 other := by
  fun_induction orderFrom successors nodes generalizing other with
  | case1 nodes h =>
    cases hdone
    exact .inl hperm.eq_nil.symm
  | case2 nodes node h rest ih =>
    cases other with
    | nil => exact absurd (hperm.symm.eq_nil ▸ mem_of_source? h) List.not_mem_nil
    | cons first tail =>
      -- The first node of the other order may come first, so it is not before the one taken.
      have hfirst : ∀ a ∈ nodes, first ∉ successors a := by
        intro a ha edge
        have hlt := hbefore a (hperm.mem_iff.2 ha) first List.mem_cons_self edge
        rw [List.idxOf_cons_self] at hlt
        exact Nat.not_lt_zero _ hlt
      have hmem : first ∈ nodes := hperm.mem_iff.1 List.mem_cons_self
      have hnodup : (first :: tail).Nodup :=
        hperm.nodup_iff.2 (hsorted.imp fun hlt => Nat.ne_of_lt hlt)
      obtain ⟨-, before, after, rfl, hskipped⟩ := List.find?_eq_some_iff_append.1 h
      rcases List.mem_append.1 hmem with hmem | hmem
      · -- A node that was passed over is a successor of another.
        have hsource := hskipped first hmem
        rw [Bool.not_eq_true', Bool.eq_false_iff] at hsource
        exact absurd (List.all_eq_true.2 fun a ha => decide_eq_true (hfirst a ha)) hsource
      · rcases List.mem_cons.1 hmem with rfl | hmem
        · have htail : tail.Perm ((before ++ first :: after).erase first) := by
            rw [← List.erase_cons_head first tail]
            exact hperm.erase first
          refine (ih (hsorted.sublist List.erase_sublist) hdone htail fun a ha b hb edge => ?_).imp
            (congrArg (first :: ·)) .cons
          -- In the rest of the other order all nodes are one place further to the front.
          have hlt := hbefore a (List.mem_cons_of_mem _ ha) b (List.mem_cons_of_mem _ hb) edge
          have hnot := (List.nodup_cons.1 hnodup).1
          rw [List.idxOf_cons_ne _ fun heq : first = a => hnot (heq ▸ ha),
            List.idxOf_cons_ne _ fun heq : first = b => hnot (heq ▸ hb)] at hlt
          exact Nat.lt_of_succ_lt_succ hlt
        · have hlt := (List.pairwise_cons.1 (List.pairwise_append.1 hsorted).2.1).1 first hmem
          exact .inr (.rel hlt)

end Obligations.Graph

namespace Obligations.Implementation

variable {i : Implementation} {order : List Nat} {id : Nat}

/-- A body for which there is an order of the blocks. -/
structure WellFormed (i : Implementation) : Prop extends Consistent i where
  /-- There are blocks. -/
  nonempty : i.blocks ≠ []
  /-- Control can reach the blocks at which it leaves the body. -/
  reachable_of_ret : ∀ id, i.transferAt? id = some .ret → i.Reachable id
  /-- Control does not come back to a block that it can reach. -/
  acyclic : ∀ id, i.Reachable id → ¬ Relation.TransGen (fun a b => b ∈ i.successors a) id id

/-- An order that lists the blocks that control can reach, each once and before the blocks to which
it leads. -/
structure IsBlockOrder (i : Implementation) (order : List Nat) : Prop where
  /-- No block is listed twice. -/
  nodup : order.Nodup
  /-- The blocks listed are those that control can reach. -/
  mem_iff : ∀ id, id ∈ order ↔ id < i.blocks.length ∧ i.Reachable id
  /-- A block comes before those to which it leads. -/
  before : ∀ a ∈ order, ∀ b ∈ order, b ∈ i.successors a → order.idxOf a < order.idxOf b

/-! ## The search -/

/-- The search finds exactly the blocks that control can reach, if all targets exist. -/
theorem mem_reachableIds_iff (h : ∀ id next, next ∈ i.successors id → next < i.blocks.length) :
    id ∈ i.reachableIds ↔ id < i.blocks.length ∧ i.Reachable id := by
  have hmem : id ∈ i.reachableIds ↔ id < i.blocks.length ∧ id ∈ i.reachable := by
    simp [reachableIds, blockIds]
  rw [hmem]
  refine and_congr_right fun hid => ?_
  by_cases hentry : i.entry < i.blocks.length
  · exact mem_reachable_iff h hentry
  · -- Control enters at no block, and goes on nowhere.
    refine iff_of_false (fun hreach => hentry (entry_lt_length_of_mem_reachable hreach)) ?_
    intro hreach
    rcases Relation.ReflTransGen.cases_head hreach with rfl | ⟨next, edge, -⟩
    · exact hentry hid
    · exact hentry (lt_length_of_edge edge)

/-- No exit is reported exactly if control can reach the blocks at which it leaves the body. -/
theorem unreachableReturn?_eq_none_iff (hi : i.Consistent) :
    i.unreachableReturn? = none ↔ ∀ id, i.transferAt? id = some .ret → i.Reachable id := by
  have hmem : ∀ {id}, i.transferAt? id = some .ret → (id ∈ i.reachable ↔ i.Reachable id) := by
    intro id hret
    have hlt := lt_length_of_transferAt? hret
    have hlisted : id ∈ i.reachableIds ↔ id < i.blocks.length ∧ i.Reachable id :=
      mem_reachableIds_iff hi.lt_length
    simpa [reachableIds, blockIds, hlt] using hlisted
  unfold unreachableReturn?
  dsimp only
  cases hfound : i.returning.find? (· ∉ i.reachable) with
  | none =>
    refine iff_of_true rfl fun id hret => (hmem hret).1 ?_
    simpa using List.find?_eq_none.1 hfound id (mem_returning.2 hret)
  | some r =>
    -- The exit that is found has a label.
    have hret := mem_returning.1 (List.mem_of_find?_eq_some hfound)
    have hnot : r ∉ i.reachable := by simpa using List.find?_some hfound
    refine iff_of_false ?_ fun hall => hnot ((hmem hret).2 (hall r hret))
    rw [Option.bind_some, label?, List.getElem?_eq_getElem (lt_length_of_transferAt? hret)]
    exact Option.some_ne_none _

/-! ## The order -/

/-- The order that is found lists the blocks that the search finds. -/
theorem perm_reachableIds (h : i.topologicalOrder = .ok order) : order.Perm i.reachableIds := by
  obtain ⟨-, -, -, horder⟩ := topologicalOrder_cases h
  have hsplit := @Graph.orderFrom_perm i.successors i.reachableIds
  rwa [horder, List.append_nil] at hsplit

/-- The order that is found lists the blocks that control can reach, each before its successors. -/
theorem isBlockOrder (h : i.topologicalOrder = .ok order) : i.IsBlockOrder order := by
  obtain ⟨hdangling, -, -, horder⟩ := topologicalOrder_cases h
  have hperm := perm_reachableIds h
  have hnodup : order.Nodup := hperm.nodup_iff.2 (List.nodup_range.filter _)
  refine ⟨hnodup, fun id => ?_, fun a ha b hb edge => ?_⟩
  · rw [hperm.mem_iff]
    exact mem_reachableIds_iff fun _ _ edge => lt_length_of_mem_successors hdangling edge
  · have hlt := @Graph.idxOf_lt_of_mem_successors i.successors i.reachableIds
    rw [horder] at hlt
    exact hlt hnodup ha hb edge

/-- A path through blocks of an order leads on in the order. -/
theorem IsBlockOrder.idxOf_lt (h : i.IsBlockOrder order)
    (htargets : ∀ a next, next ∈ i.successors a → next < i.blocks.length) {a b : Nat}
    (ha : a ∈ order) (hpath : Relation.TransGen (fun a b => b ∈ i.successors a) a b) :
    b ∈ order ∧ order.idxOf a < order.idxOf b := by
  have hmem : ∀ {a b}, a ∈ order → b ∈ i.successors a → b ∈ order := fun ha edge =>
    (h.mem_iff _).2 ⟨htargets _ _ edge, ((h.mem_iff _).1 ha).2.tail edge⟩
  induction hpath with
  | single edge => exact ⟨hmem ha edge, h.before _ ha _ (hmem ha edge) edge⟩
  | tail _ edge ih =>
    exact ⟨hmem ih.1 edge, ih.2.trans (h.before _ ih.1 _ (hmem ih.1 edge) edge)⟩

/-- A body for which an order is found is well formed. -/
theorem wellFormed_of_topologicalOrder (h : i.topologicalOrder = .ok order) : i.WellFormed := by
  obtain ⟨hdangling, hconsistent, hreturn, -⟩ := topologicalOrder_cases h
  have hi : i.Consistent := consistent_iff.2 ⟨hdangling, hconsistent⟩
  have horder := isBlockOrder h
  refine ⟨hi, fun hnil => ?_, (unreachableReturn?_eq_none_iff hi).1 hreturn, fun id hid hcycle => ?_⟩
  · unfold topologicalOrder at h
    rw [hnil] at h
    cases h
  · -- A cycle would put a block before itself. Its blocks exist, since each has a successor.
    obtain ⟨next, edge, -⟩ := Relation.TransGen.head'_iff.1 hcycle
    have hmem : id ∈ order := (horder.mem_iff id).2 ⟨lt_length_of_edge edge, hid⟩
    exact Nat.lt_irrefl _ (horder.idxOf_lt hi.lt_length hmem hcycle).2

/-- An order is found for a well-formed body. -/
theorem WellFormed.exists_topologicalOrder (h : i.WellFormed) :
    ∃ order, i.topologicalOrder = .ok order := by
  obtain ⟨hdangling, hconsistent⟩ := consistent_iff.1 h.toConsistent
  have hreturn := (unreachableReturn?_eq_none_iff h.toConsistent).2 h.reachable_of_ret
  have hleft : (Graph.orderFrom i.successors i.reachableIds).2 = [] := by
    by_contra hne
    obtain ⟨id, hid, hcycle⟩ := Graph.exists_transGen_self hne Graph.exists_predecessor
    have hmem : id ∈ i.reachableIds :=
      Graph.orderFrom_perm.mem_iff.1 (List.mem_append_right _ hid)
    exact h.acyclic id ((mem_reachableIds_iff h.lt_length).1 hmem).2 hcycle
  refine ⟨(Graph.orderFrom i.successors i.reachableIds).1, ?_⟩
  unfold topologicalOrder
  rw [if_neg (by simpa using h.nonempty), hdangling, hconsistent, hreturn]
  dsimp only
  split
  next order heq => rw [heq]
  next order stuck left heq =>
    rw [heq] at hleft
    cases hleft

/-- The order that is found comes lexicographically before every other. -/
theorem lex_of_topologicalOrder (h : i.topologicalOrder = .ok order) {other : List Nat}
    (hother : i.IsBlockOrder other) (hne : other ≠ order) : List.Lex (· < ·) order other := by
  obtain ⟨-, -, -, horder⟩ := topologicalOrder_cases h
  have hfound := isBlockOrder h
  have hsame : other.Perm order :=
    (List.perm_ext_iff_of_nodup hother.nodup hfound.nodup).2 fun id => by
      rw [hother.mem_iff, hfound.mem_iff]
  have hsorted : i.reachableIds.Pairwise (· < ·) := List.pairwise_lt_range.filter _
  have hlex := Graph.orderFrom_lex hsorted (by rw [horder]) (hsame.trans (perm_reachableIds h))
    hother.before
  rw [horder] at hlex
  exact hlex.resolve_left fun heq => hne heq.symm

/-- A body whose first block leads twice to one of the two blocks before the exit, and in which
another block leads to the exit that control cannot reach. -/
def detoured : Implementation where
  name := ⟨"P"⟩
  inputs := []
  outputs := []
  locals := []
  attributes := []
  blocks :=
    [⟨⟨"entry"⟩, [], [], .goto [2, 1, 1]⟩, ⟨⟨"then"⟩, [], [0, 0], .goto [3]⟩,
      ⟨⟨"else"⟩, [], [0], .goto [3]⟩, ⟨⟨"join"⟩, [], [4, 2, 1], .ret⟩,
      ⟨⟨"orphan"⟩, [], [], .goto [3]⟩]
  entry := 0

end Obligations.Implementation
