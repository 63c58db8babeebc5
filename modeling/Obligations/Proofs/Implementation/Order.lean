import Mathlib.Data.List.Nodup
import Obligations.Condition.Error
import Obligations.Proofs.Implementation.Path

/-!
# The order of the blocks is topological

The breadth-first search of a graph finds exactly the nodes that a path through unvisited nodes
leads to (`Graph.mem_reachFrom_iff`), and taking nodes away that are no successor of a remaining
one puts each node before its successors (`Graph.not_mem_successors_of_orderFrom`). Hence the order
that is computed for a well-formed body is a topological order of its blocks
(`Implementation.isTopologicalOrder`), and the predecessors that its blocks list are the blocks that
lead to them (`Implementation.mem_preds_iff`).
-/

namespace Obligations.Graph

variable {successors : Nat → List Nat}

/-- One step of a path that stays among some nodes. -/
def StepWithin (successors : Nat → List Nat) (nodes : List Nat) (a b : Nat) : Prop :=
  b ∈ successors a ∧ b ∈ nodes

/-- The search finds exactly the nodes to which a path through unvisited nodes leads from the
queue. -/
theorem mem_reachFrom_iff {unvisited queue : List Nat} (hu : unvisited.Nodup) {id : Nat} :
    id ∈ reachFrom successors unvisited queue ↔
      ∃ start ∈ queue, start ∈ unvisited ∧
        Relation.ReflTransGen (StepWithin successors unvisited) start id := by
  fun_induction reachFrom successors unvisited queue with
  | case1 => simp
  | case2 unvisited node queue hnode ih =>
    have hmem : ∀ {a}, a ∈ unvisited.erase node ↔ a ≠ node ∧ a ∈ unvisited :=
      hu.mem_erase_iff
    have hstep : ∀ a b, StepWithin successors (unvisited.erase node) a b →
        StepWithin successors unvisited a b := fun a b h => ⟨h.1, (hmem.1 h.2).2⟩
    rw [List.mem_cons, ih (hu.erase node)]
    clear ih
    constructor
    · rintro (rfl | ⟨start, hq, hs, hp⟩)
      · exact ⟨id, List.mem_cons_self, hnode, .refl⟩
      · have hp' := Relation.ReflTransGen.mono hstep _ _ hp
        have hs' := (hmem.1 hs).2
        rcases List.mem_append.mp hq with hq | hq
        · exact ⟨start, List.mem_cons_of_mem _ hq, hs', hp'⟩
        · exact ⟨node, List.mem_cons_self, hnode, .head ⟨hq, hs'⟩ hp'⟩
    · -- Along the path, each node is the one visited now or is found later.
      rintro ⟨start, hq, hs, hp⟩
      induction hp with
      | refl =>
        by_cases heq : start = node
        · exact .inl heq
        · have hq : start ∈ queue := by simpa [heq] using hq
          exact .inr ⟨start, List.mem_append_left _ hq, hmem.2 ⟨heq, hs⟩, .refl⟩
      | @tail b c _ edge ih' =>
        by_cases heq : c = node
        · exact .inl heq
        · right
          have hc : c ∈ unvisited.erase node := hmem.2 ⟨heq, edge.2⟩
          rcases ih' with rfl | ⟨start', hq', hs', hp'⟩
          · exact ⟨c, List.mem_append_right _ edge.1, hc, .refl⟩
          · exact ⟨start', hq', hs', hp'.tail ⟨edge.1, hc⟩⟩
  | case3 unvisited node queue hnode ih =>
    rw [ih hu]
    constructor
    · rintro ⟨start, hq, hs⟩
      exact ⟨start, List.mem_cons_of_mem _ hq, hs⟩
    · rintro ⟨start, hq, hs, hp⟩
      have hne : start ≠ node := fun h => hnode (h ▸ hs)
      have hq : start ∈ queue := by simpa [hne] using hq
      exact ⟨start, hq, hs, hp⟩

/-- A node that may come next is no successor of a node that is left. -/
theorem not_mem_successors_of_source? {nodes : List Nat} {node : Nat}
    (h : source? successors nodes = some node) : ∀ other ∈ nodes, node ∉ successors other := by
  have hall := List.find?_some h
  rw [List.all_eq_true] at hall
  exact fun other hother => of_decide_eq_true (hall other hother)

/-- The nodes taken and the nodes left over are the nodes given. -/
theorem orderFrom_perm {nodes : List Nat} :
    ((orderFrom successors nodes).1 ++ (orderFrom successors nodes).2).Perm nodes := by
  fun_induction orderFrom successors nodes with
  | case1 => exact .refl _
  | case2 nodes node h rest ih =>
    exact (List.Perm.cons node ih).trans (List.perm_cons_erase (mem_of_source? h)).symm

/-- A node that is taken is no successor of itself or of a node that comes after it. -/
theorem not_mem_successors_of_orderFrom {nodes : List Nat} :
    ∀ before node after, (orderFrom successors nodes).1 = before ++ node :: after →
      ∀ other ∈ node :: after, node ∉ successors other := by
  fun_induction orderFrom successors nodes with
  | case1 => simp
  | case2 nodes first h rest ih =>
    intro before node after hsplit other hother
    cases before with
    | nil =>
      cases hsplit
      -- All nodes that come after are among the nodes that were left.
      have hother : other ∈ nodes := by
        rcases List.mem_cons.mp hother with rfl | hother
        · exact mem_of_source? h
        · have hrest : other ∈ nodes.erase first :=
            orderFrom_perm.mem_iff.1 (List.mem_append_left _ hother)
          exact List.mem_of_mem_erase hrest
      exact not_mem_successors_of_source? h other hother
    | cons first' before =>
      rw [List.cons_append] at hsplit
      exact ih before node after (List.cons.inj hsplit).2 other hother

end Obligations.Graph

namespace Obligations.Implementation

variable {i : Implementation} {order : List Nat}

/-- All targets of a body without dangling targets exist. -/
theorem lt_length_of_mem_successors (h : i.danglingTarget? = none) {id next : Nat}
    (edge : next ∈ i.successors id) : next < i.blocks.length := by
  unfold successors at edge
  cases hb : i.blocks[id]? with
  | none => simp [hb] at edge
  | some b =>
    rw [hb] at edge
    have hfind := List.findSome?_eq_none_iff.1 h b (List.mem_of_getElem? hb)
    rw [Option.map_eq_none_iff, List.find?_eq_none] at hfind
    simpa using hfind next edge

/-- A block from which control goes on exists. -/
theorem lt_length_of_edge {id next : Nat} (edge : next ∈ i.successors id) :
    id < i.blocks.length := by
  by_contra hge
  rw [successors, List.getElem?_eq_none (by omega)] at edge
  simp at edge

/-- A block of a consistent body lists its predecessors once for each target, in any order. -/
theorem perm_expectedPreds (h : i.inconsistentBlock? = none) {id : Nat} {b : Block}
    (hb : i.blocks[id]? = some b) : b.preds.Perm (i.expectedPreds id) := by
  have hmem : (b, id) ∈ i.blocks.zipIdx := List.mem_zipIdx_iff_getElem?.2 hb
  have hnone := List.findSome?_eq_none_iff.1 h (b, id) hmem
  have hsort : b.preds.mergeSort = i.expectedPreds id := by
    by_contra hne
    simp [hne] at hnone
  -- The two lists are compared sorted.
  exact hsort ▸ (List.mergeSort_perm _ _).symm

/-- The predecessors that a block of a consistent body lists are the blocks that lead to it. -/
theorem mem_preds_iff (h : i.inconsistentBlock? = none) {id : Nat} {b : Block}
    (hb : i.blocks[id]? = some b) {pred : Nat} : pred ∈ b.preds ↔ id ∈ i.successors pred := by
  rw [(perm_expectedPreds h hb).mem_iff]
  simp only [expectedPreds, blockIds, List.mem_flatMap, List.mem_range, List.mem_filterMap]
  constructor
  · rintro ⟨p, -, next, hnext, heq⟩
    split_ifs at heq with hid
    cases heq
    exact hid ▸ hnext
  · exact fun edge => ⟨pred, lt_length_of_edge edge, id, edge, if_pos rfl⟩

/-- The search finds exactly the reachable blocks, if all targets and the entry exist. -/
theorem mem_reachable_iff (h : ∀ id next, next ∈ i.successors id → next < i.blocks.length)
    (hentry : i.entry < i.blocks.length) {id : Nat} : id ∈ i.reachable ↔ i.Reachable id := by
  unfold reachable blockIds
  rw [Graph.mem_reachFrom_iff List.nodup_range]
  constructor
  · rintro ⟨start, hs, -, hp⟩
    rw [List.mem_singleton] at hs
    subst hs
    exact Relation.ReflTransGen.mono (fun _ _ hab => hab.1) _ _ hp
  · intro hp
    refine ⟨i.entry, List.mem_singleton_self _, List.mem_range.2 hentry, ?_⟩
    exact Relation.ReflTransGen.mono (fun a b hab => ⟨hab, List.mem_range.2 (h a b hab)⟩) _ _ hp

/-- Where a block can be reached, the entry exists. -/
theorem entry_lt_length_of_mem_reachable {id : Nat} (h : id ∈ i.reachable) :
    i.entry < i.blocks.length := by
  obtain ⟨start, hstart, hlt, -⟩ := (Graph.mem_reachFrom_iff List.nodup_range).1 h
  rw [List.mem_singleton] at hstart
  exact hstart ▸ List.mem_range.1 hlt

/-- What holds of a body for which an order of the blocks is found. -/
theorem topologicalOrder_cases (h : i.topologicalOrder = .ok order) :
    i.danglingTarget? = none ∧ i.inconsistentBlock? = none ∧ i.unreachableReturn? = none ∧
      Graph.orderFrom i.successors i.reachableIds = (order, []) := by
  unfold topologicalOrder at h
  split_ifs at h
  cases hd : i.danglingTarget? with
  | some => simp [hd] at h
  | none =>
  cases hc : i.inconsistentBlock? with
  | some => simp [hd, hc] at h
  | none =>
  cases hr : i.unreachableReturn? with
  | some => simp [hd, hc, hr] at h
  | none =>
  -- No check found anything, so the result is that of the search for an order.
  refine ⟨rfl, rfl, rfl, ?_⟩
  rw [hd, hc, hr] at h
  cases ho : Graph.orderFrom i.successors i.reachableIds with
  | mk taken left =>
    cases left with
    | nil =>
      simp only [ho] at h
      cases h
      rfl
    | cons => simp [ho] at h

/-- A body that is checked has an order. -/
theorem exists_order (h : i.check = .ok ()) :
    ∃ order, i.topologicalOrder = .ok order ∧ i.order = .ok order := by
  unfold check Implementation.order at h
  unfold Implementation.order
  cases ho : i.topologicalOrder with
  | error => rw [ho] at h; cases h
  | ok order => exact ⟨order, rfl, rfl⟩

/-- The order found for a body whose entry exists is topological. -/
theorem isTopologicalOrder (h : i.topologicalOrder = .ok order)
    (hentry : i.entry < i.blocks.length) : i.IsTopologicalOrder order := by
  obtain ⟨hd, -, -, ho⟩ := topologicalOrder_cases h
  have htargets : ∀ id next, next ∈ i.successors id → next < i.blocks.length :=
    fun _ _ edge => lt_length_of_mem_successors hd edge
  have hperm : order.Perm i.reachableIds := by
    have hsplit := @Graph.orderFrom_perm i.successors i.reachableIds
    rwa [ho, List.append_nil] at hsplit
  -- The order lists the blocks that the search finds.
  have hmem : ∀ id, id ∈ order ↔ id < i.blocks.length ∧ id ∈ i.reachable := by
    intro id
    rw [hperm.mem_iff]
    simp [reachableIds, blockIds]
  have hreach : ∀ id, i.Reachable id → id < i.blocks.length := by
    intro id hid
    rcases Relation.ReflTransGen.cases_tail hid with heq | ⟨b, -, edge⟩
    · exact heq ▸ hentry
    · exact htargets b id edge
  have hiff : ∀ id, id ∈ order ↔ i.Reachable id := by
    intro id
    rw [hmem, mem_reachable_iff htargets hentry]
    exact ⟨And.right, fun hid => ⟨hreach id hid, hid⟩⟩
  refine ⟨?_, hiff, fun id hid => ((hmem id).1 hid).1, ?_⟩
  · exact hperm.nodup_iff.2 (List.nodup_range.filter _)
  · intro before id after hsplit next edge
    have hnext : next ∈ order := by
      refine (hiff next).2 (.tail ((hiff id).1 ?_) edge)
      rw [hsplit]
      simp
    -- If the successor came before the block, it would not be a successor.
    rw [hsplit] at hnext
    rcases List.mem_append.mp hnext with hnext | hnext
    · obtain ⟨before', after', rfl⟩ := List.append_of_mem hnext
      refine absurd edge (@Graph.not_mem_successors_of_orderFrom i.successors i.reachableIds
        before' next (after' ++ id :: after) ?_ id (by simp))
      rw [ho, hsplit]
      simp
    · rcases List.mem_cons.mp hnext with rfl | hnext
      · refine absurd edge (@Graph.not_mem_successors_of_orderFrom i.successors i.reachableIds
          before next after ?_ next List.mem_cons_self)
        rw [ho, hsplit]
      · exact hnext

/-- The entry of a body exists if the order that is found for it is not empty. -/
theorem entry_lt_length (h : i.topologicalOrder = .ok order) {id : Nat} (hid : id ∈ order) :
    i.entry < i.blocks.length := by
  obtain ⟨-, -, -, ho⟩ := topologicalOrder_cases h
  have hperm := @Graph.orderFrom_perm i.successors i.reachableIds
  rw [ho, List.append_nil] at hperm
  have hreach : id ∈ i.reachable := by simpa using (List.mem_filter.1 (hperm.mem_iff.1 hid)).2
  exact entry_lt_length_of_mem_reachable hreach

/-! ## Bodies with one exit -/

/-- The exits of a well-formed body can be reached. -/
theorem exit_mem_reachable (h : i.topologicalOrder = .ok order) {exit : Nat}
    (hexit : exit ∈ i.returning) : exit ∈ i.reachable := by
  obtain ⟨-, -, hr, -⟩ := topologicalOrder_cases h
  cases hfound : i.returning.find? (· ∉ i.reachable) with
  | none => simpa using List.find?_eq_none.1 hfound exit hexit
  | some r =>
    -- The first exit that cannot be reached would have been reported.
    have hlt : r < i.blocks.length :=
      List.mem_range.1 (List.mem_filter.1 (List.mem_of_find?_eq_some hfound)).1
    have hreported : i.unreachableReturn? = i.label? r := congrArg (·.bind i.label?) hfound
    rw [hreported, label?, List.getElem?_eq_getElem hlt] at hr
    cases hr

/-- The order of a well-formed body with one exit is topological. -/
theorem isTopologicalOrder_of_returning (h : i.topologicalOrder = .ok order) {exit : Nat}
    (hexit : i.returning = [exit]) : i.IsTopologicalOrder order :=
  isTopologicalOrder h
    (entry_lt_length_of_mem_reachable (exit_mem_reachable h (hexit ▸ List.mem_singleton_self exit)))

/-- The only block of the order at which control leaves the body is the exit. -/
theorem filter_isReturn_eq (h : i.topologicalOrder = .ok order) {exit : Nat}
    (hexit : i.returning = [exit]) :
    order.filter (fun id => (i.blocks[id]?.map (·.transfer.isReturn)).getD false) = [exit] := by
  have ho := isTopologicalOrder_of_returning h hexit
  -- A block of the order returns exactly if it is the exit.
  have hreturn : ∀ id ∈ order,
      (i.blocks[id]?.map (·.transfer.isReturn)).getD false = decide (id = exit) := by
    intro id hid
    have hiff : id ∈ i.returning ↔ (i.blocks[id]?.map (·.transfer.isReturn)).getD false = true := by
      unfold returning blockIds
      rw [List.mem_filter, List.mem_range]
      exact and_iff_right (ho.lt_length id hid)
    rw [hexit, List.mem_singleton] at hiff
    rw [Bool.eq_iff_iff, ← hiff, decide_eq_true_eq]
  have hmem : exit ∈ order := by
    refine (ho.mem_iff exit).2 ((mem_reachable_iff ?_ ?_).1 (exit_mem_reachable h (hexit ▸ List.mem_singleton_self exit)))
    · exact fun _ _ edge => lt_length_of_mem_successors (topologicalOrder_cases h).1 edge
    · exact ho.lt_length _ ho.entry_mem
  rw [List.filter_congr hreturn, List.filter_eq, List.count_eq_one_of_mem ho.nodup hmem]
  rfl

end Obligations.Implementation
