import Obligations.Proofs.Implementation.Order
import Obligations.Proofs.Implementation.Transfer
import Obligations.Proofs.Vocabulary.Preparation

/-!
# Critical edges

An edge is critical if it leads from a block with several targets to a block to which other blocks
lead as well. Splitting the edges that lead to the joins of a well-formed body leaves no critical
edge (`Implementation.uncritical_splitCriticalEdges`). The invariant of the outer loop is that an
edge is critical only if it leads to a join that is still to come, that of the inner loop that an
edge to the join at hand is critical only if it comes from a predecessor that is still to come. A
body without critical edges lists each predecessor of a join once
(`Implementation.nodup_preds`).
-/

namespace Obligations.Implementation

variable {ε : Type} {i j : Implementation} {p id source target : Nat}

/-- Every target exists and lists the blocks that lead to it. -/
def Linked (i : Implementation) : Prop :=
  ∀ p next, next ∈ i.successors p → next < i.blocks.length ∧ p ∈ i.predsAt next

/-- No edge to the block is critical: one block alone leads to it, or every block that leads to it
leads nowhere else. -/
def Uncritical (i : Implementation) (id : Nat) : Prop :=
  (∀ p q, id ∈ i.successors p → id ∈ i.successors q → p = q) ∨
    ∀ p, id ∈ i.successors p → i.successors p = [id]

/-- The targets of a well-formed body are linked. -/
theorem linked_of_topologicalOrder {order : List Nat} (h : i.topologicalOrder = .ok order) :
    i.Linked := by
  obtain ⟨hdangling, hconsistent, -, -⟩ := topologicalOrder_cases h
  intro p next edge
  have hlt := lt_length_of_mem_successors hdangling edge
  refine ⟨hlt, ?_⟩
  unfold predsAt
  rw [List.getElem?_eq_getElem hlt]
  exact (mem_preds_iff hconsistent (List.getElem?_eq_getElem hlt)).2 edge

theorem successors_eq_nil (hid : i.blocks.length ≤ id) : i.successors id = [] := by
  unfold successors
  rw [List.getElem?_eq_none hid]
  rfl

/-- A source with several targets exists. -/
theorem lt_length_of_not_length_lt (h : ¬ (i.successors source).length < 2) :
    source < i.blocks.length := by
  by_contra hge
  rw [successors_eq_nil (Nat.le_of_not_lt hge)] at h
  exact h Nat.zero_lt_two

/-- A block to which at most one block leads, and that one only once, has no critical edge. -/
theorem Linked.uncritical (h : i.Linked) (hid : (i.predsAt id).length ≤ 1) : i.Uncritical id := by
  refine .inl fun p q hp hq => ?_
  have hp := (h p id hp).2
  have hq := (h q id hq).2
  match i.predsAt id, hid, hp, hq with
  | [r], _, hp, hq => rw [List.mem_singleton.1 hp, List.mem_singleton.1 hq]

/-! ## One change -/

theorem Linked.addBlock (h : i.Linked) (label : Name) (cmds : List Cmd) :
    (i.addBlock label cmds).Linked := by
  intro p next edge
  rw [successors_addBlock] at edge
  rw [predsAt_addBlock, length_addBlock]
  exact ⟨Nat.lt_succ_of_lt (h p next edge).1, (h p next edge).2⟩

theorem Linked.setTransfer (h : i.Linked) (hid : id < i.blocks.length) {t : Transfer}
    (ht : ∀ next ∈ t.targets, next < i.blocks.length) : (i.setTransfer id t).Linked := by
  intro p next edge
  rw [successors_setTransfer hid] at edge
  rw [length_setTransfer]
  split_ifs at edge with hp
  · subst hp
    exact ⟨ht next edge, mem_predsAt_setTransfer_self hid t (ht next edge) edge⟩
  · exact ⟨(h p next edge).1, (mem_predsAt_setTransfer hid t hp).2 (h p next edge).2⟩

/-! ## One edge -/

section

variable (hsource : source < i.blocks.length)
  (hj : (i.splitEdge source target : Minting ε _).outcome = .ok j)

include hsource hj

/-- Splitting an edge puts a new block between the source and the target. -/
theorem splitEdge_eq_ok : ∃ label, j = ((i.addBlock label []).setTransfer i.blocks.length
    (.goto [target])).setTransfer source
      (.goto ((i.successors source).map fun t => if t = target then i.blocks.length else t)) := by
  obtain ⟨⟨k, middle⟩, hk, hj⟩ := Minting.bind_eq_ok.1 hj
  cases hj
  obtain ⟨rfl, rfl⟩ := addFreshBlock_eq_ok hk
  refine ⟨_, congrArg (fun ts : List Nat => Implementation.setTransfer _ source (.goto (ts.map _))) ?_⟩
  rw [successors_setTransfer (by rw [length_addBlock]; omega), if_neg (by omega),
    successors_addBlock]

theorem length_splitEdge : j.blocks.length = i.blocks.length + 1 := by
  obtain ⟨label, rfl⟩ := splitEdge_eq_ok hsource hj
  rw [length_setTransfer, length_setTransfer, length_addBlock]

theorem successors_splitEdge : j.successors p =
    if p = source then
      (i.successors source).map fun t => if t = target then i.blocks.length else t
    else if p = i.blocks.length then [target] else i.successors p := by
  obtain ⟨label, rfl⟩ := splitEdge_eq_ok hsource hj
  rw [successors_setTransfer (by rw [length_setTransfer, length_addBlock]; omega),
    successors_setTransfer (by rw [length_addBlock]; omega), successors_addBlock]
  rfl

theorem Linked.splitEdge (h : i.Linked) (htarget : target < i.blocks.length) : j.Linked := by
  obtain ⟨label, rfl⟩ := splitEdge_eq_ok hsource hj
  have hmiddle : ∀ next ∈ (Transfer.goto [target]).targets,
      next < (i.addBlock label []).blocks.length := by
    intro next hnext
    rw [List.mem_singleton.1 hnext, length_addBlock]
    omega
  refine ((h.addBlock label []).setTransfer (by rw [length_addBlock]; omega) hmiddle).setTransfer
    (by rw [length_setTransfer, length_addBlock]; omega) fun next hnext => ?_
  obtain ⟨t, ht, rfl⟩ := List.mem_map.1 hnext
  rw [length_setTransfer, length_addBlock]
  split_ifs
  · omega
  · exact Nat.lt_succ_of_lt (h source t ht).1

/-- What leads to the other blocks stays the same. -/
theorem mem_successors_splitEdge (hid : id ≠ target) (hnew : id ≠ i.blocks.length) :
    id ∈ j.successors p ↔ id ∈ i.successors p := by
  rw [successors_splitEdge hsource hj]
  split_ifs with hp hp'
  · subst hp
    rw [List.mem_map]
    constructor
    · rintro ⟨t, ht, rfl⟩
      split_ifs at hid hnew ⊢
      · exact absurd rfl hnew
      · exact ht
    · exact fun h => ⟨id, h, if_neg hid⟩
  · rw [hp', successors_eq_nil (Nat.le_refl _), List.mem_singleton]
    exact iff_of_false hid List.not_mem_nil
  · rfl

/-- Splitting an edge makes no edge to another block critical, and none to the new one. -/
theorem Uncritical.splitEdge (h : i.Linked) (hid : id ≠ target)
    (hcritical : i.Uncritical id) : j.Uncritical id := by
  by_cases hnew : id = i.blocks.length
  · -- Only the source leads to the new block.
    have honly : ∀ p, id ∈ j.successors p → p = source := by
      intro p edge
      by_contra hp
      rw [successors_splitEdge hsource hj, if_neg hp] at edge
      split_ifs at edge
      · exact hid (List.mem_singleton.1 edge)
      · exact absurd (h p id edge).1 (by omega)
    exact .inl fun p q hp hq => (honly p hp).trans (honly q hq).symm
  · have hmem : ∀ p, id ∈ j.successors p ↔ id ∈ i.successors p := fun p =>
      mem_successors_splitEdge hsource hj hid hnew
    -- The other blocks have the same predecessors as before, but of these the source may lead to
    -- the new block now.
    refine hcritical.imp (fun hone p q hp hq => hone p q ((hmem p).1 hp) ((hmem q).1 hq)) ?_
    intro hall p edge
    have hp := hall p ((hmem p).1 edge)
    rw [successors_splitEdge hsource hj]
    split_ifs with hps hpn
    · rw [← hps, hp, List.map_singleton, if_neg hid]
    · rw [hpn, successors_eq_nil (Nat.le_refl _)] at hp
      cases hp
    · exact hp

/-- After an edge is split, the new block leads to the target, and the source does no longer. -/
theorem mem_successors_splitEdge_target (htarget : target < i.blocks.length)
    (edge : target ∈ j.successors p) :
    j.successors p = [target] ∨ p ≠ source ∧ j.successors p = i.successors p := by
  rw [successors_splitEdge hsource hj] at edge ⊢
  split_ifs at edge ⊢ with hp hp'
  · obtain ⟨t, -, heq⟩ := List.mem_map.1 edge
    split_ifs at heq with ht
    · omega
    · exact absurd heq ht
  · exact .inl rfl
  · exact .inr ⟨hp, rfl⟩

end

/-! ## All edges -/

/-- What splitting the edges from some sources to a block does: of the edges to the block those from
other sources may still be critical, of the other edges those that were. -/
theorem foldlM_splitEdge {sources : List Nat} (hi : i.Linked) (htarget : target < i.blocks.length)
    (hcovered : ∀ p, target ∈ i.successors p → p ∈ sources ∨ i.successors p = [target])
    (hj : (sources.foldlM (fun i source =>
      if (i.successors source).length < 2 then pure i else i.splitEdge source target) i :
        Minting ε _).outcome = .ok j) :
    j.Linked ∧ i.blocks.length ≤ j.blocks.length ∧ j.Uncritical target ∧
      ∀ id, id ≠ target → i.Uncritical id → j.Uncritical id := by
  induction sources generalizing i with
  | nil =>
    cases hj
    refine ⟨hi, Nat.le_refl _, .inr fun p edge => ?_, fun _ _ h => h⟩
    exact (hcovered p edge).resolve_left List.not_mem_nil
  | cons source sources ih =>
    rw [List.foldlM_cons] at hj
    obtain ⟨k, hk, hj⟩ := Minting.bind_eq_ok.1 hj
    split_ifs at hk with hlength
    · -- A source with one target leads nowhere else.
      cases hk
      refine ih hi htarget (fun p edge => ?_) hj
      rcases hcovered p edge with hp | hp
      · rcases List.mem_cons.1 hp with rfl | hp
        · right
          match i.successors p, hlength, edge with
          | [next], _, edge => rw [List.mem_singleton.1 edge]
        · exact .inl hp
      · exact .inr hp
    · have hsource := lt_length_of_not_length_lt hlength
      have hlen := length_splitEdge hsource hk
      -- The source of a split edge leads to the target no more, so the sources that follow cover
      -- the rest.
      obtain ⟨hlinked, hle, htarget', hother⟩ := ih (Linked.splitEdge hsource hk hi htarget)
        (by omega) (fun p edge => by
          rcases mem_successors_splitEdge_target hsource hk htarget edge with hp | ⟨hne, hp⟩
          · exact .inr hp
          · rw [hp] at edge ⊢
            refine (hcovered p edge).imp_left fun hmem => ?_
            exact (List.mem_cons.1 hmem).resolve_left hne) hj
      exact ⟨hlinked, by omega, htarget', fun id hid h =>
        hother id hid (Uncritical.splitEdge hsource hk hi hid h)⟩

theorem mem_predecessorSet : p ∈ i.predecessorSet id ↔ p ∈ i.predsAt id := by
  unfold predecessorSet
  rw [List.mem_eraseDups, List.mem_mergeSort]
  rfl

/-- Splitting the edges to some blocks leaves no critical edge if all critical edges lead to
them. -/
theorem foldlM_splitEdgesInto {targets : List Nat} (hi : i.Linked)
    (htargets : ∀ id ∈ targets, id < i.blocks.length)
    (hcovered : ∀ id, i.Uncritical id ∨ id ∈ targets)
    (hj : (targets.foldlM splitEdgesInto i : Minting ε _).outcome = .ok j) :
    ∀ id, j.Uncritical id := by
  induction targets generalizing i with
  | nil =>
    cases hj
    exact fun id => (hcovered id).resolve_right List.not_mem_nil
  | cons target targets ih =>
    rw [List.foldlM_cons] at hj
    obtain ⟨k, hk, hj⟩ := Minting.bind_eq_ok.1 hj
    obtain ⟨htarget, htargets⟩ := List.forall_mem_cons.1 htargets
    obtain ⟨hlinked, hle, huncritical, hother⟩ := foldlM_splitEdge hi htarget
      (fun p edge => .inl (mem_predecessorSet.2 (hi p target edge).2)) hk
    refine ih hlinked (fun id hid => Nat.lt_of_lt_of_le (htargets id hid) hle) (fun id => ?_) hj
    by_cases hid : id = target
    · exact .inl (hid ▸ huncritical)
    · exact (hcovered id).imp (hother id hid) fun hmem => (List.mem_cons.1 hmem).resolve_left hid

/-- A block is a join if it is listed with several predecessors. -/
theorem mem_joins : id ∈ i.joins ↔ 1 < (i.predsAt id).length := by
  unfold joins blockIds predsAt
  rw [List.mem_filter, List.mem_range]
  by_cases hlt : id < i.blocks.length
  · rw [List.getElem?_eq_getElem hlt]
    simp [hlt]
  · rw [List.getElem?_eq_none (Nat.le_of_not_lt hlt)]
    simp [hlt]

/-- A linked body has no critical edges once they are split. -/
theorem Linked.uncritical_splitCriticalEdges (hi : i.Linked)
    (hj : (i.splitCriticalEdges : Minting ε _).outcome = .ok j) : ∀ id, j.Uncritical id := by
  refine foldlM_splitEdgesInto hi ?_ (fun id => ?_) hj
  · exact fun id hid => List.mem_range.1 (List.mem_filter.1 hid).1
  · by_cases hjoin : id ∈ i.joins
    · exact .inr hjoin
    · exact .inl (hi.uncritical (Nat.le_of_not_lt fun hlength => hjoin (mem_joins.2 hlength)))

/-- A well-formed body has no critical edges once they are split. -/
theorem uncritical_splitCriticalEdges {order : List Nat} (h : i.topologicalOrder = .ok order)
    (hj : (i.splitCriticalEdges : Minting ε _).outcome = .ok j) : ∀ id, j.Uncritical id :=
  (linked_of_topologicalOrder h).uncritical_splitCriticalEdges hj

/-- A block of a consistent body lists each predecessor once if the predecessors lead nowhere
else. -/
theorem nodup_preds (h : i.inconsistentBlock? = none) {b : Block} (hb : i.blocks[id]? = some b)
    (hall : ∀ p, id ∈ i.successors p → i.successors p = [id]) : b.preds.Nodup := by
  refine (perm_expectedPreds h hb).nodup_iff.2 (List.nodup_flatMap.2 ⟨fun p _ => ?_, ?_⟩)
  · by_cases edge : id ∈ i.successors p
    · simp [hall p edge]
    · have hnil : (i.successors p).filterMap (fun t => if t = id then some p else none) = [] := by
        rw [List.filterMap_eq_nil_iff]
        intro t ht
        refine if_neg ?_
        rintro rfl
        exact edge ht
      rw [hnil]
      exact List.nodup_nil
  · refine List.nodup_range.imp fun hne q hq hq' => hne ?_
    obtain ⟨t, -, ht⟩ := List.mem_filterMap.1 hq
    obtain ⟨t', -, ht'⟩ := List.mem_filterMap.1 hq'
    split_ifs at ht ht'
    rw [Option.some.inj ht, Option.some.inj ht']

end Obligations.Implementation
