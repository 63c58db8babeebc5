import Mathlib.Algebra.BigOperators.Group.List.Basic
import Mathlib.Data.List.Sort
import Obligations.Proofs.Implementation.Edges

/-!
# Consistent bodies

A body is consistent (`Implementation.Consistent`) if its targets exist and every block lists its
predecessors once for each target. The two checks of a body decide this (`consistent_iff`), and the
changes of a body keep it: a new block (`Consistent.addBlock`), a new command (`Consistent.pushCmd`)
and a new transfer (`Consistent.setTransfer`). `transferAt?` is how control leaves a block; what a
change does to it determines the successors and the exits.
-/

namespace Obligations.Implementation

variable {i : Implementation} {id p : Nat}

/-- How control leaves the block of an index, if there is such a block. -/
def transferAt? (i : Implementation) (id : Nat) : Option Transfer := i.blocks[id]?.map (·.transfer)

/-- All targets exist, and every block lists its predecessors once for each target. -/
structure Consistent (i : Implementation) : Prop where
  /-- All targets exist. -/
  lt_length : ∀ p next, next ∈ i.successors p → next < i.blocks.length
  /-- A block lists another as often as that one leads to it. -/
  count_predsAt : ∀ id p, (i.predsAt id).count p = (i.successors p).count id

/-! ## How control leaves a block -/

theorem successors_eq (i : Implementation) (id : Nat) :
    i.successors id = ((i.transferAt? id).map (·.targets)).getD [] := by
  unfold successors transferAt?
  rw [Option.map_map]
  rfl

theorem transferAt?_eq_none (hid : i.blocks.length ≤ id) : i.transferAt? id = none := by
  unfold transferAt?
  rw [List.getElem?_eq_none hid]
  rfl

theorem lt_length_of_transferAt? {t : Transfer} (h : i.transferAt? id = some t) :
    id < i.blocks.length := by
  by_contra hge
  rw [transferAt?_eq_none (Nat.le_of_not_lt hge)] at h
  cases h

theorem successors_of_transferAt? {t : Transfer} (h : i.transferAt? id = some t) :
    i.successors id = t.targets := by
  rw [successors_eq, h]
  rfl

theorem mem_returning : id ∈ i.returning ↔ i.transferAt? id = some .ret := by
  unfold returning blockIds transferAt?
  rw [List.mem_filter, List.mem_range]
  by_cases hid : id < i.blocks.length
  · rw [List.getElem?_eq_getElem hid]
    cases h : i.blocks[id].transfer <;> simp [hid, h, Transfer.isReturn]
  · rw [List.getElem?_eq_none (Nat.le_of_not_lt hid)]
    simp

/-- A body has one exit if control leaves it there and nowhere else. -/
theorem returning_eq_singleton_iff :
    i.returning = [id] ↔ ∀ p, i.transferAt? p = some .ret ↔ p = id := by
  constructor
  · intro h p
    rw [← mem_returning, h, List.mem_singleton]
  · intro h
    have hnodup : i.returning.Nodup := List.nodup_range.filter _
    refine List.perm_singleton.1 ((List.perm_ext_iff_of_nodup hnodup (List.nodup_singleton id)).2 ?_)
    intro p
    rw [mem_returning, h, List.mem_singleton]

theorem transferAt?_addBlock (i : Implementation) (label : Name) (cmds : List Cmd) (p : Nat) :
    (i.addBlock label cmds).transferAt? p =
      if p = i.blocks.length then some .ret else i.transferAt? p := by
  unfold transferAt?
  rw [getElem?_addBlock]
  split_ifs <;> rfl

theorem transferAt?_setTransfer (hid : id < i.blocks.length) (t : Transfer) :
    (i.setTransfer id t).transferAt? p = if p = id then some t else i.transferAt? p := by
  unfold transferAt?
  rw [getElem?_setTransfer hid]
  split_ifs with hp
  · subst hp
    rw [List.getElem?_eq_getElem hid]
    rfl
  · cases i.blocks[p]? <;> rfl

/-! ## A new command -/

theorem getElem?_pushCmd (i : Implementation) (id : Nat) (c : Cmd) (p : Nat) :
    (i.pushCmd id c).blocks[p]? =
      i.blocks[p]?.map fun b => if id = p then { b with cmds := b.cmds ++ [c] } else b := by
  unfold pushCmd modifyBlock
  exact List.getElem?_modify _ _ _ _

@[simp] theorem length_pushCmd (i : Implementation) (id : Nat) (c : Cmd) :
    (i.pushCmd id c).blocks.length = i.blocks.length :=
  List.length_modify _ _ _

theorem transferAt?_pushCmd (i : Implementation) (id : Nat) (c : Cmd) (p : Nat) :
    (i.pushCmd id c).transferAt? p = i.transferAt? p := by
  unfold transferAt?
  rw [getElem?_pushCmd, Option.map_map]
  congr 1
  funext b
  dsimp only [Function.comp_apply]
  split_ifs <;> rfl

theorem successors_pushCmd (i : Implementation) (id : Nat) (c : Cmd) (p : Nat) :
    (i.pushCmd id c).successors p = i.successors p := by
  rw [successors_eq, successors_eq, transferAt?_pushCmd]

theorem predsAt_pushCmd (i : Implementation) (id : Nat) (c : Cmd) (p : Nat) :
    (i.pushCmd id c).predsAt p = i.predsAt p := by
  unfold predsAt
  rw [getElem?_pushCmd, Option.map_map]
  congr 2
  funext b
  dsimp only [Function.comp_apply]
  split_ifs <;> rfl

/-! ## The checks of a body -/

theorem filterMap_eq_replicate (ts : List Nat) :
    (ts.filterMap fun t => if t = id then some p else none) = List.replicate (ts.count id) p := by
  induction ts with
  | nil => rfl
  | cons t ts ih =>
    rw [List.filterMap_cons, List.count_cons]
    by_cases ht : t = id
    · simp [ht, ih, List.replicate_succ]
    · simp [ht, ih]

theorem expectedPreds_eq (i : Implementation) (id : Nat) :
    i.expectedPreds id = i.blockIds.flatMap fun p => .replicate ((i.successors p).count id) p := by
  unfold expectedPreds
  simp only [filterMap_eq_replicate]

/-- The predecessors that are expected of a block name another as often as that one leads to it. -/
theorem count_expectedPreds (i : Implementation) (id p : Nat) :
    (i.expectedPreds id).count p = (i.successors p).count id := by
  rw [expectedPreds_eq, List.count_flatMap, List.sum_map_eq_nsmul_single p]
  · by_cases hp : p < i.blocks.length
    · have hone : i.blockIds.count p = 1 :=
        List.count_eq_one_of_mem List.nodup_range (List.mem_range.2 hp)
      rw [hone, one_nsmul, Function.comp_apply, List.count_replicate_self]
    · rw [Function.comp_apply, successors_eq_nil (Nat.le_of_not_lt hp)]
      simp
  · intro q hq _
    rw [Function.comp_apply, List.count_replicate, if_neg (by simpa using hq)]

theorem pairwise_expectedPreds (i : Implementation) (id : Nat) :
    (i.expectedPreds id).Pairwise (· ≤ ·) := by
  rw [expectedPreds_eq, List.pairwise_flatMap]
  refine ⟨fun p _ => List.pairwise_replicate.2 (.inr (Nat.le_refl p)), ?_⟩
  refine List.pairwise_le_range.imp fun {p q} hle x hx y hy => ?_
  rwa [List.eq_of_mem_replicate hx, List.eq_of_mem_replicate hy]

/-- The two checks of targets and predecessors succeed exactly on the consistent bodies. -/
theorem consistent_iff :
    i.Consistent ↔ i.danglingTarget? = none ∧ i.inconsistentBlock? = none := by
  constructor
  · intro h
    constructor
    · refine List.findSome?_eq_none_iff.2 fun b hb => ?_
      rw [Option.map_eq_none_iff, List.find?_eq_none]
      intro t ht
      obtain ⟨p, hp⟩ := List.mem_iff_getElem?.1 hb
      have hlt : t < i.blocks.length := h.lt_length p t (by
        unfold successors
        rw [hp]
        exact ht)
      simpa using hlt
    · refine List.findSome?_eq_none_iff.2 fun ⟨b, id⟩ hb => if_pos ?_
      have hb : i.blocks[id]? = some b := List.mem_zipIdx_iff_getElem?.1 hb
      have hpreds : i.predsAt id = b.preds := by
        unfold predsAt
        rw [hb]
        rfl
      have hperm : b.preds.Perm (i.expectedPreds id) := List.perm_iff_count.2 fun p => by
        rw [count_expectedPreds, ← hpreds, h.count_predsAt]
      -- Sorted lists with the same members are equal.
      exact List.Perm.eq_of_pairwise' (List.pairwise_mergeSort' (· ≤ ·) b.preds)
        (pairwise_expectedPreds i id) ((List.mergeSort_perm _ _).trans hperm)
  · rintro ⟨hdangling, hpreds⟩
    have hlt : ∀ p next, next ∈ i.successors p → next < i.blocks.length :=
      fun _ _ edge => lt_length_of_mem_successors hdangling edge
    refine ⟨hlt, fun id p => ?_⟩
    unfold predsAt
    cases hb : i.blocks[id]? with
    | some b =>
      have hperm := perm_expectedPreds hpreds hb
      exact (hperm.count_eq p).trans (count_expectedPreds i id p)
    | none =>
      have hge : i.blocks.length ≤ id := List.getElem?_eq_none_iff.1 hb
      exact (List.count_eq_zero.2 fun edge => absurd (hlt p id edge) (Nat.not_lt.2 hge)).symm

/-! ## Changes -/

theorem count_iterate_append (n : Nat) (ps : List Nat) :
    ((fun ps => ps ++ [id])^[n] ps).count p = ps.count p + if p = id then n else 0 := by
  induction n generalizing ps with
  | zero => simp
  | succ n ih =>
    rw [Function.iterate_succ_apply, ih, List.count_append, List.count_singleton]
    by_cases hp : p = id
    · simp only [hp, BEq.rfl, if_true]
      omega
    · simp [hp, Ne.symm hp]

theorem count_iterate_erase (n : Nat) (ps : List Nat) :
    ((fun ps => ps.erase id)^[n] ps).count p = ps.count p - if p = id then n else 0 := by
  induction n generalizing ps with
  | zero => simp
  | succ n ih =>
    rw [Function.iterate_succ_apply, ih, List.count_erase]
    by_cases hp : p = id
    · simp [hp, Nat.sub_sub, Nat.add_comm]
    · simp [hp, Ne.symm hp]

theorem Consistent.addBlock (h : i.Consistent) (label : Name) (cmds : List Cmd) :
    (i.addBlock label cmds).Consistent where
  lt_length p next edge := by
    rw [successors_addBlock] at edge
    rw [length_addBlock]
    exact Nat.lt_succ_of_lt (h.lt_length p next edge)
  count_predsAt id p := by rw [predsAt_addBlock, successors_addBlock, h.count_predsAt]

theorem Consistent.pushCmd (h : i.Consistent) (id : Nat) (c : Cmd) :
    (i.pushCmd id c).Consistent where
  lt_length p next edge := by
    rw [successors_pushCmd] at edge
    rw [length_pushCmd]
    exact h.lt_length p next edge
  count_predsAt id' p := by rw [predsAt_pushCmd, successors_pushCmd, h.count_predsAt]

theorem Consistent.setTransfer (h : i.Consistent) (hid : id < i.blocks.length) {t : Transfer}
    (ht : ∀ next ∈ t.targets, next < i.blocks.length) : (i.setTransfer id t).Consistent := by
  have hlt : ∀ p next, next ∈ (i.setTransfer id t).successors p → next < i.blocks.length := by
    intro p next edge
    rw [successors_setTransfer hid] at edge
    split_ifs at edge
    · exact ht next edge
    · exact h.lt_length p next edge
  refine ⟨fun p next edge => length_setTransfer i id t ▸ hlt p next edge, fun q p => ?_⟩
  by_cases hq : q < i.blocks.length
  · have hcount := h.count_predsAt q p
    unfold predsAt at hcount ⊢
    rw [getElem?_setTransfer hid]
    rw [List.getElem?_eq_getElem hq] at hcount ⊢
    dsimp only [Option.map_some, Option.getD_some] at hcount ⊢
    rw [count_iterate_append, count_iterate_erase, successors_setTransfer hid]
    -- What the block had among its predecessors is struck, and the new targets are added.
    split_ifs with hp
    · rw [hcount, hp, Nat.sub_self, Nat.zero_add]
    · rw [hcount, Nat.sub_zero, Nat.add_zero]
  · have hnone : (i.setTransfer id t).predsAt q = [] := by
      unfold predsAt
      rw [List.getElem?_eq_none (by rw [length_setTransfer]; exact Nat.le_of_not_lt hq)]
      rfl
    rw [hnone, List.count_nil]
    exact (List.count_eq_zero.2 fun edge => hq (hlt p q edge)).symm

end Obligations.Implementation
