import Obligations.Proofs.Implementation.Path
import Obligations.Proofs.Passive.Join

/-!
# Live variables along an order of the blocks

The pass over a topological order finds, at the start of each block, what its commands leave live of
what is live at the start of its successors (`Liveness.mem_at_ofOrder`). Hence passification may
rely on `Passive.Setting.Covers`, with dead variables pruned or not: the variables that a block can
still read have versions, and a variable that is live at a successor of a block is live at its end.
-/

namespace Obligations

variable {d : Declarations} {i : Implementation} {order : List Nat}

/-- Blocks that come earlier in an order do not change what is live at a later one. -/
theorem Liveness.at_ofOrder_append {id : Nat} {before ids : List Nat} (h : id ∉ before) :
    (ofOrder d i (before ++ ids)).at id = (ofOrder d i ids).at id := by
  induction before with
  | nil => rfl
  | cons first before ih =>
    rw [List.mem_cons, not_or] at h
    obtain ⟨hne, h⟩ := h
    have hbeq : (id == first) = false := by simpa using hne
    rw [← ih h, List.cons_append]
    unfold Table.at
    rw [ofOrder, List.lookup_cons, hbeq]

/-- The names live at the start of a block of a topological order. -/
theorem Liveness.mem_at_ofOrder (h : i.IsTopologicalOrder order) {id : Nat} (hid : id ∈ order)
    {x : Name} : x ∈ (ofOrder d i order).at id ↔
      x ∈ beforeAll d (i.cmdsAt id) ((i.successors id).flatMap (ofOrder d i order).at) := by
  obtain ⟨before, after, horder⟩ := List.append_of_mem hid
  have hnodup := h.nodup
  rw [horder, List.nodup_append] at hnodup
  obtain ⟨-, hafter, hdisjoint⟩ := hnodup
  obtain ⟨hid', -⟩ := List.nodup_cons.mp hafter
  have hbefore : id ∉ before := fun hmem => hdisjoint id hmem id List.mem_cons_self rfl
  -- The successors come later, so that what is live there is known when the block is looked at.
  have hnext : ∀ next ∈ i.successors id,
      (ofOrder d i order).at next = (ofOrder d i after).at next := by
    intro next edge
    have hmem : next ∈ after := h.successors_after before id after horder next edge
    have hsplit : order = (before ++ [id]) ++ after := by
      rw [horder, List.append_assoc, List.singleton_append]
    rw [hsplit]
    refine at_ofOrder_append fun hmem' => ?_
    rcases List.mem_append.mp hmem' with hmem' | hmem'
    · exact hdisjoint next hmem' next (List.mem_cons_of_mem _ hmem) rfl
    · rw [List.mem_singleton] at hmem'
      exact hid' (hmem' ▸ hmem)
  have hat : (ofOrder d i order).at id =
      (beforeAll d (i.cmdsAt id) ((i.successors id).flatMap (ofOrder d i after).at)).eraseDups := by
    rw [horder, at_ofOrder_append hbefore]
    unfold Table.at
    rw [ofOrder, List.lookup_cons, beq_self_eq_true]
    rfl
  rw [hat, List.mem_eraseDups, List.flatMap_congr hnext]

namespace Passive

/-- What is live at the ends of the blocks of a body covers what can still be read. -/
structure Setting.Covers (c : Setting) (d : Declarations) (i : Implementation) (order : List Nat)
    (outer : List Name) (live : Nat → List Name) : Prop where
  /-- A variable that a block can still read gets a version where predecessors disagree. -/
  before : ∀ id ∈ order, ∀ x ∈ outer,
    x ∈ Liveness.beforeAll d (i.cmdsAt id) (live id) → c.isLive id x = true
  /-- What is live at a successor is live at the end of a block. -/
  after : ∀ id ∈ order, ∀ next ∈ i.successors id, ∀ x ∈ outer, c.isLive next x = true → x ∈ live id

/-- Whether dead variables are pruned or not, what is live covers what can still be read. -/
theorem exists_covers (h : i.IsTopologicalOrder order) (l : Lexicon) (frame : NameMap Expr)
    (prune : Bool) (outer : List Name) :
    ∃ live, Setting.Covers ⟨l, frame, if prune then some (Liveness.ofOrder d i order) else none⟩
      d i order outer live := by
  cases prune with
  | false => exact ⟨fun _ => outer, fun _ _ _ _ _ => rfl, fun _ _ _ _ x hx _ => hx⟩
  | true =>
    refine ⟨fun id => (i.successors id).flatMap (Liveness.ofOrder d i order).at,
      fun id hid x _ hx => ?_, fun id _ next edge x _ hx => ?_⟩
    · exact decide_eq_true ((Liveness.mem_at_ofOrder h hid).2 hx)
    · exact List.mem_flatMap.mpr ⟨next, edge, of_decide_eq_true hx⟩

end Passive

end Obligations
