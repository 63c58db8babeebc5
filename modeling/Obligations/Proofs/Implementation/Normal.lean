import Obligations.Proofs.Implementation.Trail

/-!
# Bodies with one exit

Where control leaves a body, and whether the body is well formed, does not depend on its commands
(`topologicalOrder_of_outline_eq`). Two changes of a body add blocks without commands. After the
first, control leaves the body at one block (`unifyExits_eq_ok`). The second, which puts blocks in
the middle of edges, keeps the commands of every block and the blocks at which control leaves the
body (`subdivides_splitCriticalEdges`).
-/

namespace Obligations.Implementation

variable {i j k : Implementation} {id p exit : Nat}

/-! ## Bodies of the same outline -/

section

variable (h : j.outline = i.outline)

include h

theorem map_getElem?_of_outline_eq {α : Type} {f : Block → α}
    (hf : ∀ b : Block, f { b with cmds := [] } = f b) (id : Nat) :
    j.blocks[id]?.map f = i.blocks[id]?.map f := by
  have hmap : ∀ i : Implementation, i.blocks[id]?.map f = i.outline[id]?.map f := by
    intro i
    rw [outline, List.getElem?_map, Option.map_map]
    exact congrArg (fun g => Option.map g _) (funext fun b => (hf b).symm)
  rw [hmap, hmap, h]

theorem label?_of_outline_eq (id : Nat) : j.label? id = i.label? id :=
  map_getElem?_of_outline_eq h (fun _ => rfl) id

theorem predsAt_of_outline_eq (id : Nat) : j.predsAt id = i.predsAt id :=
  congrArg (fun ps : Option (List Nat) => ps.getD [])
    (map_getElem?_of_outline_eq h (fun _ => rfl) id)

theorem returning_of_outline_eq : j.returning = i.returning := by
  unfold returning blockIds
  rw [length_of_outline_eq h]
  refine List.filter_congr fun id _ => ?_
  rw [map_getElem?_of_outline_eq h (fun _ => rfl)]

theorem Consistent.of_outline_eq (hi : i.Consistent) : j.Consistent where
  lt_length p next edge := by
    rw [successors_of_outline_eq h] at edge
    rw [length_of_outline_eq h]
    exact hi.lt_length p next edge
  count_predsAt id p := by
    rw [predsAt_of_outline_eq h, successors_of_outline_eq h, hi.count_predsAt]

theorem reachable_of_outline_eq (hentry : j.entry = i.entry) : j.reachable = i.reachable := by
  unfold reachable blockIds
  rw [length_of_outline_eq h, hentry, funext (successors_of_outline_eq h)]

/-- The order of a well-formed body is that of every body of the same outline. -/
theorem topologicalOrder_of_outline_eq (hentry : j.entry = i.entry) {order : List Nat}
    (hi : i.topologicalOrder = .ok order) : j.topologicalOrder = .ok order := by
  obtain ⟨hdangling, hpreds, hreturns, horder⟩ := topologicalOrder_cases hi
  obtain ⟨hdangling', hpreds'⟩ :=
    consistent_iff.1 ((consistent_iff.2 ⟨hdangling, hpreds⟩).of_outline_eq h)
  -- The remaining checks and the order itself read reachable blocks, labels and edges only, which
  -- the outline has.
  have hreachable := reachable_of_outline_eq h hentry
  have hreturns' : j.unreachableReturn? = none := by
    rw [← hreturns]
    unfold unreachableReturn?
    rw [hreachable, returning_of_outline_eq h, funext (label?_of_outline_eq h)]
  have horder' : Graph.orderFrom j.successors j.reachableIds = (order, []) := by
    rw [← horder]
    unfold reachableIds blockIds
    rw [hreachable, length_of_outline_eq h, funext (successors_of_outline_eq h)]
  have hempty : j.blocks.isEmpty = false := by
    have hlength := length_of_outline_eq h
    unfold topologicalOrder at hi
    split_ifs at hi with hblocks
    rw [List.isEmpty_iff_length_eq_zero] at hblocks
    rw [List.isEmpty_eq_false_iff, ← List.length_pos_iff]
    omega
  unfold topologicalOrder
  rw [if_neg (by rw [hempty]; exact Bool.false_ne_true), hdangling', hpreds', hreturns', horder']

end

/-! ## One exit -/

/-- A new block without commands changes no commands. -/
theorem cmdsAt_addBlock_nil (i : Implementation) (label : Name) (p : Nat) :
    (i.addBlock label []).cmdsAt p = i.cmdsAt p := by
  rw [cmdsAt_addBlock]
  split_ifs with hp
  · rw [hp, cmdsAt, List.getElem?_eq_none (Nat.le_refl _)]
    rfl
  · rfl

/-- What several blocks become when control goes on from all of them to one block. -/
theorem foldl_setTransfer_goto (i : Implementation) (exit : Nat) {ids : List Nat}
    (hids : ∀ id ∈ ids, id < i.blocks.length) (hexit : exit < i.blocks.length) :
    let j := ids.foldl (fun j id => j.setTransfer id (.goto [exit])) i
    (∃ blocks, j = { i with blocks }) ∧ j.blocks.length = i.blocks.length ∧
      (i.Consistent → j.Consistent) ∧ (∀ p, j.cmdsAt p = i.cmdsAt p) ∧
      ∀ p, j.transferAt? p = if p ∈ ids then some (.goto [exit]) else i.transferAt? p := by
  induction ids generalizing i with
  | nil => exact ⟨⟨i.blocks, rfl⟩, rfl, fun h => h, fun _ => rfl, fun _ => rfl⟩
  | cons id ids ih =>
    obtain ⟨hid, hids⟩ := List.forall_mem_cons.1 hids
    have hlength := length_setTransfer i id (.goto [exit])
    -- The other blocks are redirected in the body where the first is, which has as many blocks.
    obtain ⟨⟨blocks, hj⟩, hlength', hconsistent, hcmds, htransfer⟩ :=
      ih (i := i.setTransfer id (.goto [exit])) (fun q hq => hlength ▸ hids q hq) (hlength ▸ hexit)
    obtain ⟨blocks', hfirst⟩ := exists_setTransfer i id (.goto [exit])
    refine ⟨⟨blocks, hj.trans (by rw [hfirst])⟩, hlength'.trans hlength, fun hi => ?_, fun p => ?_,
      fun p => ?_⟩
    · refine hconsistent (hi.setTransfer hid fun next hnext => ?_)
      rw [List.mem_singleton.1 hnext]
      exact hexit
    · exact (hcmds p).trans (cmdsAt_setTransfer i id _ p)
    · rw [List.foldl_cons, htransfer, transferAt?_setTransfer hid]
      by_cases hp : p = id
      · simp [hp]
      · simp [hp]

/-- After its exits are unified, control leaves a body at one block. The commands of the blocks stay
the same. -/
theorem unifyExits_eq_ok {s : SingleExit} (h : i.unifyExits.outcome = .ok s) :
    s.body.returning = [s.exit] ∧ (i.Consistent → s.body.Consistent) ∧
      i.blocks.length ≤ s.body.blocks.length ∧ (∃ r, r ∈ i.returning) ∧
      (∃ blocks, s.body = { i with blocks }) ∧ ∀ p, s.body.cmdsAt p = i.cmdsAt p := by
  unfold unifyExits at h
  split at h
  case h_1 => cases h
  case h_2 exit hexit =>
    cases h
    exact ⟨hexit, fun hi => hi, Nat.le_refl _, ⟨exit, hexit ▸ List.mem_singleton_self exit⟩,
      ⟨i.blocks, rfl⟩, fun _ => rfl⟩
  case h_3 hnone hsingle =>
    obtain ⟨⟨j, exit⟩, hj, h⟩ := Minting.bind_eq_ok.1 h
    cases h
    obtain ⟨rfl, rfl⟩ := addFreshBlock_eq_ok hj
    have hlength := length_addBlock i (i.freshLabel "GeneratedUnifiedExit") []
    have hlt : ∀ r ∈ i.returning, r < i.blocks.length := fun r hr =>
      List.mem_range.1 (List.mem_filter.1 hr).1
    obtain ⟨hrest, hlength', hconsistent, hcmds, htransfer⟩ := foldl_setTransfer_goto
      (i.addBlock (i.freshLabel "GeneratedUnifiedExit") []) i.blocks.length
      (fun r hr => show r < _ from by have := hlt r hr; omega) (by omega)
    refine ⟨?_, fun hi => hconsistent (hi.addBlock _ _), ?_, ?_, hrest, fun p => ?_⟩
    · -- The new block returns, and the blocks that did no longer do.
      rw [returning_eq_singleton_iff]
      intro p
      rw [htransfer, transferAt?_addBlock]
      split_ifs with hp hlast
      · refine iff_of_false (fun heq => nomatch heq) fun heq => ?_
        exact Nat.ne_of_lt (hlt p hp) heq
      · exact iff_of_true rfl hlast
      · exact iff_of_false (fun hret => hp (mem_returning.2 hret)) hlast
    · rw [hlength', hlength]
      exact Nat.le_succ _
    · exact List.exists_mem_of_ne_nil _ fun hnil => hnone hnil
    · rw [hcmds, cmdsAt_addBlock_nil]

/-! ## Blocks in the middle of edges -/

/-- A body has more blocks, which have no commands and at which control does not leave it. -/
structure Subdivides (i k : Implementation) : Prop where
  /-- The commands of the blocks are the same. -/
  cmdsAt : ∀ p, k.cmdsAt p = i.cmdsAt p
  /-- Control leaves the body at the same blocks. -/
  returns_iff : ∀ p, k.transferAt? p = some .ret ↔ i.transferAt? p = some .ret

theorem Subdivides.trans (h : Subdivides i j) (h' : Subdivides j k) : Subdivides i k :=
  ⟨fun p => (h'.cmdsAt p).trans (h.cmdsAt p), fun p => (h'.returns_iff p).trans (h.returns_iff p)⟩

theorem Subdivides.returning_eq_singleton (h : Subdivides i k) (hexit : i.returning = [exit]) :
    k.returning = [exit] := by
  rw [returning_eq_singleton_iff] at hexit ⊢
  exact fun p => (h.returns_iff p).trans (hexit p)

variable {ε : Type}

/-- A block is put in the middle of the edges from one block to another. -/
theorem subdivides_splitEdge {source target : Nat} (hgoes : i.successors source ≠ [])
    (hj : (i.splitEdge source target : Minting ε _).outcome = .ok j) : Subdivides i j := by
  have hsource : source < i.blocks.length := by
    by_contra hge
    exact hgoes (successors_eq_nil (Nat.le_of_not_lt hge))
  obtain ⟨label, rfl⟩ := splitEdge_eq_ok hsource hj
  have hlength := length_addBlock i label []
  refine ⟨fun p => ?_, fun p => ?_⟩
  · rw [cmdsAt_setTransfer, cmdsAt_setTransfer, cmdsAt_addBlock_nil]
  · rw [transferAt?_setTransfer (by rw [length_setTransfer]; omega),
      transferAt?_setTransfer (by omega), transferAt?_addBlock]
    split_ifs with hp hlast
    · -- Control does not leave the body at a block with successors.
      refine iff_of_false (fun heq => nomatch heq) fun hret => hgoes ?_
      rw [← hp, successors_of_transferAt? hret]
      rfl
    · refine iff_of_false (fun heq => nomatch heq) fun hret => ?_
      exact Nat.ne_of_lt (lt_length_of_transferAt? hret) hlast
    · rfl

/-- Splitting critical edges subdivides a body. -/
theorem subdivides_splitCriticalEdges
    (hj : (i.splitCriticalEdges : Minting ε _).outcome = .ok j) : Subdivides i j := by
  refine Minting.foldlM_induction (fun target _ b c hb hc => ?_)
    (⟨fun _ => rfl, fun _ => Iff.rfl⟩ : Subdivides i i) hj
  refine Minting.foldlM_induction (fun source _ b c hb hc => ?_) hb hc
  split_ifs at hc with hlength
  · cases hc
    exact hb
  · refine hb.trans (subdivides_splitEdge (fun hnil => hlength ?_) hc)
    rw [hnil]
    exact Nat.zero_lt_two

end Obligations.Implementation
