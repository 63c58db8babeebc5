import Mathlib.Logic.Function.Iterate
import Obligations.Implementation.Normal
import Obligations.Proofs.Implementation.Outline

/-!
# Changes of a body

What a body is after a block is added or a transfer is replaced: the commands of the blocks stay
(`cmdsAt_setTransfer`), only the block in question has other successors
(`successors_setTransfer`), and the lists of predecessors follow (`mem_predsAt_setTransfer`,
`mem_predsAt_setTransfer_self`).
-/

namespace Obligations.Implementation

variable {i : Implementation} {id p : Nat}

/-- The predecessors that a block lists, none if there is no block of that index. -/
def predsAt (i : Implementation) (id : Nat) : List Nat := (i.blocks[id]?.map (·.preds)).getD []

/-! ## Lists of predecessors -/

/-- A change of the predecessors of several blocks, once for each mention, changes the predecessors
of a block as often as it is mentioned. -/
theorem getElem?_foldl_modify (f : List Nat → List Nat) (ts : List Nat) (bs : List Block) :
    (ts.foldl (fun bs t => bs.modify t fun b => { b with preds := f b.preds }) bs)[p]? =
      bs[p]?.map fun b => { b with preds := f^[ts.count p] b.preds } := by
  induction ts generalizing bs with
  | nil => simp
  | cons t ts ih =>
    rw [List.foldl_cons, ih, List.getElem?_modify, List.count_cons]
    by_cases ht : t = p
    · subst ht
      cases bs[t]? <;> simp
    · cases bs[p]? <;> simp [ht]

theorem mem_iterate_append {n : Nat} {ps : List Nat} :
    p ∈ (fun ps => ps ++ [id])^[n] ps ↔ p ∈ ps ∨ n ≠ 0 ∧ p = id := by
  induction n generalizing ps with
  | zero => simp
  | succ n ih =>
    rw [Function.iterate_succ_apply, ih]
    by_cases hp : p = id <;> simp [hp]

theorem mem_iterate_erase {n : Nat} {ps : List Nat} (hp : p ≠ id) :
    p ∈ (fun ps => ps.erase id)^[n] ps ↔ p ∈ ps := by
  induction n generalizing ps with
  | zero => rfl
  | succ n ih => rw [Function.iterate_succ_apply, ih, List.mem_erase_of_ne hp]

/-! ## A new transfer -/

section

variable (hid : id < i.blocks.length) (t : Transfer)

include hid

/-- A new transfer of a block changes its transfer and the predecessors of the blocks concerned. -/
theorem getElem?_setTransfer : (i.setTransfer id t).blocks[p]? = i.blocks[p]?.map fun b =>
    { b with
      preds := (fun ps => ps ++ [id])^[t.targets.count p]
        ((fun ps => ps.erase id)^[(i.successors id).count p] b.preds)
      transfer := if p = id then t else b.transfer } := by
  unfold setTransfer attach detach
  rw [if_pos hid]
  dsimp only
  rw [getElem?_foldl_modify (fun ps => ps ++ [id]), List.getElem?_modify,
    getElem?_foldl_modify fun ps => ps.erase id]
  by_cases hp : p = id
  · subst hp
    cases i.blocks[p]? <;> simp
  · cases i.blocks[p]? <;> simp [hp, Ne.symm hp]

theorem successors_setTransfer :
    (i.setTransfer id t).successors p = if p = id then t.targets else i.successors p := by
  unfold successors Block.successors
  rw [getElem?_setTransfer hid]
  by_cases hp : p = id
  · subst hp
    rw [if_pos rfl, List.getElem?_eq_getElem hid]
    simp
  · cases i.blocks[p]? <;> simp [hp]

theorem mem_predsAt_setTransfer {q : Nat} (hq : q ≠ id) :
    q ∈ (i.setTransfer id t).predsAt p ↔ q ∈ i.predsAt p := by
  unfold predsAt
  rw [getElem?_setTransfer hid]
  cases i.blocks[p]? with
  | none => rfl
  | some b => simp [mem_iterate_append, mem_iterate_erase hq, hq]

theorem mem_predsAt_setTransfer_self (hp : p < i.blocks.length) (ht : p ∈ t.targets) :
    id ∈ (i.setTransfer id t).predsAt p := by
  unfold predsAt
  rw [getElem?_setTransfer hid, List.getElem?_eq_getElem hp]
  simp [mem_iterate_append, List.count_eq_zero, ht]

end

theorem cmdsAt_setTransfer (i : Implementation) (id : Nat) (t : Transfer) (p : Nat) :
    (i.setTransfer id t).cmdsAt p = i.cmdsAt p := by
  by_cases hid : id < i.blocks.length
  · unfold cmdsAt
    rw [getElem?_setTransfer hid, Option.map_map]
    rfl
  · unfold setTransfer
    rw [if_neg hid]

@[simp] theorem length_setTransfer (i : Implementation) (id : Nat) (t : Transfer) :
    (i.setTransfer id t).blocks.length = i.blocks.length := by
  have hfold : ∀ (f : Nat → Block → Block) (ts : List Nat) (bs : List Block),
      (ts.foldl (fun bs t => bs.modify t (f t)) bs).length = bs.length := by
    intro f ts
    induction ts with
    | nil => exact fun bs => rfl
    | cons t ts ih => exact fun bs => (ih _).trans (List.length_modify _ _ _)
  unfold setTransfer attach detach
  split_ifs
  · exact (hfold _ _ _).trans ((List.length_modify _ _ _).trans (hfold _ _ _))
  · rfl

/-- A new transfer changes nothing but the blocks. -/
theorem exists_setTransfer (i : Implementation) (id : Nat) (t : Transfer) :
    ∃ blocks, i.setTransfer id t = { i with blocks } := by
  unfold setTransfer
  split_ifs
  · exact ⟨_, rfl⟩
  · exact ⟨i.blocks, rfl⟩

/-! ## A new block -/

section

variable (i : Implementation) (label : Name) (cmds : List Cmd) (p : Nat)

theorem getElem?_addBlock : (i.addBlock label cmds).blocks[p]? =
    if p = i.blocks.length then some ⟨label, cmds, [], .ret⟩ else i.blocks[p]? := by
  unfold addBlock
  dsimp only
  split_ifs with hp
  · rw [hp, List.getElem?_concat_length]
  · by_cases hlt : p < i.blocks.length
    · rw [List.getElem?_append_left hlt]
    · have hnone : i.blocks[p]? = none := List.getElem?_eq_none (by omega)
      rw [hnone, List.getElem?_eq_none]
      rw [List.length_append, List.length_singleton]
      omega

theorem cmdsAt_addBlock :
    (i.addBlock label cmds).cmdsAt p = if p = i.blocks.length then cmds else i.cmdsAt p := by
  unfold cmdsAt
  rw [getElem?_addBlock]
  split_ifs <;> rfl

theorem successors_addBlock : (i.addBlock label cmds).successors p = i.successors p := by
  unfold successors
  rw [getElem?_addBlock]
  split_ifs with hp
  · rw [hp, List.getElem?_eq_none (Nat.le_refl _)]
    rfl
  · rfl

theorem predsAt_addBlock : (i.addBlock label cmds).predsAt p = i.predsAt p := by
  unfold predsAt
  rw [getElem?_addBlock]
  split_ifs with hp
  · rw [hp, List.getElem?_eq_none (Nat.le_refl _)]
    rfl
  · rfl

@[simp] theorem length_addBlock :
    (i.addBlock label cmds).blocks.length = i.blocks.length + 1 := by
  unfold addBlock
  exact List.length_append

end

/-! ## A new command -/

theorem cmdsAt_pushCmd (i : Implementation) (id : Nat) (c : Cmd) (p : Nat) :
    (i.pushCmd id c).cmdsAt p =
      if p = id ∧ id < i.blocks.length then i.cmdsAt p ++ [c] else i.cmdsAt p := by
  by_cases hid : id < i.blocks.length
  · unfold pushCmd
    rw [cmdsAt_modifyBlock hid (fun cs => cs ++ [c])]
    simp [hid]
  · have hsame : i.pushCmd id c = i := by
      unfold pushCmd modifyBlock
      rw [List.modify_eq_self (Nat.le_of_not_lt hid)]
    rw [hsame, if_neg fun h => hid h.2]

end Obligations.Implementation
