import Mathlib.Tactic.SplitIfs
import Obligations.Proofs.Implementation.Path

/-!
# Bodies that differ in their commands

Passification keeps the blocks and the transfers of a body and changes the commands only: the body
before and the body after have the same outline (`Implementation.outline`). The commands along a
path stay the same if those of its blocks do.
-/

namespace Obligations.Implementation

variable {i j : Implementation} {id : Nat}

/-- The blocks without their commands. -/
def outline (i : Implementation) : List Block := i.blocks.map fun b => { b with cmds := [] }

/-- The block of an index in a body of the same outline. -/
theorem getElem?_of_outline_eq (h : j.outline = i.outline) {b : Block}
    (hb : i.blocks[id]? = some b) : j.blocks[id]? = some { b with cmds := j.cmdsAt id } := by
  have hmap := congrArg (·[id]?) h
  simp only [outline, List.getElem?_map, hb, Option.map_some] at hmap
  obtain ⟨b', hb', heq⟩ := Option.map_eq_some_iff.mp hmap
  unfold cmdsAt
  rw [hb']
  cases b
  cases b'
  simp_all

/-- Bodies of the same outline have as many blocks. -/
theorem length_of_outline_eq (h : j.outline = i.outline) : j.blocks.length = i.blocks.length := by
  have hlength := congrArg List.length h
  simpa [outline] using hlength

/-- Bodies of the same outline go on to the same blocks. -/
theorem successors_of_outline_eq (h : j.outline = i.outline) (id : Nat) :
    j.successors id = i.successors id := by
  unfold successors
  cases hb : i.blocks[id]? with
  | some b =>
    rw [getElem?_of_outline_eq h hb]
    rfl
  | none =>
    rw [List.getElem?_eq_none_iff] at hb
    rw [List.getElem?_eq_none (length_of_outline_eq h ▸ hb)]

/-- Changing the commands of a block keeps the outline. -/
theorem outline_modifyBlock (i : Implementation) (id : Nat) (f : List Cmd → List Cmd) :
    (i.modifyBlock id fun b => { b with cmds := f b.cmds }).outline = i.outline := by
  unfold outline modifyBlock
  refine List.ext_getElem? fun p => ?_
  simp only [List.getElem?_map, List.getElem?_modify]
  cases i.blocks[p]? with
  | none => rfl
  | some b =>
    simp only [Option.map_some]
    split_ifs <;> rfl

/-- Changing the commands of a block changes them there and nowhere else. -/
theorem cmdsAt_modifyBlock (hid : id < i.blocks.length) (f : List Cmd → List Cmd) (p : Nat) :
    (i.modifyBlock id fun b => { b with cmds := f b.cmds }).cmdsAt p =
      if p = id then f (i.cmdsAt p) else i.cmdsAt p := by
  unfold cmdsAt modifyBlock
  rw [List.getElem?_modify]
  by_cases hp : p = id
  · subst hp
    simp [List.getElem?_eq_getElem hid]
  · rw [if_neg hp]
    cases i.blocks[p]? with
    | none => rfl
    | some b =>
      have hne : id ≠ p := fun h => hp h.symm
      simp [hne]

/-- What holds of the commands of all blocks, and of no commands, holds at every index. -/
theorem forall_cmdsAt {P : List Cmd → Prop} (hnil : P []) (h : ∀ b ∈ i.blocks, P b.cmds)
    (id : Nat) : P (i.cmdsAt id) := by
  unfold cmdsAt
  cases hb : i.blocks[id]? with
  | none => exact hnil
  | some b => exact h b (List.mem_of_getElem? hb)

/-- The commands along a path are the same in two bodies if those of its blocks are. -/
theorem cmdsAlong_congr {ids : List Nat} (h : ∀ id ∈ ids, j.cmdsAt id = i.cmdsAt id) :
    j.cmdsAlong ids = i.cmdsAlong ids := by
  induction ids with
  | nil => rfl
  | cons id ids ih =>
    rw [cmdsAlong_cons, cmdsAlong_cons, h id List.mem_cons_self,
      ih fun id' hid' => h id' (List.mem_cons_of_mem _ hid')]

end Obligations.Implementation
