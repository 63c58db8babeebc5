import Obligations.Proofs.Implementation.Consistency

/-!
# Editing a body

A body is built by edits: blocks are appended, transfers replaced, labels and commands rewritten, in
any order and with any targets. `setTransfer` tells a target of its new predecessor only if the
target exists by then, and `addBlock` gives a new block no predecessors. A draft therefore records,
beside the body, how many blocks a transfer could tell when it was set (`Draft.known`). Every edit
keeps a draft tracked (`Draft.Tracked.step`): a block lists another once for each target if it was
told of it, and not at all otherwise. `Draft.preds_perm` says so of every run of edits, and
`Draft.consistent_build_iff` when the body that they build is consistent. A transfer to a block that is
appended afterwards is where the list and the transfers part (`Draft.not_preds_perm_forward`).
-/

namespace Obligations

open Implementation

/-- One edit of a body. -/
inductive Edit where
  /-- A block is appended. -/
  | addBlock (label : Name) (cmds : List Cmd)
  /-- The transfer of a block is replaced. -/
  | setTransfer (id : Nat) (t : Transfer)
  /-- Another block becomes the entry. -/
  | setEntry (entry : Nat)
  /-- A command is put at the end of a block. -/
  | pushCmd (id : Nat) (c : Cmd)
  /-- A block gets another label and other commands. -/
  | rewrite (id : Nat) (label : Name) (cmds : List Cmd)

/-- The body after an edit. An edit of a block that does not exist changes nothing. -/
def Implementation.edit (i : Implementation) : Edit → Implementation
  | .addBlock label cmds => i.addBlock label cmds
  | .setTransfer id t => i.setTransfer id t
  | .setEntry entry => { i with entry }
  | .pushCmd id c => i.pushCmd id c
  | .rewrite id label cmds => i.modifyBlock id fun b => { b with label, cmds }

/-- A body that is being edited. -/
structure Draft where
  /-- The body as it is now. -/
  body : Implementation
  /-- How many blocks there were when the transfer of a block was last replaced. -/
  known : Nat → Nat

namespace Draft

/-- A body without blocks, no transfer of which was replaced. -/
def blank (name : Name) (inputs outputs : List Variable) : Draft where
  body := ⟨name, inputs, outputs, [], [], [], 0⟩
  known _ := 0

/-- The draft after an edit. -/
def step (d : Draft) (e : Edit) : Draft where
  body := d.body.edit e
  known p := match e with
    | .setTransfer id _ => if p = id then d.body.blocks.length else d.known p
    | _ => d.known p

/-- The draft after several edits. -/
def run (d : Draft) (edits : List Edit) : Draft := edits.foldl step d

/-- The draft that a run of edits makes of a body without blocks. -/
def build (name : Name) (inputs outputs : List Variable) (edits : List Edit) : Draft :=
  (blank name inputs outputs).run edits

/-- A block lists the blocks that lead to it and that knew of it when their transfers were set. -/
structure Tracked (d : Draft) : Prop where
  /-- No transfer knew of more blocks than there are now. -/
  known_le : ∀ p, d.known p ≤ d.body.blocks.length
  /-- A block lists another once for each target if that one knew of it. -/
  count_predsAt : ∀ id p, id < d.known p →
    (d.body.predsAt id).count p = (d.body.successors p).count id
  /-- A block lists only such blocks. -/
  lt_known : ∀ id, ∀ p ∈ d.body.predsAt id, id < d.known p

variable {d : Draft} {id p : Nat}

/-! ## One edit -/

theorem tracked_blank (name : Name) (inputs outputs : List Variable) :
    (blank name inputs outputs).Tracked where
  known_le _ := Nat.le_refl 0
  count_predsAt _ _ hlt := absurd hlt (Nat.not_lt_zero _)
  lt_known _ _ hp := absurd hp List.not_mem_nil

/-- An edit that leaves the edges and what is known of them keeps a draft tracked. -/
theorem Tracked.of_same_edges {d' : Draft} (h : d.Tracked) (hknown : d'.known = d.known)
    (hlength : d.body.blocks.length ≤ d'.body.blocks.length)
    (hpreds : ∀ id, d'.body.predsAt id = d.body.predsAt id)
    (hsuccessors : ∀ p, d'.body.successors p = d.body.successors p) : d'.Tracked where
  known_le p := hknown ▸ (h.known_le p).trans hlength
  count_predsAt id p hlt := by
    rw [hpreds, hsuccessors, h.count_predsAt id p (hknown ▸ hlt)]
  lt_known id p hp := hknown ▸ h.lt_known id p (hpreds id ▸ hp)

theorem known_setTransfer (d : Draft) (id : Nat) (t : Transfer) (p : Nat) :
    (d.step (.setTransfer id t)).known p =
      if p = id then d.body.blocks.length else d.known p := rfl

/-- A block that another lists leads to it. -/
theorem Tracked.mem_successors (h : d.Tracked) (hp : p ∈ d.body.predsAt id) :
    id ∈ d.body.successors p := by
  rw [← List.count_pos_iff, ← h.count_predsAt id p (h.lt_known id p hp)]
  exact List.count_pos_iff.2 hp

/-- What a block lists of another after the transfer of a block is replaced. -/
theorem count_predsAt_setTransfer {i : Implementation} (hid : id < i.blocks.length) (t : Transfer)
    {q : Nat} (hq : q < i.blocks.length) : ((i.setTransfer id t).predsAt q).count p =
      if p = id then (i.predsAt q).count p - (i.successors p).count q + t.targets.count q
      else (i.predsAt q).count p := by
  unfold predsAt
  rw [getElem?_setTransfer hid, List.getElem?_eq_getElem hq]
  dsimp only [Option.map_some, Option.getD_some]
  rw [count_iterate_append, count_iterate_erase]
  split_ifs with hp
  · rw [hp]
  · rfl

/-- A new transfer strikes the block from the targets that list it and tells the new ones. -/
theorem Tracked.setTransfer (h : d.Tracked) (hid : id < d.body.blocks.length) (t : Transfer) :
    (d.step (.setTransfer id t)).Tracked := by
  have hlength : (d.body.setTransfer id t).blocks.length = d.body.blocks.length :=
    length_setTransfer d.body id t
  -- Only blocks that exist have lists of predecessors.
  have hexists : ∀ q, (d.body.setTransfer id t).predsAt q ≠ [] → q < d.body.blocks.length := by
    intro q hne
    by_contra hge
    unfold predsAt at hne
    rw [List.getElem?_eq_none (by omega)] at hne
    exact hne rfl
  refine ⟨fun p => ?_, fun q p hlt => ?_, fun q p hmem => ?_⟩
  · rw [known_setTransfer]
    split_ifs
    · exact hlength.ge
    · exact (h.known_le p).trans hlength.ge
  · change ((d.body.setTransfer id t).predsAt q).count p =
      ((d.body.setTransfer id t).successors p).count q
    rw [known_setTransfer] at hlt
    have hq : q < d.body.blocks.length := by
      split_ifs at hlt
      · exact hlt
      · exact Nat.lt_of_lt_of_le hlt (h.known_le p)
    rw [count_predsAt_setTransfer hid t hq, successors_setTransfer hid]
    split_ifs at hlt ⊢
    · -- Whether or not the target was told before, it lists the block at most as often as is struck.
      have hle : (d.body.predsAt q).count p ≤ (d.body.successors p).count q := by
        by_cases hp : p ∈ d.body.predsAt q
        · exact (h.count_predsAt q p (h.lt_known q p hp)).le
        · rw [List.count_eq_zero.2 hp]
          exact Nat.zero_le _
      rw [Nat.sub_eq_zero_of_le hle, Nat.zero_add]
    · exact h.count_predsAt q p hlt
  · change p ∈ (d.body.setTransfer id t).predsAt q at hmem
    rw [known_setTransfer]
    split_ifs with hp
    · exact hexists q (List.ne_nil_of_mem hmem)
    · exact h.lt_known q p ((mem_predsAt_setTransfer hid t hp).1 hmem)

/-- A transfer of a block that does not exist is not set. -/
theorem Tracked.setTransfer_missing (h : d.Tracked) (hid : ¬ id < d.body.blocks.length)
    (t : Transfer) : (d.step (.setTransfer id t)).Tracked := by
  have hsame : (d.step (.setTransfer id t)).body = d.body := if_neg hid
  -- Nothing leads on from the block, so none lists it.
  have hnone : ∀ q, id ∉ d.body.predsAt q := fun q hmem =>
    hid (lt_length_of_edge (h.mem_successors hmem))
  refine ⟨fun p => ?_, fun q p hlt => ?_, fun q p hmem => ?_⟩
  · rw [hsame, known_setTransfer]
    split_ifs
    · exact Nat.le_refl _
    · exact h.known_le p
  · rw [hsame]
    rw [known_setTransfer] at hlt
    split_ifs at hlt with hp
    · rw [hp, successors_eq_nil (Nat.le_of_not_lt hid), List.count_nil]
      exact List.count_eq_zero.2 (hnone q)
    · exact h.count_predsAt q p hlt
  · rw [hsame] at hmem
    rw [known_setTransfer, if_neg fun hp : p = id => hnone q (hp ▸ hmem)]
    exact h.lt_known q p hmem

/-- Another label and other commands leave how a block is connected. -/
theorem getElem?_rewrite (i : Implementation) (id : Nat) (label : Name) (cmds : List Cmd) (p : Nat) :
    ∃ f : Block → Block, (∀ b, (f b).preds = b.preds ∧ (f b).transfer = b.transfer) ∧
      (i.edit (.rewrite id label cmds)).blocks[p]? = i.blocks[p]?.map f := by
  refine ⟨fun b => if id = p then { b with label, cmds } else b, fun b => ?_,
    List.getElem?_modify _ _ _ _⟩
  dsimp only
  split_ifs <;> exact ⟨rfl, rfl⟩

theorem predsAt_rewrite (i : Implementation) (id : Nat) (label : Name) (cmds : List Cmd) (p : Nat) :
    (i.edit (.rewrite id label cmds)).predsAt p = i.predsAt p := by
  obtain ⟨f, hf, hblock⟩ := getElem?_rewrite i id label cmds p
  unfold predsAt
  rw [hblock]
  cases i.blocks[p]? with
  | none => rfl
  | some b => exact (hf b).1

theorem successors_rewrite (i : Implementation) (id : Nat) (label : Name) (cmds : List Cmd)
    (p : Nat) : (i.edit (.rewrite id label cmds)).successors p = i.successors p := by
  obtain ⟨f, hf, hblock⟩ := getElem?_rewrite i id label cmds p
  unfold successors
  rw [hblock]
  cases i.blocks[p]? with
  | none => rfl
  | some b => exact congrArg Transfer.targets (hf b).2

/-- Every edit keeps a draft tracked. -/
theorem Tracked.step (h : d.Tracked) (e : Edit) : (d.step e).Tracked := by
  cases e with
  | addBlock label cmds =>
    exact h.of_same_edges rfl
      ((Nat.le_succ d.body.blocks.length).trans (length_addBlock d.body label cmds).ge)
      (predsAt_addBlock d.body label cmds) (successors_addBlock d.body label cmds)
  | setTransfer id t =>
    by_cases hid : id < d.body.blocks.length
    · exact h.setTransfer hid t
    · exact h.setTransfer_missing hid t
  | setEntry entry => exact h.of_same_edges rfl (Nat.le_refl _) (fun _ => rfl) fun _ => rfl
  | pushCmd id c =>
    exact h.of_same_edges rfl (length_pushCmd d.body id c).ge (predsAt_pushCmd d.body id c)
      (successors_pushCmd d.body id c)
  | rewrite id label cmds =>
    exact h.of_same_edges rfl (List.length_modify _ _ _).ge (predsAt_rewrite d.body id label cmds)
      (successors_rewrite d.body id label cmds)

/-! ## Runs of edits -/

/-- Every run of edits keeps a draft tracked. -/
theorem Tracked.run (h : d.Tracked) (edits : List Edit) : (d.run edits).Tracked := by
  induction edits generalizing d with
  | nil => exact h
  | cons e edits ih => exact ih (h.step e)

theorem mem_expectedPreds (i : Implementation) (id p : Nat) :
    p ∈ i.expectedPreds id ↔ id ∈ i.successors p := by
  rw [← List.count_pos_iff, count_expectedPreds, List.count_pos_iff]

section

variable {b : Block} (h : d.Tracked) (hb : d.body.blocks[id]? = some b)

include h hb

/-- The predecessors that a block of a tracked draft lists, up to order. -/
theorem Tracked.perm_filter : b.preds.Perm ((d.body.expectedPreds id).filter (id < d.known ·)) := by
  have hpreds : d.body.predsAt id = b.preds := by
    unfold predsAt
    rw [hb]
    rfl
  refine List.perm_iff_count.2 fun p => ?_
  rw [← hpreds]
  by_cases hlt : id < d.known p
  · rw [h.count_predsAt id p hlt, List.count_filter (by exact decide_eq_true hlt),
      count_expectedPreds]
  · have hnot : p ∉ (d.body.expectedPreds id).filter (id < d.known ·) := fun hmem =>
      hlt (of_decide_eq_true (List.mem_filter.1 hmem).2)
    rw [List.count_eq_zero.2 hnot, List.count_eq_zero.2 fun hmem => hlt (h.lt_known id p hmem)]

/-- A block of a tracked draft lists all blocks that lead to it exactly if all of them knew of
it. -/
theorem Tracked.perm_expectedPreds_iff :
    b.preds.Perm (d.body.expectedPreds id) ↔ ∀ p, id ∈ d.body.successors p → id < d.known p := by
  have hperm := h.perm_filter hb
  constructor
  · intro hall p edge
    have hmem := hperm.mem_iff.1 (hall.mem_iff.2 ((mem_expectedPreds d.body id p).2 edge))
    exact of_decide_eq_true (List.mem_filter.1 hmem).2
  · intro hall
    have hself : (d.body.expectedPreds id).filter (id < d.known ·) = d.body.expectedPreds id :=
      List.filter_eq_self.2 fun p hp =>
        decide_eq_true (hall p ((mem_expectedPreds d.body id p).1 hp))
    exact hself ▸ hperm

end

section

variable (name : Name) (inputs outputs : List Variable) (edits : List Edit)

theorem tracked_build : (build name inputs outputs edits).Tracked :=
  (tracked_blank name inputs outputs).run edits

/-- The body that a run of edits builds is consistent exactly if every transfer knew of all its
targets when it was set. -/
theorem consistent_build_iff : (build name inputs outputs edits).body.Consistent ↔
    ∀ p, ∀ next ∈ (build name inputs outputs edits).body.successors p,
      next < (build name inputs outputs edits).known p := by
  have h := tracked_build name inputs outputs edits
  generalize build name inputs outputs edits = d at h
  constructor
  · intro hconsistent p next edge
    refine h.lt_known next p (List.count_pos_iff.1 ?_)
    rw [hconsistent.count_predsAt]
    exact List.count_pos_iff.2 edge
  · intro hall
    refine ⟨fun p next edge => (hall p next edge).trans_le (h.known_le p), fun id p => ?_⟩
    by_cases hlt : id < d.known p
    · exact h.count_predsAt id p hlt
    · rw [List.count_eq_zero.2 fun hmem => hlt (h.lt_known id p hmem),
        List.count_eq_zero.2 fun edge => hlt (hall p id edge)]

/-- Whatever edits build a body, each block lists, up to order and once for each target, the blocks
that lead to it and that knew of it when their transfers were set. These are all the blocks that
lead to it exactly if none of their transfers was set before the block was appended. -/
theorem preds_perm {b : Block}
    (hb : (build name inputs outputs edits).body.blocks[id]? = some b) :
    b.preds.Perm (((build name inputs outputs edits).body.expectedPreds id).filter
        (id < (build name inputs outputs edits).known ·)) ∧
      (b.preds.Perm ((build name inputs outputs edits).body.expectedPreds id) ↔
        ∀ p, id ∈ (build name inputs outputs edits).body.successors p →
          id < (build name inputs outputs edits).known p) :=
  have h := tracked_build name inputs outputs edits
  ⟨h.perm_filter hb, h.perm_expectedPreds_iff hb⟩

end

/-- The draft in which the first block leads to a second one before that one is appended. -/
def forward : Draft := build ⟨"P"⟩ [] []
  [.addBlock ⟨"entry"⟩ [], .setTransfer 0 (.goto [1]), .addBlock ⟨"later"⟩ []]

/-- The block that is appended after the transfer to it lists no predecessor. -/
theorem preds_perm_forward : ∃ b, forward.body.blocks[1]? = some b ∧ b.preds = [] ∧
    b.preds.Perm ((forward.body.expectedPreds 1).filter (1 < forward.known ·)) ∧
      (b.preds.Perm (forward.body.expectedPreds 1) ↔
        ∀ p, 1 ∈ forward.body.successors p → 1 < forward.known p) :=
  ⟨⟨⟨"later"⟩, [], [], .ret⟩, rfl, rfl, preds_perm ⟨"P"⟩ [] [] _ rfl⟩

/-- The lists of predecessors do not always mirror the transfers, and a body all of whose targets
exist is then rejected. -/
theorem not_preds_perm_forward :
    (¬ ∀ (edits : List Edit) (id : Nat) (b : Block),
      (build ⟨"P"⟩ [] [] edits).body.blocks[id]? = some b →
        b.preds.Perm ((build ⟨"P"⟩ [] [] edits).body.expectedPreds id)) ∧
      forward.body.danglingTarget? = none ∧
      forward.body.topologicalOrder = .error (.inconsistentPredecessors ⟨"later"⟩) := by
  have hexpected : forward.body.expectedPreds 1 = [0] := by decide
  refine ⟨fun hall => ?_, by decide, ?_⟩
  · have hperm : ([] : List Nat).Perm (forward.body.expectedPreds 1) :=
      hall _ 1 ⟨⟨"later"⟩, [], [], .ret⟩ rfl
    rw [hexpected] at hperm
    exact absurd hperm.length_eq (by decide)
  · cbv

end Draft
end Obligations
