import Obligations.Proofs.Implementation.Normalization

/-!
# Normalizing twice

A body that has one exit and no critical edges should stay as it is when it is normalized again. Its
exit does (`unifyExits_eq_self`). Which edges are split is decided by the number of entries: a block is
a join if its list of predecessors has several, and an edge is split if its source has several targets
(`splitCriticalEdges_eq_self_iff`). The two agree with what a critical edge is only where no transfer
names a target twice (`settled_iff_simple`). A block that is put in the middle of two edges between the
same blocks is named twice itself, so that edges are split over and over. Neither change makes or
removes such repetitions, so a body stays as it is the second time exactly if it had none at the
beginning (`normalize_again_iff`).
-/

namespace Obligations.Implementation

variable {ε α : Type} {i j : Implementation} {n source target : Nat}

/-- No transfer names a target twice. -/
def Simple (i : Implementation) : Prop := ∀ p, (i.successors p).Nodup

/-- The edges to the joins come from blocks with one target. -/
def Settled (i : Implementation) : Prop :=
  ∀ target ∈ i.joins, ∀ p ∈ i.predecessorSet target, (i.successors p).length < 2

/-- What splitting edges keeps: a body has no fewer blocks, is consistent, and has repeated targets
exactly if the other body has. -/
structure KeepsRepetitions (i k : Implementation) : Prop where
  /-- No block is gone. -/
  length_le : i.blocks.length ≤ k.blocks.length
  /-- The body is consistent. -/
  consistent : k.Consistent
  /-- A target is named twice in both bodies or in none. -/
  simple_iff : k.Simple ↔ i.Simple

/-- Splits all critical edges, and counts the blocks that are added. -/
def countedSplit (i : Implementation) : Minting ε (Implementation × Nat) :=
  i.joins.foldlM (fun (i, added) target =>
    (i.predecessorSet target).foldlM (fun (i, added) source =>
      if (i.successors source).length < 2 then pure (i, added)
      else do return (← i.splitEdge source target, added + 1)) (i, added)) (i, 0)

theorem simple_iff : i.Simple ↔ ∀ b ∈ i.blocks, b.successors.Nodup := by
  constructor
  · intro h b hb
    obtain ⟨p, hp⟩ := List.mem_iff_getElem?.1 hb
    have hnodup := h p
    rwa [successors, hp] at hnodup
  · intro h p
    unfold successors
    cases hb : i.blocks[p]? with
    | none => exact List.nodup_nil
    | some b => exact h b (List.mem_of_getElem? hb)

/-- A block leads to the blocks that list it. -/
theorem Consistent.mem_predsAt_iff (hi : i.Consistent) {p id : Nat} :
    p ∈ i.predsAt id ↔ id ∈ i.successors p := by
  rw [← List.count_pos_iff, hi.count_predsAt, List.count_pos_iff]

theorem Consistent.linked (hi : i.Consistent) : i.Linked :=
  fun p next edge => ⟨hi.lt_length p next edge, hi.mem_predsAt_iff.2 edge⟩

/-! ## Steps that add blocks -/

/-- A step leaves a body as it is or adds blocks. -/
def Adds (f : Implementation → α → Minting ε Implementation) : Prop :=
  ∀ i a j, (f i a).outcome = .ok j → j = i ∨ i.blocks.length < j.blocks.length

section

variable {f : Implementation → α → Minting ε Implementation} {as : List α}

theorem Adds.foldlM (hf : Adds f) (hj : (as.foldlM f i).outcome = .ok j) :
    j = i ∨ i.blocks.length < j.blocks.length := by
  refine Minting.foldlM_induction (P := fun c => c = i ∨ i.blocks.length < c.blocks.length)
    (fun a _ b c hb hc => ?_) (.inl rfl) hj
  rcases hb with rfl | hb
  · exact hf _ a c hc
  · rcases hf _ a c hc with rfl | hlt
    · exact .inr hb
    · exact .inr (hb.trans hlt)

/-- Such steps leave a body as it is together if each of them does. -/
theorem Adds.foldlM_eq_self_iff (hf : Adds f) :
    (as.foldlM f i).outcome = .ok i ↔ ∀ a ∈ as, (f i a).outcome = .ok i := by
  induction as with
  | nil => exact iff_of_true rfl (List.forall_mem_nil _)
  | cons a as ih =>
    rw [List.foldlM_cons, Minting.bind_eq_ok, List.forall_mem_cons, ← ih]
    constructor
    · rintro ⟨c, hc, hrest⟩
      rcases hf i a c hc with rfl | hlt
      · exact ⟨hc, hrest⟩
      · -- What has been added is not taken away.
        rcases hf.foldlM hrest with rfl | hlt'
        · exact absurd hlt (Nat.lt_irrefl _)
        · exact absurd hlt (Nat.lt_asymm hlt')
    · rintro ⟨hc, hrest⟩
      exact ⟨i, hc, hrest⟩

/-- A count of the blocks that each step adds counts those that are added together. -/
theorem Adds.foldlM_counted (hf : Adds f)
    {g : Implementation × Nat → α → Minting ε (Implementation × Nat)}
    (hg : ∀ i m a j n, (g (i, m) a).outcome = .ok (j, n) ↔
      (f i a).outcome = .ok j ∧ j.blocks.length + m = i.blocks.length + n) {m : Nat} :
    (as.foldlM g (i, m)).outcome = .ok (j, n) ↔
      (as.foldlM f i).outcome = .ok j ∧ j.blocks.length + m = i.blocks.length + n := by
  induction as generalizing i m with
  | nil =>
    constructor
    · rintro ⟨⟩
      exact ⟨rfl, rfl⟩
    · rintro ⟨⟨⟩, hlength⟩
      rw [Nat.add_left_cancel hlength]
      rfl
  | cons a as ih =>
    rw [List.foldlM_cons, List.foldlM_cons, Minting.bind_eq_ok, Minting.bind_eq_ok]
    constructor
    · rintro ⟨⟨c, k⟩, hc, hrest⟩
      obtain ⟨hc, hlength⟩ := (hg i m a c k).1 hc
      obtain ⟨hrest, hlength'⟩ := ih.1 hrest
      exact ⟨⟨c, hc, hrest⟩, by omega⟩
    · rintro ⟨⟨c, hc, hrest⟩, hlength⟩
      -- The count never falls, so the one between the steps is a difference of numbers of blocks.
      have hle : i.blocks.length ≤ c.blocks.length := by
        rcases hf i a c hc with rfl | hlt
        · exact Nat.le_refl _
        · exact Nat.le_of_lt hlt
      have hadded : c.blocks.length + m = i.blocks.length + (c.blocks.length + m - i.blocks.length) := by
        omega
      exact ⟨(c, _), (hg i m a c _).2 ⟨hc, hadded⟩, ih.2 ⟨hrest, by omega⟩⟩

end

/-! ## What is split -/

theorem adds_splitEdge (target : Nat) : Adds fun i source =>
    if (i.successors source).length < 2 then (pure i : Minting ε _) else i.splitEdge source target := by
  intro i source j hj
  dsimp only at hj
  split_ifs at hj with hlength
  · cases hj
    exact .inl rfl
  · have hlen := length_splitEdge (lt_length_of_not_length_lt hlength) hj
    exact .inr (by omega)

theorem adds_splitEdgesInto : Adds (splitEdgesInto : _ → _ → Minting ε _) :=
  fun _ target _ hj => (adds_splitEdge target).foldlM hj

/-- A body stays as it is if the edges to its joins come from blocks with one target. -/
theorem splitCriticalEdges_eq_self_iff :
    (i.splitCriticalEdges : Minting ε _).outcome = .ok i ↔ i.Settled := by
  refine adds_splitEdgesInto.foldlM_eq_self_iff.trans ?_
  refine forall₂_congr fun target _ => (adds_splitEdge target).foldlM_eq_self_iff.trans ?_
  refine forall₂_congr fun source _ => ?_
  split_ifs with hlength
  · exact iff_of_true rfl hlength
  · refine iff_of_false (fun hsame => ?_) hlength
    exact absurd (length_splitEdge (lt_length_of_not_length_lt hlength) hsame) (by omega)

/-- The count is that of the blocks that are added. -/
theorem countedSplit_eq_ok_iff : (i.countedSplit : Minting ε _).outcome = .ok (j, n) ↔
    (i.splitCriticalEdges : Minting ε _).outcome = .ok j ∧
      j.blocks.length = i.blocks.length + n := by
  refine adds_splitEdgesInto.foldlM_counted fun i m target j n =>
    (adds_splitEdge target).foldlM_counted fun i m source j n => ?_
  dsimp only
  split_ifs with hlength
  · constructor
    · rintro ⟨⟩
      exact ⟨rfl, rfl⟩
    · rintro ⟨⟨⟩, hlength⟩
      rw [Nat.add_left_cancel hlength]
      rfl
  · rw [Minting.bind_eq_ok]
    -- An edge that is split adds one block, which is what is counted for it.
    have hlen : ∀ c, (i.splitEdge source target : Minting ε _).outcome = .ok c →
        c.blocks.length = i.blocks.length + 1 := fun c hc =>
      length_splitEdge (lt_length_of_not_length_lt hlength) hc
    constructor
    · rintro ⟨c, hc, ⟨⟩⟩
      have := hlen _ hc
      exact ⟨hc, by omega⟩
    · rintro ⟨hj, hlength⟩
      have := hlen j hj
      obtain rfl : n = m + 1 := by omega
      exact ⟨j, hj, rfl⟩

/-! ## Repeated targets -/

/-- In a body without critical edges there is nothing left to split exactly if no transfer names a
target twice. -/
theorem settled_iff_simple (hi : i.Consistent) (h : ∀ id, i.Uncritical id) :
    i.Settled ↔ i.Simple := by
  constructor
  · intro hsettled p
    by_contra hdup
    -- A target that is named twice is a join, and its source has two targets.
    obtain ⟨target, htwice⟩ := List.exists_duplicate_iff_not_nodup.2 hdup
    have hcount := List.duplicate_iff_two_le_count.1 htwice
    have hjoin : target ∈ i.joins := by
      rw [mem_joins]
      rw [← hi.count_predsAt] at hcount
      exact hcount.trans List.count_le_length
    have hlisted : p ∈ i.predecessorSet target :=
      mem_predecessorSet.2 (hi.mem_predsAt_iff.2 htwice.mem)
    have hlength := hsettled target hjoin p hlisted
    exact absurd (hcount.trans List.count_le_length) (Nat.not_le.2 hlength)
  · intro hsimple target hjoin p hp
    have edge : target ∈ i.successors p := hi.mem_predsAt_iff.1 (mem_predecessorSet.1 hp)
    rcases h target with hone | hall
    · -- The only predecessor is listed once.
      have hpreds : i.predsAt target = List.replicate (i.predsAt target).length p :=
        List.eq_replicate_of_mem fun q hq => hone q p (hi.mem_predsAt_iff.1 hq) edge
      have hcount := hi.count_predsAt target p
      rw [hpreds, List.count_replicate_self] at hcount
      have hle := List.nodup_iff_count_le_one.1 (hsimple p) target
      exact absurd (mem_joins.1 hjoin) (by omega)
    · rw [hall p edge]
      exact Nat.one_lt_two

theorem simple_splitEdge_iff (hi : i.Consistent) (hsource : source < i.blocks.length)
    (hj : (i.splitEdge source target : Minting ε _).outcome = .ok j) : j.Simple ↔ i.Simple := by
  have hnew : i.blocks.length ∉ i.successors source := fun edge =>
    Nat.lt_irrefl _ (hi.lt_length source _ edge)
  refine forall_congr' fun p => ?_
  rw [successors_splitEdge hsource hj]
  split_ifs with hps hpn
  · subst hps
    refine ⟨fun h => h.of_map, fun h => h.map_on fun t ht t' ht' heq => ?_⟩
    split_ifs at heq with heqt heqt' heqt'
    · exact heqt.trans heqt'.symm
    · exact absurd (heq ▸ ht') hnew
    · exact absurd (heq ▸ ht) hnew
    · exact heq
  · rw [hpn, successors_eq_nil (Nat.le_refl _)]
    exact iff_of_true (List.nodup_singleton _) List.nodup_nil
  · rfl

/-- Splitting edges keeps a body consistent and its repetitions as they are. -/
theorem keepsRepetitions_splitCriticalEdges (hi : i.Consistent)
    (hj : (i.splitCriticalEdges : Minting ε _).outcome = .ok j) : KeepsRepetitions i j := by
  refine Minting.foldlM_induction (fun target htarget b c hb hc => ?_)
    (⟨Nat.le_refl _, hi, Iff.rfl⟩ : KeepsRepetitions i i) hj
  have htarget : target < i.blocks.length := List.mem_range.1 (List.mem_filter.1 htarget).1
  refine Minting.foldlM_induction (fun source _ b c hb hc => ?_) hb hc
  split_ifs at hc with hlength
  · cases hc
    exact hb
  · have hsource := lt_length_of_not_length_lt hlength
    have hlen := length_splitEdge hsource hc
    have hle := hb.length_le
    exact ⟨by omega, hb.consistent.splitEdge hsource (htarget.trans_le hle) hc,
      (simple_splitEdge_iff hb.consistent hsource hc).trans hb.simple_iff⟩

theorem simple_unifyExits_iff {s : SingleExit} (hs : i.unifyExits.outcome = .ok s) :
    s.body.Simple ↔ i.Simple := by
  rcases unifyExits_cases hs with ⟨-, hbody, -⟩ | ⟨-, -, -, label, hbody⟩
  · rw [hbody]
  · obtain ⟨-, -, -, -, hsuccessors⟩ := i.redirect_spec label
    refine forall_congr' fun p => ?_
    rw [hbody, hsuccessors]
    split_ifs with hret
    · rw [(halts_of_mem_returning hret).2]
      exact iff_of_true (List.nodup_singleton _) List.nodup_nil
    · rfl

/-! ## The second time -/

/-- A body with one exit keeps it, and nothing is recorded. -/
theorem unifyExits_eq_self {exit : Nat} (h : i.returning = [exit]) :
    i.unifyExits.outcome = .ok ⟨i, exit, []⟩ := by
  unfold unifyExits
  rw [h]
  rfl

theorem consistent_of_check (hcheck : i.check = .ok ()) : i.Consistent := by
  obtain ⟨order, horder, -⟩ := exists_order hcheck
  obtain ⟨hdangling, hpreds, -, -⟩ := topologicalOrder_cases horder
  exact consistent_iff.2 ⟨hdangling, hpreds⟩

/-- A body that is normalized stays as it is when its critical edges are split again exactly if no
transfer of the given body names a target twice. -/
theorem splitCriticalEdges_again_eq_self_iff {e : SingleExit} {k : Implementation}
    (hi : i.Consistent) (he : i.unifyExits.outcome = .ok e)
    (hk : (e.body.splitCriticalEdges : Minting ε _).outcome = .ok k) :
    (k.splitCriticalEdges : Minting ε _).outcome = .ok k ↔ i.Simple := by
  have hbody := (unifyExits_eq_ok he).2.1 hi
  have hkeeps := keepsRepetitions_splitCriticalEdges hbody hk
  have huncritical := hbody.linked.uncritical_splitCriticalEdges hk
  calc (k.splitCriticalEdges : Minting ε _).outcome = .ok k
    _ ↔ k.Settled := splitCriticalEdges_eq_self_iff
    _ ↔ k.Simple := settled_iff_simple hkeeps.consistent huncritical
    _ ↔ e.body.Simple := hkeeps.simple_iff
    _ ↔ i.Simple := simple_unifyExits_iff he

/-- A body that is normalized keeps its exit when it is normalized again, and no exits are recorded.
It gets no more blocks exactly if no transfer of the given body names a target twice, and then it stays
as it is. -/
theorem normalize_again_iff (hcheck : i.check = .ok ()) (hreturns : i.returning ≠ []) :
    ∃ e k l n, i.unifyExits.outcome = .ok e ∧
      (e.body.splitCriticalEdges : Minting ε _).outcome = .ok k ∧
      k.unifyExits.outcome = .ok ⟨k, e.exit, []⟩ ∧
      (k.countedSplit : Minting ε _).outcome = .ok (l, n) ∧
      (n = 0 ↔ i.Simple) ∧ (l = k ↔ i.Simple) := by
  obtain ⟨e, he⟩ := exists_unifyExits hreturns
  obtain ⟨k, hk, -⟩ := exists_splitCriticalEdges (ε := ε) e.body
  obtain ⟨l, hl, hextends⟩ := exists_splitCriticalEdges (ε := ε) k
  -- The split is a function of the body, so being fixed by it can be read off the one result.
  have hsame : l = k ↔ i.Simple := by
    rw [← splitCriticalEdges_again_eq_self_iff (consistent_of_check hcheck) he hk, hl]
    exact ⟨congrArg _, Except.ok.inj⟩
  have hadded : l.blocks.length = k.blocks.length + (l.blocks.length - k.blocks.length) := by
    have := hextends.length_le
    omega
  refine ⟨e, k, l, _, he, hk, ?_, countedSplit_eq_ok_iff.2 ⟨hl, hadded⟩, ?_, hsame⟩
  · have hexit := (unifyExits_eq_ok he).1
    exact unifyExits_eq_self ((subdivides_splitCriticalEdges hk).returning_eq_singleton hexit)
  · -- A body that gets no blocks is left as it is.
    rw [← hsame]
    constructor
    · intro hnone
      rcases adds_splitEdgesInto.foldlM hl with hsame | hlt
      · exact hsame
      · omega
    · rintro rfl
      exact Nat.sub_self _

/-- A body with a critical edge, from its entry to its exit. -/
def forking : Implementation where
  name := ⟨"P"⟩
  inputs := []
  outputs := []
  locals := []
  attributes := []
  blocks :=
    [⟨⟨"entry"⟩, [], [], .goto [1, 2]⟩, ⟨⟨"a"⟩, [], [0], .goto [2]⟩,
      ⟨⟨"join"⟩, [], [0, 1], .ret⟩]
  entry := 0

theorem normalize_again_iff_forking : ∃ e k, forking.unifyExits.outcome = .ok e ∧
    (e.body.splitCriticalEdges : Minting GraphError _).outcome = .ok k ∧
    k.unifyExits.outcome = .ok ⟨k, e.exit, []⟩ ∧
    (k.countedSplit : Minting GraphError _).outcome = .ok (k, 0) := by
  have hcheck : forking.check = .ok () := by cbv
  have hreturning : forking.returning = [2] := by cbv
  have hsimple : forking.Simple := simple_iff.2 (by decide)
  obtain ⟨e, k, l, n, he, hk, hagain, hl, hnone, hsame⟩ := normalize_again_iff (ε := GraphError)
    hcheck (hreturning ▸ List.cons_ne_nil _ _)
  rw [hnone.2 hsimple, hsame.2 hsimple] at hl
  exact ⟨e, k, he, hk, hagain, hl⟩

/-- A body whose entry names the exit twice. -/
def doubling : Implementation where
  name := ⟨"P"⟩
  inputs := []
  outputs := []
  locals := []
  attributes := []
  blocks := [⟨⟨"entry"⟩, [], [], .goto [1, 1]⟩, ⟨⟨"join"⟩, [], [0, 0], .ret⟩]
  entry := 0

/-- The block in the middle of its edges gets another one before it when they are split again. -/
theorem normalize_not_idempotent_doubling :
    doubling.check = .ok () ∧ doubling.returning ≠ [] ∧
      ¬ ∃ e k, doubling.unifyExits.outcome = .ok e ∧
        (e.body.splitCriticalEdges : Minting GraphError _).outcome = .ok k ∧
        (k.countedSplit : Minting GraphError _).outcome = .ok (k, 0) := by
  have hcheck : doubling.check = .ok () := by cbv
  have hreturning : doubling.returning = [1] := by cbv
  refine ⟨hcheck, hreturning ▸ List.cons_ne_nil _ _, ?_⟩
  rintro ⟨e, k, he, hk, hagain⟩
  have hsame := (countedSplit_eq_ok_iff.1 hagain).1
  have hsimple :=
    (splitCriticalEdges_again_eq_self_iff (consistent_of_check hcheck) he hk).1 hsame
  exact absurd (hsimple 0) (by decide)

end Obligations.Implementation
