import Obligations.Proofs.Condition.Labels
import Obligations.Proofs.Implementation.Normal

/-!
# Normalization keeps executions

A body gets one exit and its critical edges are split. Both changes add one empty block after
another, and control comes through a new block only from where it could go on to the targets of the
new block before (`trail_iff_of_detour`). So the trails between the blocks that there were stay the
same: each change extends the body (`extends_unifyExits`, `extends_splitEdge`). What is left to say is
where trails end. The trails to the one exit are those to the exits before it (`trail_exit_iff`), and
splitting edges leaves alone the blocks where control ends (`exists_splitCriticalEdges`).
-/

namespace Obligations.Implementation

variable {ε : Type} {i j k : Implementation} {p a b source target : Nat} {cs : List Cmd}

/-- Control goes on nowhere from an existing block. -/
def Halts (i : Implementation) (p : Nat) : Prop := p < i.blocks.length ∧ i.successors p = []

/-- A body has more blocks, which have no commands, and the same trails between those that there
were. -/
structure Extends (i k : Implementation) : Prop where
  /-- Nothing but the blocks is changed. -/
  rest : ∃ blocks, k = { i with blocks }
  /-- No block is gone. -/
  length_le : i.blocks.length ≤ k.blocks.length
  /-- The commands of the blocks are the same. -/
  cmdsAt : ∀ p, k.cmdsAt p = i.cmdsAt p
  /-- A consistent body stays consistent. -/
  consistent : i.Consistent → k.Consistent
  /-- The trails between the blocks are the same. -/
  trail_iff : i.Consistent → ∀ {a b cs}, a < i.blocks.length → b < i.blocks.length →
    (k.Trail a b cs ↔ i.Trail a b cs)

/-- What becomes of a body that gets one exit and then no critical edges. -/
structure NormalizedTo (i : Implementation) (e : SingleExit) (k : Implementation) : Prop where
  /-- A block keeps its index, its label and its commands. -/
  kept : ∀ (p : Nat) (b : Block), i.blocks[p]? = some b →
    ∃ b', k.blocks[p]? = some b' ∧ b'.label = b.label ∧ b'.cmds = b.cmds
  /-- The blocks that are added have no commands. -/
  added : ∀ (p : Nat) (b : Block), i.blocks.length ≤ p → k.blocks[p]? = some b → b.cmds = []
  /-- The targets exist, and the predecessors are listed once for each target. -/
  consistent : k.Consistent
  /-- The commands along the paths from the entry to where control leaves the body are the same. -/
  returning : ∀ cs, (∃ p ∈ k.returning, k.Trail k.entry p cs) ↔
    ∃ p ∈ i.returning, i.Trail i.entry p cs
  /-- So are those along the paths from the entry to where control goes on nowhere. -/
  halting : ∀ cs, (∃ p, k.Halts p ∧ k.Trail k.entry p cs) ↔ ∃ p, i.Halts p ∧ i.Trail i.entry p cs
  /-- Recorded are the exits that there were, if there were several, with how control left them. -/
  replaced : ∀ p t, (p, t) ∈ e.replaced ↔ 1 < i.returning.length ∧ p ∈ i.returning ∧ t = .ret

/-! ## A block on the way -/

/-- A new block without commands, to which control comes only from where it could go on to the
targets of the new block before, leaves the trails between the other blocks as they are. -/
theorem trail_iff_of_detour (hi : i.Consistent) (hcmds : ∀ p, k.cmdsAt p = i.cmdsAt p)
    (hnew : ∀ next ∈ k.successors i.blocks.length, next < i.blocks.length)
    (hout : ∀ p < i.blocks.length, ∀ next ∈ k.successors p, next ∈ i.successors p ∨
      next = i.blocks.length ∧ ∀ t ∈ k.successors i.blocks.length, t ∈ i.successors p)
    (hin : ∀ p < i.blocks.length, ∀ next ∈ i.successors p, next ∈ k.successors p ∨
      i.blocks.length ∈ k.successors p ∧ next ∈ k.successors i.blocks.length)
    (ha : a < i.blocks.length) (hb : b < i.blocks.length) :
    k.Trail a b cs ↔ i.Trail a b cs := by
  have hempty : k.cmdsAt i.blocks.length = [] := by
    rw [hcmds, Implementation.cmdsAt, List.getElem?_eq_none (Nat.le_refl _)]
    rfl
  constructor
  · rintro ⟨ids, hp, rfl⟩
    -- A path from the new block is one from a target of it.
    have hboth : (a < i.blocks.length → i.Trail a b (k.cmdsAlong ids)) ∧
        (a = i.blocks.length →
          ∃ t ∈ k.successors i.blocks.length, i.Trail t b (k.cmdsAlong ids)) := by
      clear ha
      induction hp with
      | single b =>
        rw [cmdsAlong_singleton, hcmds]
        exact ⟨fun _ => .single i b, fun heq => absurd heq (Nat.ne_of_lt hb)⟩
      | @cons a next b ids edge _ ih =>
        obtain ⟨hold, hdetour⟩ := ih hb
        rw [cmdsAlong_cons]
        constructor
        · intro ha
          rw [hcmds]
          rcases hout a ha next edge with hnext | ⟨rfl, hall⟩
          · exact .cons hnext (hold (hi.lt_length a next hnext))
          · obtain ⟨t, ht, htrail⟩ := hdetour rfl
            exact .cons (hall t ht) htrail
        · rintro rfl
          rw [hempty, List.nil_append]
          exact ⟨next, edge, hold (hnew next edge)⟩
    exact hboth.1 ha
  · rintro ⟨ids, hp, rfl⟩
    induction hp with
    | single b =>
      rw [cmdsAlong_singleton, ← hcmds]
      exact .single k b
    | @cons a next b ids edge _ ih =>
      have hrest := ih (hi.lt_length a next edge) hb
      rw [cmdsAlong_cons, ← hcmds]
      rcases hin a ha next edge with hnext | ⟨hnext, ht⟩
      · exact .cons hnext hrest
      · have hdetour := Trail.cons ht hrest
        rw [hempty, List.nil_append] at hdetour
        exact .cons hnext hdetour

namespace Extends

theorem refl (i : Implementation) : Extends i i :=
  ⟨⟨i.blocks, rfl⟩, Nat.le_refl _, fun _ => rfl, id, fun _ {_ _ _} _ _ => Iff.rfl⟩

theorem trans (h : Extends i j) (h' : Extends j k) : Extends i k where
  rest := by
    obtain ⟨bs, rfl⟩ := h.rest
    obtain ⟨bs', rfl⟩ := h'.rest
    exact ⟨bs', rfl⟩
  length_le := h.length_le.trans h'.length_le
  cmdsAt p := (h'.cmdsAt p).trans (h.cmdsAt p)
  consistent hi := h'.consistent (h.consistent hi)
  trail_iff hi {_ _ _} ha hb :=
    (h'.trail_iff (h.consistent hi) (ha.trans_le h.length_le) (hb.trans_le h.length_le)).trans
      (h.trail_iff hi ha hb)

theorem entry (h : Extends i k) : k.entry = i.entry := by
  obtain ⟨bs, rfl⟩ := h.rest
  rfl

/-- The blocks keep their commands, and blocks that are added have none. -/
theorem cmds_eq (h : Extends i k) {c : Block} (hc : k.blocks[p]? = some c) :
    c.cmds = i.cmdsAt p := by
  rw [← h.cmdsAt, Implementation.cmdsAt, hc]
  rfl

end Extends

theorem Extends.exists_block (h : Extends i k) (hlabels : AddsLabels i k) {b : Block}
    (hb : i.blocks[p]? = some b) :
    ∃ b', k.blocks[p]? = some b' ∧ b'.label = b.label ∧ b'.cmds = b.cmds := by
  have hlt : p < k.blocks.length := (List.getElem?_eq_some_iff.1 hb).1.trans_le h.length_le
  have hb' := List.getElem?_eq_getElem hlt
  refine ⟨_, hb', ?_, ?_⟩
  · obtain ⟨added, hadded⟩ := hlabels.kept
    have hold : i.labels[p]? = some b.label := by rw [← label?_eq, label?, hb]; rfl
    have hnew : k.labels[p]? = some (k.blocks[p].label) := by rw [← label?_eq, label?, hb']; rfl
    rw [← hadded, List.getElem?_append_left (List.getElem?_eq_some_iff.1 hold).1, hold] at hnew
    exact (Option.some.inj hnew).symm
  · rw [h.cmds_eq hb', Implementation.cmdsAt, hb]
    rfl

/-! ## One exit -/

theorem lt_length_of_mem_returning (h : p ∈ i.returning) : p < i.blocks.length :=
  lt_length_of_transferAt? (mem_returning.1 h)

/-- Control goes on nowhere from where it leaves the body. -/
theorem halts_of_mem_returning (h : p ∈ i.returning) : i.Halts p :=
  ⟨lt_length_of_mem_returning h, successors_of_transferAt? (mem_returning.1 h)⟩

/-- A body at which control leaves it somewhere gets one exit. -/
theorem exists_unifyExits (h : i.returning ≠ []) : ∃ s, i.unifyExits.outcome = .ok s := by
  unfold unifyExits
  split
  case h_1 hnil => exact absurd hnil h
  case h_2 exit _ => exact ⟨_, rfl⟩
  case h_3 => exact ⟨_, rfl⟩

/-- A body whose exits go on to a new block instead. -/
def redirect (i : Implementation) (label : Name) : Implementation :=
  i.returning.foldl (fun j p => j.setTransfer p (.goto [i.blocks.length])) (i.addBlock label [])

/-- A body with one exit stays as it is. Several exits go on to a new block. -/
theorem unifyExits_cases {s : SingleExit} (h : i.unifyExits.outcome = .ok s) :
    (i.returning = [s.exit] ∧ s.body = i ∧ s.replaced = []) ∨
      1 < i.returning.length ∧ s.exit = i.blocks.length ∧
        s.replaced = i.returning.map (fun p => (p, .ret)) ∧ ∃ label, s.body = i.redirect label := by
  unfold unifyExits at h
  split at h
  case h_1 => cases h
  case h_2 exit hexit =>
    cases h
    exact .inl ⟨hexit, rfl, rfl⟩
  case h_3 hnone hsingle =>
    obtain ⟨⟨j, exit⟩, hj, h⟩ := Minting.bind_eq_ok.1 h
    cases h
    obtain ⟨rfl, rfl⟩ := addFreshBlock_eq_ok hj
    refine .inr ⟨?_, rfl, rfl, _, rfl⟩
    match hret : i.returning with
    | [] => exact absurd hret hnone
    | [exit] => exact absurd hret (hsingle exit)
    | _ :: _ :: _ => simp

section

variable (i : Implementation) (label : Name)

theorem redirect_spec : (∃ blocks, i.redirect label = { i with blocks }) ∧
    (i.redirect label).blocks.length = i.blocks.length + 1 ∧
    (i.Consistent → (i.redirect label).Consistent) ∧
    (∀ p, (i.redirect label).cmdsAt p = i.cmdsAt p) ∧
    ∀ p, (i.redirect label).successors p =
      if p ∈ i.returning then [i.blocks.length] else i.successors p := by
  have hlength := length_addBlock i label []
  have hreturning : ∀ p ∈ i.returning, p < (i.addBlock label []).blocks.length := fun p hp => by
    have := lt_length_of_mem_returning hp
    omega
  obtain ⟨hrest, hlength', hconsistent, hcmds, htransfer⟩ :=
    foldl_setTransfer_goto (i.addBlock label []) i.blocks.length hreturning (by omega)
  refine ⟨hrest, hlength'.trans hlength, fun hi => hconsistent (hi.addBlock label []),
    fun p => (hcmds p).trans (cmdsAt_addBlock_nil i label p), fun p => ?_⟩
  rw [redirect, successors_eq, htransfer, transferAt?_addBlock, successors_eq]
  split_ifs with hret hnew
  · rfl
  · rw [hnew, transferAt?_eq_none (Nat.le_refl _)]
    rfl
  · rfl

theorem extends_redirect : Extends i (i.redirect label) := by
  obtain ⟨hrest, hlength, hconsistent, hcmds, hsuccessors⟩ := i.redirect_spec label
  -- The new block leads nowhere.
  have hnew : (i.redirect label).successors i.blocks.length = [] := by
    have hold : i.blocks.length ∉ i.returning := fun hret =>
      Nat.lt_irrefl _ (lt_length_of_mem_returning hret)
    rw [hsuccessors, if_neg hold, successors_eq_nil (Nat.le_refl _)]
  refine ⟨hrest, by omega, hcmds, hconsistent, fun hi {a b cs} ha hb =>
    trail_iff_of_detour hi hcmds (by simp [hnew]) (fun p _ next edge => ?_)
      (fun p _ next edge => ?_) ha hb⟩
  · rw [hsuccessors] at edge
    split_ifs at edge
    · exact .inr ⟨List.mem_singleton.1 edge, by simp [hnew]⟩
    · exact .inl edge
  · -- An exit led nowhere before.
    rw [hsuccessors]
    split_ifs with hret
    · rw [(halts_of_mem_returning hret).2] at edge
      exact absurd edge List.not_mem_nil
    · exact .inl edge

/-- The trails to the new block are those to the exits, since the new block has no commands. -/
theorem trail_redirect_iff (hi : i.Consistent) (ha : a < i.blocks.length) :
    (i.redirect label).Trail a i.blocks.length cs ↔ ∃ p ∈ i.returning, i.Trail a p cs := by
  have hextends := i.extends_redirect label
  obtain ⟨-, -, -, hcmds, hsuccessors⟩ := i.redirect_spec label
  have halong : ∀ ids, (i.redirect label).cmdsAlong (ids ++ [i.blocks.length]) =
      (i.redirect label).cmdsAlong ids := by
    intro ids
    rw [cmdsAlong_append, cmdsAlong_singleton, hcmds, cmdsAt,
      List.getElem?_eq_none (Nat.le_refl _)]
    exact List.append_nil _
  constructor
  · rintro ⟨ids, hp, rfl⟩
    -- The block before the last one was an exit.
    rcases hp.eq_single_or_concat with ⟨-, heq⟩ | ⟨before, p, rfl, hbefore, edge⟩
    · exact absurd heq.symm (Nat.ne_of_lt ha)
    · rw [hsuccessors] at edge
      split_ifs at edge with hret
      · have hp := lt_length_of_mem_returning hret
        rw [halong]
        exact ⟨p, hret, (hextends.trail_iff hi ha hp).1 ⟨before, hbefore, rfl⟩⟩
      · exact absurd (hi.lt_length p _ edge) (Nat.lt_irrefl _)
  · rintro ⟨p, hret, htrail⟩
    obtain ⟨ids, hp, rfl⟩ := (hextends.trail_iff hi ha (lt_length_of_mem_returning hret)).2 htrail
    refine ⟨ids ++ [i.blocks.length], hp.concat ?_, halong ids⟩
    rw [hsuccessors, if_pos hret]
    exact List.mem_singleton_self _

theorem halts_redirect_iff : (i.redirect label).Halts p ↔
    p = i.blocks.length ∨ i.Halts p ∧ p ∉ i.returning := by
  obtain ⟨-, hlength, -, -, hsuccessors⟩ := i.redirect_spec label
  unfold Halts
  rw [hlength, hsuccessors]
  split_ifs with hret
  · refine iff_of_false (fun h => nomatch h.2) ?_
    rintro (heq | ⟨-, hnot⟩)
    · exact Nat.ne_of_lt (lt_length_of_mem_returning hret) heq
    · exact hnot hret
  · by_cases hp : p = i.blocks.length
    · subst hp
      simp [successors_eq_nil (Nat.le_refl i.blocks.length)]
    · simp only [hp, hret, not_false_eq_true, and_true, false_or, Nat.lt_succ_iff_lt_or_eq, or_false]

end

section

variable {s : SingleExit} (hs : i.unifyExits.outcome = .ok s)

include hs

theorem extends_unifyExits : Extends i s.body := by
  rcases unifyExits_cases hs with ⟨-, hbody, -⟩ | ⟨-, -, -, label, hbody⟩
  · exact hbody ▸ .refl i
  · exact hbody ▸ i.extends_redirect label

/-- The trails to the one exit are those to the exits that there were. -/
theorem trail_exit_iff (hi : i.Consistent) (ha : a < i.blocks.length) :
    s.body.Trail a s.exit cs ↔ ∃ p ∈ i.returning, i.Trail a p cs := by
  rcases unifyExits_cases hs with ⟨hexit, hbody, -⟩ | ⟨-, hexit, -, label, hbody⟩
  · simp [hbody, hexit]
  · rw [hbody, hexit, trail_redirect_iff i label hi ha]

/-- Control goes on nowhere from the one exit, and from the blocks where it went on nowhere without
leaving the body. -/
theorem halts_unifyExits_iff : s.body.Halts p ↔ p = s.exit ∨ i.Halts p ∧ p ∉ i.returning := by
  rcases unifyExits_cases hs with ⟨hexit, hbody, -⟩ | ⟨-, hexit, -, label, hbody⟩
  · have hhalts : i.Halts s.exit := halts_of_mem_returning (hexit ▸ List.mem_singleton_self _)
    rw [hbody, hexit, List.mem_singleton]
    by_cases hp : p = s.exit
    · exact iff_of_true (hp ▸ hhalts) (.inl hp)
    · simp [hp]
  · rw [hbody, hexit, halts_redirect_iff]

theorem mem_replaced_iff (p : Nat) (t : Transfer) :
    (p, t) ∈ s.replaced ↔ 1 < i.returning.length ∧ p ∈ i.returning ∧ t = .ret := by
  rcases unifyExits_cases hs with ⟨hexit, -, hnone⟩ | ⟨hseveral, -, hall, -⟩
  · simp [hexit, hnone]
  · rw [hall, List.mem_map]
    constructor
    · rintro ⟨p, hp, ⟨⟩⟩
      exact ⟨hseveral, hp, rfl⟩
    · rintro ⟨-, hp, rfl⟩
      exact ⟨p, hp, rfl⟩

end

/-! ## No critical edges -/

theorem exists_splitEdge (i : Implementation) (source target : Nat) :
    ∃ j, (i.splitEdge source target : Minting ε _).outcome = .ok j := ⟨_, rfl⟩

section

variable (hsource : source < i.blocks.length) (htarget : target < i.blocks.length)
  (hj : (i.splitEdge source target : Minting ε _).outcome = .ok j)

include hsource htarget hj

theorem Consistent.splitEdge (hi : i.Consistent) : j.Consistent := by
  obtain ⟨label, rfl⟩ := splitEdge_eq_ok hsource hj
  have hlength := length_addBlock i label []
  have hmiddle : ∀ next ∈ (Transfer.goto [target]).targets,
      next < (i.addBlock label []).blocks.length := fun next hnext => by
    rw [List.mem_singleton.1 hnext]
    omega
  refine ((hi.addBlock label []).setTransfer (by omega) hmiddle).setTransfer
    (by rw [length_setTransfer]; omega) fun next hnext => ?_
  obtain ⟨t, ht, rfl⟩ := List.mem_map.1 hnext
  have := hi.lt_length source t ht
  rw [length_setTransfer]
  split_ifs <;> omega

theorem extends_splitEdge : Extends i j := by
  have hlength := length_splitEdge hsource hj
  have hsuccessors : ∀ p, j.successors p = _ := fun p => successors_splitEdge (p := p) hsource hj
  have hmiddle : j.successors i.blocks.length = [target] := by
    rw [hsuccessors, if_neg (Nat.ne_of_gt hsource), if_pos rfl]
  obtain ⟨label, hform⟩ := splitEdge_eq_ok hsource hj
  have hcmds : ∀ p, j.cmdsAt p = i.cmdsAt p := fun p => by
    rw [hform, cmdsAt_setTransfer, cmdsAt_setTransfer, cmdsAt_addBlock_nil]
  have hrest : ∃ blocks, j = { i with blocks } := by
    obtain ⟨bs, hbs⟩ := exists_setTransfer (i.addBlock label []) i.blocks.length (.goto [target])
    obtain ⟨bs', hbs'⟩ := exists_setTransfer
      ((i.addBlock label []).setTransfer i.blocks.length (.goto [target])) source (.goto _)
    exact ⟨bs', by rw [hform, hbs', hbs]; rfl⟩
  -- A trail takes the new block exactly where it used to follow the edge that is split.
  refine ⟨hrest, by omega, hcmds, .splitEdge hsource htarget hj, fun hi {a b cs} ha hb =>
    trail_iff_of_detour hi hcmds (by simpa [hmiddle] using htarget) (fun p hp next edge => ?_)
      (fun p hp next edge => ?_) ha hb⟩
  · rw [hsuccessors] at edge
    split_ifs at edge with hps hpn
    · obtain ⟨t, ht, rfl⟩ := List.mem_map.1 edge
      split_ifs with heq
      · exact .inr ⟨rfl, by simpa [hmiddle, hps, ← heq] using ht⟩
      · exact .inl (hps ▸ ht)
    · exact absurd hpn (Nat.ne_of_lt hp)
    · exact .inl edge
  · rw [hsuccessors, hmiddle]
    split_ifs with hps hpn
    · by_cases heq : next = target
      · have hmem : i.blocks.length ∈ (i.successors source).map fun t =>
            if t = target then i.blocks.length else t :=
          List.mem_map.2 ⟨next, hps ▸ edge, if_pos heq⟩
        exact .inr ⟨hmem, List.mem_singleton.2 heq⟩
      · exact .inl (List.mem_map.2 ⟨next, hps ▸ edge, if_neg heq⟩)
    · exact absurd hpn (Nat.ne_of_lt hp)
    · exact .inl edge

omit htarget in
/-- Edges are split where control goes on. -/
theorem halts_splitEdge_iff : j.Halts p ↔ i.Halts p := by
  unfold Halts
  rw [length_splitEdge hsource hj, successors_splitEdge hsource hj]
  split_ifs with hps hpn
  · simp [hps, hsource, Nat.lt_succ_of_lt hsource]
  · simp [hpn]
  · simp only [Nat.lt_succ_iff_lt_or_eq, hpn, or_false]

end

/-- Splitting edges extends a body, and leaves alone where control goes on nowhere. -/
structure Interposes (i k : Implementation) : Prop extends Extends i k where
  /-- Control goes on nowhere from the same blocks. -/
  halts_iff : ∀ p, k.Halts p ↔ i.Halts p

theorem Interposes.refl (i : Implementation) : Interposes i i := ⟨.refl i, fun _ => Iff.rfl⟩

theorem Interposes.trans (h : Interposes i j) (h' : Interposes j k) : Interposes i k :=
  ⟨h.toExtends.trans h'.toExtends, fun p => (h'.halts_iff p).trans (h.halts_iff p)⟩

/-- The edges to a block are split, from wherever they come. -/
theorem exists_splitEdgesInto (htarget : target < i.blocks.length) :
    ∃ j, (i.splitEdgesInto target : Minting ε _).outcome = .ok j ∧ Interposes i j := by
  unfold splitEdgesInto
  generalize i.predecessorSet target = sources
  induction sources generalizing i with
  | nil => exact ⟨i, rfl, .refl i⟩
  | cons source sources ih =>
    rw [List.foldlM_cons, Minting.outcome_bind]
    refine exists_bind_eq_ok (P := fun j => Interposes i j) ?_ fun j hj => ?_
    · split_ifs with hgoes
      · exact ⟨i, rfl, .refl i⟩
      · have hsource := lt_length_of_not_length_lt hgoes
        obtain ⟨j, hj⟩ := exists_splitEdge (ε := ε) i source target
        exact ⟨j, hj, extends_splitEdge hsource htarget hj, fun p => halts_splitEdge_iff hsource hj⟩
    · obtain ⟨k, hk, hextends⟩ := ih (htarget.trans_le hj.length_le)
      exact ⟨k, hk, hj.trans hextends⟩

theorem exists_splitCriticalEdges (i : Implementation) :
    ∃ j, (i.splitCriticalEdges : Minting ε _).outcome = .ok j ∧ Interposes i j := by
  have htargets : ∀ id ∈ i.joins, id < i.blocks.length := fun id hid =>
    List.mem_range.1 (List.mem_filter.1 hid).1
  unfold splitCriticalEdges
  revert htargets
  generalize i.joins = targets
  intro htargets
  induction targets generalizing i with
  | nil => exact ⟨i, rfl, .refl i⟩
  | cons target targets ih =>
    obtain ⟨htarget, htargets⟩ := List.forall_mem_cons.1 htargets
    rw [List.foldlM_cons, Minting.outcome_bind]
    refine exists_bind_eq_ok (exists_splitEdgesInto htarget) fun j hj => ?_
    obtain ⟨k, hk, hextends⟩ := ih j fun id hid => (htargets id hid).trans_le hj.length_le
    exact ⟨k, hk, hj.trans hextends⟩

/-! ## Both changes -/

section

variable {e : SingleExit} (he : i.unifyExits.outcome = .ok e) (h : Interposes e.body k)
  (hi : i.Consistent) (ha : a < i.blocks.length)

include he h hi ha

/-- After both changes the trails to the one exit are those to the exits that there were. -/
theorem trail_exit_iff_of_interposes :
    k.Trail a e.exit cs ↔ ∃ p ∈ i.returning, i.Trail a p cs := by
  have hfirst := extends_unifyExits he
  have hexit : e.exit < e.body.blocks.length := ((halts_unifyExits_iff he).2 (.inl rfl)).1
  rw [h.trail_iff (hfirst.consistent hi) (ha.trans_le hfirst.length_le) hexit,
    trail_exit_iff he hi ha]

/-- After both changes the trails to where control goes on nowhere have the same commands. -/
theorem exists_halts_trail_iff :
    (∃ p, k.Halts p ∧ k.Trail a p cs) ↔ ∃ p, i.Halts p ∧ i.Trail a p cs := by
  have hextends := (extends_unifyExits he).trans h.toExtends
  have hhalts : ∀ p, k.Halts p ↔ p = e.exit ∨ i.Halts p ∧ p ∉ i.returning := fun p =>
    (h.halts_iff p).trans (halts_unifyExits_iff he)
  constructor
  · rintro ⟨p, hp, htrail⟩
    rcases (hhalts p).1 hp with rfl | ⟨hp, -⟩
    · obtain ⟨r, hret, htrail⟩ := (trail_exit_iff_of_interposes he h hi ha).1 htrail
      exact ⟨r, halts_of_mem_returning hret, htrail⟩
    · exact ⟨p, hp, (hextends.trail_iff hi ha hp.1).1 htrail⟩
  · rintro ⟨p, hp, htrail⟩
    by_cases hret : p ∈ i.returning
    · have htrail' := (trail_exit_iff_of_interposes he h hi ha).2 ⟨p, hret, htrail⟩
      exact ⟨e.exit, (hhalts _).2 (.inl rfl), htrail'⟩
    · exact ⟨p, (hhalts p).2 (.inr ⟨hp, hret⟩), (hextends.trail_iff hi ha hp.1).2 htrail⟩

end

/-- A well-formed body from which control leaves gets one exit, and then its critical edges are
split. Its executions stay the same. -/
theorem exists_normalizedTo (hcheck : i.check = .ok ()) (hreturns : i.returning ≠ []) :
    ∃ e k, i.unifyExits.outcome = .ok e ∧
      (e.body.splitCriticalEdges : Minting ε _).outcome = .ok k ∧ i.NormalizedTo e k := by
  obtain ⟨order, horder, -⟩ := exists_order hcheck
  have hi : i.Consistent := by
    obtain ⟨hdangling, hpreds, -, -⟩ := topologicalOrder_cases horder
    exact consistent_iff.2 ⟨hdangling, hpreds⟩
  obtain ⟨r, hr⟩ := List.exists_mem_of_ne_nil _ hreturns
  have hentry : i.entry < i.blocks.length :=
    entry_lt_length_of_mem_reachable (exit_mem_reachable horder hr)
  obtain ⟨e, he⟩ := exists_unifyExits hreturns
  obtain ⟨k, hk, hinterposes⟩ := exists_splitCriticalEdges (ε := ε) e.body
  -- Both stages keep the given blocks and their trails, and so does one after the other.
  have hextends := (extends_unifyExits he).trans hinterposes.toExtends
  have hexit : k.returning = [e.exit] :=
    (subdivides_splitCriticalEdges hk).returning_eq_singleton (unifyExits_eq_ok he).1
  refine ⟨e, k, he, hk, fun p b hb => ?_, fun p b hp hb => ?_, hextends.consistent hi,
    fun cs => ?_, fun cs => ?_, mem_replaced_iff he⟩
  · have hlabels := (addsLabels_unifyExits he).trans (addsLabels_splitCriticalEdges hk)
    exact hextends.exists_block hlabels hb
  · rw [hextends.cmds_eq hb, cmdsAt, List.getElem?_eq_none hp]
    rfl
  · rw [hexit, hextends.entry, ← trail_exit_iff_of_interposes he hinterposes hi hentry]
    simp
  · rw [hextends.entry, exists_halts_trail_iff he hinterposes hi hentry]

/-- A body with two exits, to one of which critical edges lead. -/
def leaping : Implementation where
  name := ⟨"P"⟩
  inputs := []
  outputs := []
  locals := []
  attributes := []
  blocks :=
    [⟨⟨"entry"⟩, [], [], .goto [1, 2, 3, 3]⟩, ⟨⟨"then"⟩, [.assume (.bool true)], [0], .goto [3]⟩,
      ⟨⟨"else"⟩, [], [0], .ret⟩, ⟨⟨"join"⟩, [], [0, 0, 1], .ret⟩]
  entry := 0

/-- The two exits are recorded, and the commands on the way to them are still met. -/
theorem exists_normalizedTo_leaping : ∃ e k, leaping.unifyExits.outcome = .ok e ∧
    (e.body.splitCriticalEdges : Minting GraphError _).outcome = .ok k ∧
    leaping.NormalizedTo e k ∧ (2, .ret) ∈ e.replaced ∧
    ∃ p ∈ k.returning, k.Trail k.entry p [.assume (.bool true)] := by
  have hcheck : leaping.check = .ok () := by cbv
  have hreturning : leaping.returning = [2, 3] := by cbv
  obtain ⟨e, k, he, hk, h⟩ := exists_normalizedTo (ε := GraphError) hcheck
    (hreturning ▸ List.cons_ne_nil _ _)
  refine ⟨e, k, he, hk, h, (h.replaced 2 .ret).2 ?_, (h.returning _).2 ⟨3, ?_, ?_⟩⟩
  · rw [hreturning]
    decide
  · rw [hreturning]
    decide
  · have hlast : leaping.Trail 3 3 [] := .single leaping 3
    have hmiddle : leaping.Trail 1 3 [.assume (.bool true)] := .cons (by decide) hlast
    exact .cons (by decide) hmiddle

end Obligations.Implementation
