import Obligations.Proofs.Implementation.Consistency

/-!
# The commands along the paths of a body

A trail is the sequence of the commands along a path. Where a body is changed outside a region that
control does not leave, the trails within the region stay (`trail_congr`). Where the region has one
exit, and control goes on from there in the changed body, a trail that leaves the region is a trail
to the exit and a trail from the next block on (`trail_through`). Commands that are added to a block
without successors come at the end of the trails to it (`trail_append`).
-/

namespace Obligations.Implementation

variable {i k : Implementation} {a b x y : Nat} {S : Nat → Prop} {cs : List Cmd}

/-- The commands along some path from a block to another. -/
def Trail (i : Implementation) (a b : Nat) (cs : List Cmd) : Prop :=
  ∃ ids, i.Path a ids b ∧ i.cmdsAlong ids = cs

/-- Two bodies have the same commands in a block and leave it in the same way. -/
structure SameAt (i k : Implementation) (p : Nat) : Prop where
  /-- The commands are the same. -/
  cmdsAt : k.cmdsAt p = i.cmdsAt p
  /-- Control leaves the block in the same way. -/
  transferAt? : k.transferAt? p = i.transferAt? p

/-- A body is changed in its blocks only, not in those of a region, and it stays consistent. -/
structure Keeps (S : Nat → Prop) (i k : Implementation) : Prop where
  /-- Nothing but the blocks is changed. -/
  rest : ∃ blocks, k = { i with blocks }
  /-- A consistent body stays consistent. -/
  consistent : i.Consistent → k.Consistent
  /-- The blocks of the region stay the same. -/
  sameAt : ∀ p, S p → SameAt i k p

/-- Control does not leave a region. -/
def Closed (i : Implementation) (S : Nat → Prop) : Prop :=
  ∀ p, S p → ∀ next ∈ i.successors p, S next

/-! ## Blocks that stay the same -/

theorem SameAt.trans {j : Implementation} {p : Nat} (h : SameAt i j p) (h' : SameAt j k p) :
    SameAt i k p :=
  ⟨h'.cmdsAt.trans h.cmdsAt, h'.transferAt?.trans h.transferAt?⟩

theorem SameAt.successors {p : Nat} (h : SameAt i k p) : k.successors p = i.successors p := by
  rw [successors_eq, successors_eq, h.transferAt?]

theorem Keeps.refl (S : Nat → Prop) (i : Implementation) : Keeps S i i :=
  ⟨⟨i.blocks, rfl⟩, id, fun _ _ => ⟨rfl, rfl⟩⟩

/-- Changes one after another keep the blocks that each of them keeps. -/
theorem Keeps.trans {j : Implementation} {T : Nat → Prop} (h : Keeps S i j) (h' : Keeps T j k)
    (hST : ∀ p, S p → T p) : Keeps S i k where
  rest := by
    obtain ⟨bs, rfl⟩ := h.rest
    obtain ⟨bs', rfl⟩ := h'.rest
    exact ⟨bs', rfl⟩
  consistent hi := h'.consistent (h.consistent hi)
  sameAt p hp := (h.sameAt p hp).trans (h'.sameAt p (hST p hp))

theorem Keeps.mono {T : Nat → Prop} (h : Keeps S i k) (hTS : ∀ p, T p → S p) : Keeps T i k :=
  ⟨h.rest, h.consistent, fun p hp => h.sameAt p (hTS p hp)⟩

theorem keeps_addBlock (i : Implementation) (label : Name) (cmds : List Cmd) :
    Keeps (· ≠ i.blocks.length) i (i.addBlock label cmds) where
  rest := ⟨_, rfl⟩
  consistent hi := hi.addBlock label cmds
  sameAt _ hp := ⟨by rw [cmdsAt_addBlock, if_neg hp], by rw [transferAt?_addBlock, if_neg hp]⟩

theorem keeps_pushCmd (i : Implementation) (x : Nat) (c : Cmd) :
    Keeps (· ≠ x) i (i.pushCmd x c) where
  rest := ⟨_, rfl⟩
  consistent hi := hi.pushCmd x c
  sameAt p hp := ⟨by rw [cmdsAt_pushCmd, if_neg fun h => hp h.1], transferAt?_pushCmd i x c p⟩

theorem keeps_setTransfer (hx : x < i.blocks.length) {t : Transfer}
    (ht : ∀ next ∈ t.targets, next < i.blocks.length) : Keeps (· ≠ x) i (i.setTransfer x t) where
  rest := exists_setTransfer i x t
  consistent hi := hi.setTransfer hx ht
  sameAt p hp := ⟨cmdsAt_setTransfer i x t p, by rw [transferAt?_setTransfer hx, if_neg hp]⟩

/-! ## Trails -/

theorem Trail.single (i : Implementation) (a : Nat) : i.Trail a a (i.cmdsAt a) :=
  ⟨[a], .single a, cmdsAlong_singleton a⟩

theorem Trail.cons {next : Nat} (edge : next ∈ i.successors a) (h : i.Trail next b cs) :
    i.Trail a b (i.cmdsAt a ++ cs) := by
  obtain ⟨ids, hp, rfl⟩ := h
  exact ⟨a :: ids, .cons edge hp, cmdsAlong_cons a ids⟩

/-- A trail from a block without successors ends there. -/
theorem trail_iff_of_successors_eq_nil (ha : i.successors a = []) :
    i.Trail a b cs ↔ b = a ∧ cs = i.cmdsAt a := by
  constructor
  · rintro ⟨ids, hp, rfl⟩
    cases hp with
    | single => exact ⟨rfl, cmdsAlong_singleton a⟩
    | cons edge _ =>
      rw [ha] at edge
      exact absurd edge List.not_mem_nil
  · rintro ⟨rfl, rfl⟩
    exact .single i b

/-- What is the same in a region that control does not leave has the same trails there. -/
theorem trail_congr (hclosed : i.Closed S) (hsame : ∀ p, S p → SameAt i k p) (ha : S a) :
    k.Trail a b cs ↔ i.Trail a b cs := by
  constructor
  · rintro ⟨ids, hp, rfl⟩
    -- The path is followed from its first block, since the region is closed under steps forward.
    induction hp with
    | single a =>
      rw [cmdsAlong_singleton, (hsame a ha).cmdsAt]
      exact .single i a
    | @cons a next _ ids edge _ ih =>
      rw [(hsame a ha).successors] at edge
      rw [cmdsAlong_cons, (hsame a ha).cmdsAt]
      exact .cons edge (ih (hclosed a ha next edge))
  · rintro ⟨ids, hp, rfl⟩
    induction hp with
    | single a =>
      rw [cmdsAlong_singleton, ← (hsame a ha).cmdsAt]
      exact .single k a
    | @cons a next _ ids edge _ ih =>
      have hrest := ih (hclosed a ha next edge)
      rw [← (hsame a ha).successors] at edge
      rw [cmdsAlong_cons, ← (hsame a ha).cmdsAt]
      exact .cons edge hrest

/-- A trail that leaves a region with one exit goes to the exit first and on from the block after
it. -/
theorem trail_through (hclosed : i.Closed S) (hsame : ∀ p, S p → p ≠ x → SameAt i k p)
    (hcmds : k.cmdsAt x = i.cmdsAt x) (hexit : i.successors x = []) (hnext : k.successors x = [y])
    (ha : S a) (hb : ¬ S b) :
    k.Trail a b cs ↔
      ∃ before after, cs = before ++ after ∧ i.Trail a x before ∧ k.Trail y b after := by
  constructor
  · rintro ⟨ids, hp, rfl⟩
    induction hp with
    | single a => exact absurd ha hb
    | @cons a next last ids edge rest ih =>
      rw [cmdsAlong_cons]
      by_cases hax : a = x
      · -- The path is at the exit.
        subst hax
        rw [hnext, List.mem_singleton] at edge
        subst edge
        exact ⟨_, _, rfl, hcmds ▸ .single i a, ids, rest, rfl⟩
      · have hat := hsame a ha hax
        rw [hat.successors] at edge
        obtain ⟨before, after, heq, hbefore, hafter⟩ := ih (hclosed a ha next edge) hb
        refine ⟨i.cmdsAt a ++ before, after, ?_, .cons edge hbefore, hafter⟩
        rw [hat.cmdsAt, heq, List.append_assoc]
  · rintro ⟨before, after, rfl, ⟨ids, hp, rfl⟩, hafter⟩
    induction hp with
    | single x =>
      rw [cmdsAlong_singleton, ← hcmds]
      exact .cons (hnext ▸ List.mem_singleton_self y) hafter
    | @cons a next x ids edge _ ih =>
      -- A block from which control goes on is not the exit.
      have hax : a ≠ x := by
        rintro rfl
        rw [hexit] at edge
        exact List.not_mem_nil edge
      have hat := hsame a ha hax
      have hrest := ih hsame hcmds hexit hnext (hclosed a ha next edge)
      rw [← hat.successors] at edge
      rw [cmdsAlong_cons, List.append_assoc, ← hat.cmdsAt]
      exact .cons edge hrest

/-- Commands added to a block without successors come at the end of the trails to it. -/
theorem trail_append {added : List Cmd} (hsame : ∀ p, p ≠ x → SameAt i k p)
    (hcmds : k.cmdsAt x = i.cmdsAt x ++ added) (hexit : i.successors x = [])
    (hexit' : k.successors x = []) :
    k.Trail a x cs ↔ ∃ before, cs = before ++ added ∧ i.Trail a x before := by
  constructor
  · rintro ⟨ids, hp, rfl⟩
    -- A block with a successor is not the changed one, so only the last block of a path can be
    -- that.
    induction hp with
    | single x => exact ⟨i.cmdsAt x, (cmdsAlong_singleton x).trans hcmds, .single i x⟩
    | @cons a next x ids edge _ ih =>
      have hat := hsame a fun h => by
        rw [h, hexit'] at edge
        exact List.not_mem_nil edge
      obtain ⟨before, heq, hbefore⟩ := ih hsame hcmds hexit hexit'
      rw [hat.successors] at edge
      refine ⟨i.cmdsAt a ++ before, ?_, .cons edge hbefore⟩
      rw [cmdsAlong_cons, hat.cmdsAt, heq, List.append_assoc]
  · rintro ⟨before, rfl, ids, hp, rfl⟩
    induction hp with
    | single x =>
      rw [cmdsAlong_singleton, ← hcmds]
      exact .single k x
    | @cons a next x ids edge _ ih =>
      have hat := hsame a fun h => by
        rw [h, hexit] at edge
        exact List.not_mem_nil edge
      have hrest := ih hsame hcmds hexit hexit'
      rw [← hat.successors] at edge
      rw [cmdsAlong_cons, List.append_assoc, ← hat.cmdsAt]
      exact .cons edge hrest

end Obligations.Implementation
