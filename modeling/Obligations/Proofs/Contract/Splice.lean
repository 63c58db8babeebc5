import Mathlib.Data.List.Range
import Obligations.Contract.Threading
import Obligations.Proofs.Implementation.Trail
import Obligations.Proofs.Outcome
import Obligations.Proofs.Vocabulary.Preparation

/-!
# Conditions in a body

A clause of a contract contributes commands to a path through the body (`Condition.Course`): the
command for a formula, or the commands of a way through a block graph to a block that returns, then
the command for the value returned there. `threadCondition` copies the block graph behind a block at
which control leaves the body (`Spliced`). The trails from a copy to the continuation are then the
routes from the block that was copied (`Spliced.trail_iff_route`).
-/

namespace Obligations

open Implementation

variable {i j : Implementation} {s : Splice} {bs : List ContractBlock} {cs : List Cmd}
variable {insertion continuation first start n : Nat}

/-! ## Courses of a condition -/

/-- The commands on a way from a block of a condition to a block that returns, and the value that is
returned there. -/
inductive ContractBlock.Route (bs : List ContractBlock) : Nat → List Cmd → Expr → Prop
  /-- The block returns. -/
  | ret {n : Nat} {b : ContractBlock} {value : Expr} (block : bs[n]? = some b)
      (exit : b.exit = .ret value) : Route bs n b.cmds value
  /-- The block goes on to one of its targets. -/
  | goto {n next : Nat} {b : ContractBlock} {targets : List Nat} {cs : List Cmd} {value : Expr}
      (block : bs[n]? = some b) (exit : b.exit = .goto targets) (target : next ∈ targets)
      (rest : Route bs next cs value) : Route bs n (b.cmds ++ cs) value

/-- The commands that a clause contributes to a path. -/
inductive Condition.Course (s : Splice) : Condition → List Cmd → Prop
  /-- A formula contributes one command. -/
  | formula (e : Expr) : Course s (.formula e) [s.cmd e]
  /-- A block graph contributes a route from its first block, and a command for the value. -/
  | blocks {bs : List ContractBlock} {cs : List Cmd} {value : Expr}
      (route : ContractBlock.Route bs 0 cs value) : Course s (.blocks bs) (cs ++ [s.cmd value])

/-- The commands that several clauses contribute to a path, in turn. -/
inductive Courses : List (Splice × Condition) → List Cmd → Prop
  /-- No clauses contribute nothing. -/
  | nil : Courses [] []
  /-- The first clause comes first. -/
  | cons {s : Splice} {c : Condition} {rest : List (Splice × Condition)} {cs cs' : List Cmd}
      (course : c.Course s cs) (courses : Courses rest cs') : Courses ((s, c) :: rest) (cs ++ cs')

theorem courses_singleton {c : Condition} : Courses [(s, c)] cs ↔ c.Course s cs := by
  constructor
  · rintro (_ | ⟨course, ⟨⟩⟩)
    rwa [List.append_nil]
  · intro course
    have h := Courses.cons course .nil
    rwa [List.append_nil] at h

theorem courses_append {clauses clauses' : List (Splice × Condition)} :
    Courses (clauses ++ clauses') cs ↔
      ∃ before after, cs = before ++ after ∧ Courses clauses before ∧ Courses clauses' after := by
  constructor
  · intro h
    induction clauses generalizing cs with
    | nil => exact ⟨[], cs, rfl, .nil, h⟩
    | cons clause clauses ih =>
      rw [List.cons_append] at h
      cases h with
      | cons course courses =>
        obtain ⟨before, after, rfl, hbefore, hafter⟩ := ih courses
        exact ⟨_, after, (List.append_assoc ..).symm, .cons course hbefore, hafter⟩
  · rintro ⟨before, after, rfl, hbefore, hafter⟩
    induction hbefore with
    | nil => exact hafter
    | cons course _ ih =>
      rw [List.append_assoc]
      exact .cons course ih

/-! ## Copies of blocks -/

/-- How control leaves the copy of a block, where `first` is the copy of the first block. -/
def ContractExit.copied (first continuation : Nat) : ContractExit → Transfer
  | goto targets => .goto (targets.map (first + ·))
  | ret _ => .goto [continuation]

/-- The commands of the copy of a block: its own and the command for the value that it returns. -/
def ContractBlock.copiedCmds (s : Splice) (b : ContractBlock) : List Cmd :=
  match b.exit with
  | .goto _ => b.cmds
  | .ret value => b.cmds ++ [s.cmd value]

/-- A body to which blocks of a condition are added, without their exits. -/
structure Added (bs : List ContractBlock) (i j : Implementation) : Prop
    extends Keeps (· < i.blocks.length) i j where
  /-- There are as many new blocks as the condition has. -/
  length : j.blocks.length = i.blocks.length + bs.length
  /-- They have the commands of the condition. -/
  cmdsAt : ∀ n b, bs[n]? = some b → j.cmdsAt (i.blocks.length + n) = b.cmds

/-- A body in which the copies of blocks of a condition, from `start` on, have their exits. -/
structure Exited (first continuation : Nat) (s : Splice) (start : Nat) (bs : List ContractBlock)
    (i j : Implementation) : Prop extends Keeps (· < start) i j where
  /-- There are no new blocks. -/
  length : j.blocks.length = i.blocks.length
  /-- The copies are left as the blocks are. -/
  transferAt? : ∀ n b, bs[n]? = some b →
    j.transferAt? (start + n) = some (b.exit.copied first continuation)
  /-- The commands for the values are there. -/
  cmdsAt : ∀ n b, bs[n]? = some b → j.cmdsAt (start + n) = b.copiedCmds s

/-- A body with a condition behind the block `insertion`, where control left it before. -/
structure Spliced (insertion continuation : Nat) (s : Splice) (bs : List ContractBlock)
    (i j : Implementation) : Prop
    extends Keeps (fun p => p < i.blocks.length ∧ p ≠ insertion ∧ p ≠ continuation) i j where
  /-- There are as many new blocks as the condition has. -/
  length : j.blocks.length = i.blocks.length + bs.length
  /-- Control goes on from the insertion point to the first copy. -/
  transferAt?_insertion : j.transferAt? insertion = some (.goto [i.blocks.length])
  /-- Control leaves the body at the continuation. -/
  transferAt?_continuation : j.transferAt? continuation = some .ret
  /-- The commands of the insertion point stay. -/
  cmdsAt_insertion : j.cmdsAt insertion = i.cmdsAt insertion
  /-- The commands of the continuation stay. -/
  cmdsAt_continuation : j.cmdsAt continuation = i.cmdsAt continuation
  /-- The copies are left as the blocks are. -/
  transferAt? : ∀ n b, bs[n]? = some b →
    j.transferAt? (i.blocks.length + n) = some (b.exit.copied i.blocks.length continuation)
  /-- The copies have the commands of the condition and those for the values. -/
  cmdsAt : ∀ n b, bs[n]? = some b → j.cmdsAt (i.blocks.length + n) = b.copiedCmds s

theorem addConditionBlocks_eq_ok : ∀ {bs : List ContractBlock} {i j : Implementation}
    {ids : List Nat}, (addConditionBlocks i bs).outcome = .ok (j, ids) →
    Added bs i j ∧ ids = List.range' i.blocks.length bs.length
  | [], i, _, _, h => by
    cases h
    exact ⟨⟨Keeps.refl _ i, rfl, fun _ _ hb => by cases hb⟩, rfl⟩
  | b :: bs, i, j, _, h => by
    obtain ⟨⟨k, id⟩, hk, h⟩ := Minting.bind_eq_ok.1 h
    obtain ⟨⟨l, ids⟩, hl, h⟩ := Minting.bind_eq_ok.1 h
    cases h
    obtain ⟨rfl, rfl⟩ := addFreshBlock_eq_ok hk
    obtain ⟨hadded, rfl⟩ := addConditionBlocks_eq_ok hl
    -- The later blocks are added behind the first, so their positions count from the next one.
    have hlength := hadded.length
    have hcmds := hadded.cmdsAt
    rw [length_addBlock] at hlength hcmds
    refine ⟨⟨?_, ?_, ?_⟩, by rw [length_addBlock, List.length_cons, List.range'_succ]⟩
    · refine ((keeps_addBlock i _ b.cmds).mono fun p hp => Nat.ne_of_lt hp).trans hadded.toKeeps ?_
      intro p hp
      rw [length_addBlock]
      exact Nat.lt_succ_of_lt hp
    · rw [hlength, List.length_cons]
      omega
    · rintro (_ | n) b' hb'
      · cases hb'
        have hold := hadded.sameAt i.blocks.length (by rw [length_addBlock]; omega)
        rw [Nat.add_zero, hold.cmdsAt, cmdsAt_addBlock, if_pos rfl]
      · rw [← hcmds n b' hb', Nat.add_right_comm, Nat.add_assoc]

/-- The targets of a block of a condition are the copies of the blocks that it goes on to. -/
theorem targets_eq_ok {count : Nat} {label : Name} {targets targets' : List Nat}
    (h : (targets.mapM fun t => ((List.range' first count)[t]?).elim
      (.error (.inconsistent (.missingTarget label t))) .ok : Except ConditionError _) =
        .ok targets') :
    targets' = targets.map (first + ·) ∧ ∀ t ∈ targets, t < count := by
  -- The copies have consecutive numbers, so the copy of a block is found by its place among them.
  have hcopy : ∀ t t', ((List.range' first count)[t]?).elim
      (.error (.inconsistent (.missingTarget label t))) (.ok : Nat → Except ConditionError _) =
        .ok t' → t' = first + t ∧ t < count := by
    intro t t' ht
    by_cases hlt : t < count
    · rw [List.getElem?_range' hlt] at ht
      cases ht
      exact ⟨by rw [Nat.one_mul], hlt⟩
    · rw [List.getElem?_eq_none (by rw [List.length_range']; omega)] at ht
      cases ht
  have hall := mapM_eq_ok_iff.1 h
  constructor
  · have hmap := map_eq_of_forall₂ (f := (first + ·)) (g := id) hall
      fun t t' ht => (hcopy t t' ht).1.symm
    rw [hmap, List.map_id]
  · intro t ht
    obtain ⟨t', -, ht'⟩ := exists_mem_of_forall₂ hall ht
    exact (hcopy t t' ht').2

/-- The exit of one more block, before those of the rest. -/
theorem Exited.cons {b : ContractBlock} {k : Implementation} (hkeeps : Keeps (· ≠ start) i k)
    (hlength : k.blocks.length = i.blocks.length)
    (htransfer : k.transferAt? start = some (b.exit.copied first continuation))
    (hcmds : k.cmdsAt start = b.copiedCmds s)
    (h : Exited first continuation s (start + 1) bs k j) :
    Exited first continuation s start (b :: bs) i j := by
  have hat := h.sameAt start (Nat.lt_succ_self start)
  refine ⟨?_, h.length.trans hlength, ?_, ?_⟩
  · exact (hkeeps.mono fun p hp => Nat.ne_of_lt hp).trans h.toKeeps fun p hp => Nat.lt_succ_of_lt hp
  · rintro (_ | n) b' hb'
    · cases hb'
      exact hat.transferAt?.trans htransfer
    · rw [← h.transferAt? n b' hb', Nat.add_right_comm, Nat.add_assoc]
  · rintro (_ | n) b' hb'
    · cases hb'
      exact hat.cmdsAt.trans hcmds
    · rw [← h.cmdsAt n b' hb', Nat.add_right_comm, Nat.add_assoc]

theorem setConditionExits_eq_ok {count : Nat} : ∀ {bs : List ContractBlock} {start : Nat}
    {i j : Implementation}, start + bs.length ≤ i.blocks.length →
    first + count ≤ i.blocks.length → continuation < i.blocks.length →
    (∀ n b, bs[n]? = some b → i.cmdsAt (start + n) = b.cmds) →
    setConditionExits (List.range' first count) continuation s i (bs.zipIdx start) = .ok j →
    Exited first continuation s start bs i j
  | [], _, i, _, _, _, _, _, h => by
    cases h
    exact ⟨Keeps.refl _ i, rfl, fun _ _ hb => (by cases hb), fun _ _ hb => (by cases hb)⟩
  | b :: bs, start, i, j, hend, hcount, hcontinuation, hcmds, h => by
    have hstart : start < i.blocks.length := by
      rw [List.length_cons] at hend
      omega
    have hfirst : i.cmdsAt start = b.cmds := hcmds 0 b rfl
    -- What the exit of the block changes, the exits of the rest do not see.
    have hrest : ∀ {k : Implementation}, Keeps (· ≠ start) i k →
        k.blocks.length = i.blocks.length →
        setConditionExits (List.range' first count) continuation s k (bs.zipIdx (start + 1)) =
          .ok j → Exited first continuation s (start + 1) bs k j := by
      intro k hkeeps hlength h
      rw [List.length_cons] at hend
      refine setConditionExits_eq_ok (by omega) (by omega) (by omega) (fun n b' hb' => ?_) h
      rw [(hkeeps.sameAt (start + 1 + n) (by omega)).cmdsAt, ← hcmds (n + 1) b' hb',
        Nat.add_right_comm, Nat.add_assoc]
    rw [List.zipIdx_cons, setConditionExits] at h
    cases hexit : b.exit with
    | goto targets =>
      simp only [hexit] at h
      obtain ⟨targets', htargets, h⟩ := bind_eq_ok.1 h
      obtain ⟨rfl, hlt⟩ := targets_eq_ok htargets
      have hkeeps : Keeps (· ≠ start) i (i.setTransfer start (.goto (targets.map (first + ·)))) := by
        refine keeps_setTransfer hstart fun next hnext => ?_
        obtain ⟨t, ht, rfl⟩ := List.mem_map.1 hnext
        have htcount := hlt t ht
        omega
      refine .cons hkeeps (length_setTransfer ..) ?_ ?_ (hrest hkeeps (length_setTransfer ..) h)
      · rw [transferAt?_setTransfer hstart, if_pos rfl, hexit]
        rfl
      · rw [cmdsAt_setTransfer, hfirst]
        simp only [ContractBlock.copiedCmds, hexit]
    | ret value =>
      simp only [hexit] at h
      have hstart' : start < (i.pushCmd start (s.cmd value)).blocks.length := by
        rwa [length_pushCmd]
      have hkeeps : Keeps (· ≠ start) i
          ((i.pushCmd start (s.cmd value)).setTransfer start (.goto [continuation])) := by
        refine (keeps_pushCmd i start _).trans (keeps_setTransfer hstart' ?_) fun _ hp => hp
        intro next hnext
        rwa [List.mem_singleton.1 hnext, length_pushCmd]
      have hlength := (length_setTransfer (i.pushCmd start (s.cmd value)) start
        (.goto [continuation])).trans (length_pushCmd ..)
      refine .cons hkeeps hlength ?_ ?_ (hrest hkeeps hlength h)
      · rw [transferAt?_setTransfer hstart', if_pos rfl, hexit]
        rfl
      · rw [cmdsAt_setTransfer, cmdsAt_pushCmd, if_pos ⟨rfl, hstart⟩, hfirst]
        simp only [ContractBlock.copiedCmds, hexit]

/-- A condition is copied behind a block at which control leaves the body. -/
theorem threadCondition_eq_ok (hinsertion : insertion < i.blocks.length)
    (hcontinuation : continuation < i.blocks.length) (hne : insertion ≠ continuation)
    (hret : i.transferAt? insertion = some .ret)
    (h : (threadCondition i insertion continuation bs s).outcome = .ok j) :
    Spliced insertion continuation s bs i j := by
  unfold threadCondition at h
  obtain ⟨⟨k, ids⟩, hk, h⟩ := Minting.bind_eq_ok.1 h
  obtain ⟨hadded, rfl⟩ := addConditionBlocks_eq_ok hk
  have hlength := hadded.length
  cases bs with
  | nil => cases h
  | cons b bs =>
    rw [List.length_cons, List.range'_succ] at h
    obtain ⟨l, hl, h⟩ := Minting.bind_eq_ok.1 h
    cases h
    have hl : setConditionExits (List.range' i.blocks.length (b :: bs).length) continuation s k
        ((b :: bs).zipIdx i.blocks.length) = .ok l := by
      rw [List.zipIdx_eq_zip_range', List.length_cons, List.range'_succ]
      exact hl
    have hexited := setConditionExits_eq_ok (by omega) (by omega) (by omega) hadded.cmdsAt hl
    have hlength' : l.blocks.length = i.blocks.length + (b :: bs).length :=
      hexited.length.trans hlength
    have hold : Keeps (· < i.blocks.length) i l :=
      hadded.toKeeps.trans hexited.toKeeps fun _ hp => hp
    -- Control left the body at the insertion point, and so it does at the continuation.
    have honward : ((l.blocks[insertion]?).map (·.transfer)).getD .ret = .ret := by
      have hat := (hold.sameAt insertion hinsertion).transferAt?.trans hret
      exact congrArg (Option.getD · Transfer.ret) hat
    rw [honward]
    have hcontinuation' : continuation < l.blocks.length := by omega
    have hinsertion' : insertion < (l.setTransfer continuation .ret).blocks.length := by
      rw [length_setTransfer]
      omega
    have hmoved : Keeps (· ≠ continuation) l (l.setTransfer continuation .ret) :=
      keeps_setTransfer hcontinuation' fun _ hnext => by cases hnext
    have hentered := keeps_setTransfer hinsertion' (t := .goto [i.blocks.length]) fun next hnext => by
      rw [List.mem_singleton.1 hnext, length_setTransfer, hlength', List.length_cons]
      omega
    have hlast : Keeps (fun p => p ≠ insertion ∧ p ≠ continuation) l _ :=
      (hmoved.mono fun _ hp => hp.2).trans hentered fun _ hp => hp.1
    have hcopy : ∀ n, i.blocks.length + n ≠ insertion ∧ i.blocks.length + n ≠ continuation := by
      intro n
      omega
    refine ⟨hold.mono (fun p hp => hp.1) |>.trans hlast fun p hp => hp.2, ?_, ?_, ?_, ?_, ?_, ?_, ?_⟩
    · rw [length_setTransfer, length_setTransfer, hlength']
    · rw [transferAt?_setTransfer hinsertion', if_pos rfl]
    · rw [(hentered.sameAt continuation hne.symm).transferAt?, transferAt?_setTransfer hcontinuation',
        if_pos rfl]
    · rw [cmdsAt_setTransfer, cmdsAt_setTransfer, (hold.sameAt insertion hinsertion).cmdsAt]
    · rw [cmdsAt_setTransfer, cmdsAt_setTransfer, (hold.sameAt continuation hcontinuation).cmdsAt]
    · intro n b' hb'
      rw [(hlast.sameAt _ (hcopy n)).transferAt?, hexited.transferAt? n b' hb']
    · intro n b' hb'
      rw [(hlast.sameAt _ (hcopy n)).cmdsAt, hexited.cmdsAt n b' hb']

/-! ## Trails through a condition -/

namespace Spliced

variable (h : Spliced insertion continuation s bs i j)

include h

/-- Where control goes on from a copy, there is a block that was copied. -/
theorem exists_block_of_edge {next : Nat} (edge : next ∈ j.successors (i.blocks.length + n)) :
    ∃ b, bs[n]? = some b := by
  have hlt := lt_length_of_edge edge
  rw [h.length] at hlt
  exact ⟨_, List.getElem?_eq_getElem (by omega)⟩

section

variable {b : ContractBlock} {targets : List Nat} {value : Expr}

theorem successors_of_goto (hb : bs[n]? = some b) (hexit : b.exit = .goto targets) :
    j.successors (i.blocks.length + n) = targets.map (i.blocks.length + ·) := by
  rw [successors_of_transferAt? (h.transferAt? n b hb), hexit]
  rfl

theorem successors_of_ret (hb : bs[n]? = some b) (hexit : b.exit = .ret value) :
    j.successors (i.blocks.length + n) = [continuation] := by
  rw [successors_of_transferAt? (h.transferAt? n b hb), hexit]
  rfl

theorem cmdsAt_of_goto (hb : bs[n]? = some b) (hexit : b.exit = .goto targets) :
    j.cmdsAt (i.blocks.length + n) = b.cmds := by
  rw [h.cmdsAt n b hb, ContractBlock.copiedCmds, hexit]

theorem cmdsAt_of_ret (hb : bs[n]? = some b) (hexit : b.exit = .ret value) :
    j.cmdsAt (i.blocks.length + n) = b.cmds ++ [s.cmd value] := by
  rw [h.cmdsAt n b hb, ContractBlock.copiedCmds, hexit]

end

/-- The trails from a copy to the continuation are the routes from the block, each with the command
for the value at its end. -/
theorem trail_iff_route (hcontinuation : continuation < i.blocks.length)
    (hempty : i.cmdsAt continuation = []) : j.Trail (i.blocks.length + n) continuation cs ↔
      ∃ cs' value, cs = cs' ++ [s.cmd value] ∧ ContractBlock.Route bs n cs' value := by
  have hend := successors_of_transferAt? h.transferAt?_continuation
  have hnone : j.cmdsAt continuation = [] := h.cmdsAt_continuation.trans hempty
  constructor
  · rintro ⟨ids, hp, rfl⟩
    generalize hstart : i.blocks.length + n = start at hp
    induction hp generalizing n with
    | single => omega
    | @cons _ next last ids edge rest ih =>
      subst hstart
      rw [cmdsAlong_cons]
      obtain ⟨b, hb⟩ := h.exists_block_of_edge edge
      cases hexit : b.exit with
      | goto targets =>
        rw [h.successors_of_goto hb hexit] at edge
        obtain ⟨t, ht, rfl⟩ := List.mem_map.1 edge
        obtain ⟨cs', value, hcs, hroute⟩ := ih h hcontinuation hempty hend hnone rfl
        refine ⟨b.cmds ++ cs', value, ?_, .goto hb hexit ht hroute⟩
        rw [h.cmdsAt_of_goto hb hexit, hcs, List.append_assoc]
      | ret value =>
        rw [h.successors_of_ret hb hexit] at edge
        obtain rfl := List.mem_singleton.1 edge
        -- The continuation has no commands, and control leaves the body there.
        obtain ⟨-, hids⟩ := (trail_iff_of_successors_eq_nil hend).1 ⟨ids, rest, rfl⟩
        refine ⟨b.cmds, value, ?_, .ret hb hexit⟩
        rw [h.cmdsAt_of_ret hb hexit, hids, hnone, List.append_nil]
  · rintro ⟨cs', value, rfl, hroute⟩
    induction hroute with
    | @ret n b value hb hexit =>
      have hlast := Trail.single j continuation
      rw [hnone] at hlast
      rw [← h.cmdsAt_of_ret hb hexit, ← List.append_nil (j.cmdsAt _)]
      refine .cons ?_ hlast
      rw [h.successors_of_ret hb hexit]
      exact List.mem_singleton_self continuation
    | @goto n next b targets cs' value hb hexit ht _ ih =>
      rw [List.append_assoc, ← h.cmdsAt_of_goto hb hexit]
      refine .cons ?_ ih
      rw [h.successors_of_goto hb hexit]
      exact List.mem_map_of_mem ht

end Spliced

end Obligations
