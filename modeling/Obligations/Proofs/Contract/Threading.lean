import Mathlib
import Obligations.Proofs.Contract.Splice

/-!
# Contracts around a body

A body grows at a block at which control leaves it (`Growth.Open`). What one clause adds keeps the
other blocks, leaves the body at one place again, and puts the commands of the clause at the end of
the trails to that place (`Growth.addClause_eq_ok`); so do several clauses in turn
(`Growth.addClauses_eq_ok`). With the postconditions at its exit (`assertPostconditions_eq_ok`) and
the preconditions at a new entry (`assumePreconditions_eq_ok`), the trails through a body with its
contract are the trails through the body between the courses of the preconditions and those of the
postconditions.
-/

namespace Obligations

open Implementation

variable {s : Splice} {cs : List Cmd}

namespace Growth

variable {g g' g₁ : Growth} {clauses clauses' : List (Splice × Condition)}

/-- A consistent body that grows where control leaves it. -/
structure Open (g : Growth) : Prop where
  /-- The body is consistent. -/
  consistent : g.body.Consistent
  /-- Control leaves the body where it grows. -/
  exit : g.body.transferAt? g.insertion = some .ret

/-- What becomes of a body that takes up some clauses. -/
structure Takes (g : Growth) (clauses : List (Splice × Condition)) (g' : Growth) : Prop
    extends Keeps (fun p => p < g.body.blocks.length ∧ p ≠ g.insertion) g.body g'.body where
  /-- The body can grow on. -/
  isOpen : g'.Open
  /-- No block is lost. -/
  length_le : g.body.blocks.length ≤ g'.body.blocks.length
  /-- It grows on at the same block or at a new one. -/
  insertion : g'.insertion = g.insertion ∨ g.body.blocks.length ≤ g'.insertion
  /-- From the insertion point and the new blocks control goes on to new blocks only. -/
  inward : ∀ p, p = g.insertion ∨ g.body.blocks.length ≤ p →
    ∀ next ∈ g'.body.successors p, g.body.blocks.length ≤ next
  /-- Among these blocks, control leaves the body at the new insertion point only. -/
  exits : ∀ p, p = g.insertion ∨ g.body.blocks.length ≤ p →
    g'.body.transferAt? p = some .ret → p = g'.insertion
  /-- The clauses come at the end of the trails to the insertion point. -/
  trail_iff : ∀ a < g.body.blocks.length, ∀ cs, g'.body.Trail a g'.insertion cs ↔
    ∃ before after, cs = before ++ after ∧ g.body.Trail a g.insertion before ∧
      Courses clauses after

theorem Open.lt_length (h : g.Open) : g.insertion < g.body.blocks.length :=
  lt_length_of_transferAt? h.exit

theorem Open.successors_eq_nil (h : g.Open) : g.body.successors g.insertion = [] :=
  successors_of_transferAt? h.exit

/-- From the insertion point, and from where there is no block, control does not go on. -/
theorem Open.notMem_successors (h : g.Open) {p : Nat}
    (hp : p = g.insertion ∨ g.body.blocks.length ≤ p) (next : Nat) :
    next ∉ g.body.successors p := by
  rcases hp with rfl | hge
  · rw [h.successors_eq_nil]
    exact List.not_mem_nil
  · rw [Implementation.successors_eq_nil hge]
    exact List.not_mem_nil

/-- Where there is no block, control does not leave the body either. -/
theorem eq_insertion {p : Nat} (hp : p = g.insertion ∨ g.body.blocks.length ≤ p)
    (hret : g.body.transferAt? p = some .ret) : p = g.insertion :=
  hp.resolve_right fun hge => Nat.not_lt.2 hge (lt_length_of_transferAt? hret)

/-! ## One clause -/

theorem takes_formula (h : g.Open) (s : Splice) (e : Expr) :
    g.Takes [(s, .formula e)] { g with body := g.body.pushCmd g.insertion (s.cmd e) } := by
  have hkeeps := keeps_pushCmd g.body g.insertion (s.cmd e)
  have hexit : (g.body.pushCmd g.insertion (s.cmd e)).transferAt? g.insertion = some .ret :=
    (transferAt?_pushCmd ..).trans h.exit
  refine ⟨hkeeps.mono fun p hp => hp.2, ⟨hkeeps.consistent h.consistent, hexit⟩, ?_, .inl rfl,
    ?_, ?_, ?_⟩
  · exact Nat.le_of_eq (length_pushCmd ..).symm
  · -- Control goes on as before, and there are no new blocks.
    intro p hp next edge
    rw [successors_pushCmd] at edge
    exact absurd edge (h.notMem_successors hp next)
  · intro p hp hret
    rw [transferAt?_pushCmd] at hret
    show p = g.insertion
    exact eq_insertion hp hret
  · intro a _ cs
    have hcmds : (g.body.pushCmd g.insertion (s.cmd e)).cmdsAt g.insertion =
        g.body.cmdsAt g.insertion ++ [s.cmd e] := by
      rw [cmdsAt_pushCmd, if_pos ⟨rfl, h.lt_length⟩]
    -- Nothing leads on from the insertion point, so the trails to it end with what is added there.
    rw [trail_append hkeeps.sameAt hcmds h.successors_eq_nil (successors_of_transferAt? hexit)]
    constructor
    · rintro ⟨before, rfl, hbefore⟩
      exact ⟨before, _, rfl, hbefore, courses_singleton.2 (.formula e)⟩
    · rintro ⟨before, after, rfl, hbefore, hafter⟩
      cases courses_singleton.1 hafter
      exact ⟨before, rfl, hbefore⟩

theorem takes_blocks (h : g.Open) {label : Name} {bs : List ContractBlock} {j : Implementation}
    {count : Nat}
    (hj : Spliced g.insertion g.body.blocks.length s bs (g.body.addBlock label []) j) :
    g.Takes [(s, .blocks bs)] ⟨j, g.body.blocks.length, count⟩ := by
  have hadded := keeps_addBlock g.body label []
  have hlength := length_addBlock g.body label []
  have hfirst := hj.transferAt?_insertion
  rw [hlength] at hfirst
  have hkeeps : Keeps (fun p => p < g.body.blocks.length ∧ p ≠ g.insertion) g.body j := by
    refine (hadded.mono fun p hp => Nat.ne_of_lt hp.1).trans hj.toKeeps fun p hp => ?_
    rw [hlength]
    exact ⟨Nat.lt_succ_of_lt hp.1, hp.2, Nat.ne_of_lt hp.1⟩
  -- A new block is the continuation or the copy of a block.
  have hnew : ∀ p, g.body.blocks.length ≤ p →
      p = g.body.blocks.length ∨ ∃ n, p = (g.body.addBlock label []).blocks.length + n := by
    intro p hp
    rw [hlength]
    rcases Nat.eq_or_lt_of_le hp with heq | hlt
    · exact .inl heq.symm
    · exact .inr ⟨p - (g.body.blocks.length + 1), by omega⟩
  refine ⟨hkeeps, ⟨hkeeps.consistent h.consistent, hj.transferAt?_continuation⟩, ?_,
    .inr (Nat.le_refl _), ?_, ?_, ?_⟩
  · rw [hj.length, hlength]
    omega
  · rintro p (rfl | hp) next edge
    · rw [successors_of_transferAt? hfirst] at edge
      rw [List.mem_singleton.1 edge]
      exact Nat.le_succ _
    · rcases hnew p hp with rfl | ⟨n, rfl⟩
      · rw [successors_of_transferAt? hj.transferAt?_continuation] at edge
        cases edge
      · obtain ⟨b, hb⟩ := hj.exists_block_of_edge edge
        cases hexit : b.exit with
        | goto targets =>
          rw [hj.successors_of_goto hb hexit] at edge
          obtain ⟨t, -, rfl⟩ := List.mem_map.1 edge
          rw [hlength]
          omega
        | ret value =>
          rw [hj.successors_of_ret hb hexit] at edge
          exact Nat.le_of_eq (List.mem_singleton.1 edge).symm
  · rintro p (rfl | hp) hret
    · rw [hfirst] at hret
      cases hret
    · rcases hnew p hp with rfl | ⟨n, rfl⟩
      · rfl
      · -- A copy goes on.
        have hlt := lt_length_of_transferAt? hret
        rw [hj.length] at hlt
        have hb := List.getElem?_eq_getElem (show n < bs.length by omega)
        rw [hj.transferAt? n _ hb] at hret
        cases hexit : bs[n].exit <;> rw [hexit] at hret <;> cases hret
  · intro a ha cs
    have hclosed : g.body.Closed (· < g.body.blocks.length) :=
      fun p _ next edge => h.consistent.lt_length p next edge
    have hcmds : j.cmdsAt g.insertion = g.body.cmdsAt g.insertion := by
      rw [hj.cmdsAt_insertion, (hadded.sameAt _ (Nat.ne_of_lt h.lt_length)).cmdsAt]
    have hempty : (g.body.addBlock label []).cmdsAt g.body.blocks.length = [] := by
      rw [cmdsAt_addBlock, if_pos rfl]
    have hroute : ∀ cs, j.Trail (g.body.blocks.length + 1) g.body.blocks.length cs ↔
        ∃ cs' value, cs = cs' ++ [s.cmd value] ∧ ContractBlock.Route bs 0 cs' value := by
      intro cs
      rw [← hj.trail_iff_route (by omega) hempty, Nat.add_zero, hlength]
    rw [trail_through hclosed (fun p hp hne => hkeeps.sameAt p ⟨hp, hne⟩) hcmds
      h.successors_eq_nil (successors_of_transferAt? hfirst) ha (Nat.lt_irrefl _)]
    constructor
    · rintro ⟨before, after, rfl, hbefore, hafter⟩
      obtain ⟨cs', value, rfl, hway⟩ := (hroute after).1 hafter
      exact ⟨before, _, rfl, hbefore, courses_singleton.2 (.blocks hway)⟩
    · rintro ⟨before, after, rfl, hbefore, hafter⟩
      obtain - | hway := courses_singleton.1 hafter
      exact ⟨before, _, rfl, hbefore, (hroute _).2 ⟨_, _, rfl, hway⟩⟩

/-- What a body becomes when it takes up one clause. -/
theorem addClause_eq_ok {title : String} {c : Condition} (h : g.Open)
    (hg : (g.addClause title s c).outcome = .ok g') : g.Takes [(s, c)] g' := by
  cases c with
  | formula e =>
    cases hg
    exact takes_formula h s e
  | blocks bs =>
    rw [addClause] at hg
    obtain ⟨⟨i, next⟩, hi, hg⟩ := Minting.bind_eq_ok.1 hg
    obtain ⟨j, hj, hg⟩ := Minting.bind_eq_ok.1 hg
    cases hg
    obtain ⟨rfl, rfl⟩ := addFreshBlock_eq_ok hi
    have hinsertion := h.lt_length
    refine takes_blocks h (threadCondition_eq_ok ?_ ?_ (Nat.ne_of_lt hinsertion) ?_ hj)
    · rw [length_addBlock]
      omega
    · rw [length_addBlock]
      omega
    · rw [transferAt?_addBlock, if_neg (Nat.ne_of_lt hinsertion), h.exit]

/-! ## Several clauses -/

theorem Takes.refl (h : g.Open) : g.Takes [] g := by
  refine ⟨Keeps.refl _ _, h, Nat.le_refl _, .inl rfl, ?_, fun _ hp => eq_insertion hp, ?_⟩
  · exact fun p hp next edge => absurd edge (h.notMem_successors hp next)
  · intro a _ cs
    constructor
    · exact fun h => ⟨cs, [], (List.append_nil cs).symm, h, .nil⟩
    · rintro ⟨before, after, rfl, hbefore, ⟨⟩⟩
      rwa [List.append_nil]

theorem Takes.trans (h : g.Takes clauses g₁) (h' : g₁.Takes clauses' g') :
    g.Takes (clauses ++ clauses') g' := by
  have hlength := h.length_le
  -- Of the blocks that are new or the insertion point, some are so in the second step as well.
  have hsplit : ∀ p, p = g.insertion ∨ g.body.blocks.length ≤ p →
      (p = g₁.insertion ∨ g₁.body.blocks.length ≤ p) ∨
        SameAt g₁.body g'.body p := by
    intro p _
    by_cases hp : p < g₁.body.blocks.length ∧ p ≠ g₁.insertion
    · exact .inr (h'.sameAt p hp)
    · exact .inl (by omega)
  refine ⟨?_, h'.isOpen, hlength.trans h'.length_le, ?_, ?_, ?_, ?_⟩
  · refine h.toKeeps.trans h'.toKeeps fun p hp => ⟨Nat.lt_of_lt_of_le hp.1 hlength, ?_⟩
    rcases h.insertion with heq | hle
    · exact heq ▸ hp.2
    · omega
  · rcases h'.insertion with heq | hle
    · exact heq ▸ h.insertion
    · exact .inr (hlength.trans hle)
  · intro p hp next edge
    rcases hsplit p hp with hp' | hat
    · exact hlength.trans (h'.inward p hp' next edge)
    · exact h.inward p hp next (hat.successors ▸ edge)
  · intro p hp hret
    rcases hsplit p hp with hp' | hat
    · exact h'.exits p hp' hret
    · -- The block would be the insertion point of the second step.
      have hinsertion := h.exits p hp (hat.transferAt? ▸ hret)
      exact h'.exits p (.inl hinsertion) hret
  · intro a ha cs
    rw [h'.trail_iff a (Nat.lt_of_lt_of_le ha hlength)]
    constructor
    · rintro ⟨before, after, rfl, hbefore, hafter⟩
      obtain ⟨before, middle, rfl, hbefore, hmiddle⟩ := (h.trail_iff a ha _).1 hbefore
      exact ⟨before, middle ++ after, List.append_assoc .., hbefore,
        courses_append.2 ⟨middle, after, rfl, hmiddle, hafter⟩⟩
    · rintro ⟨before, after, rfl, hbefore, hafter⟩
      obtain ⟨middle, after, rfl, hmiddle, hafter⟩ := courses_append.1 hafter
      exact ⟨before ++ middle, after, (List.append_assoc ..).symm,
        (h.trail_iff a ha _).2 ⟨before, middle, rfl, hbefore, hmiddle⟩, hafter⟩

/-- What a body becomes when it takes up several clauses in turn. -/
theorem addClauses_eq_ok {title : String} : ∀ {clauses : List (Splice × Condition)}
    {g g' : Growth}, g.Open → (g.addClauses title clauses).outcome = .ok g' →
    g.Takes clauses g'
  | [], _, _, h, hg => by
    cases hg
    exact .refl h
  | (s, c) :: clauses, g, g', h, hg => by
    rw [addClauses] at hg
    obtain ⟨g₁, hg₁, hg⟩ := Minting.bind_eq_ok.1 hg
    have hfirst : g.Takes [(s, c)] g₁ := addClause_eq_ok h hg₁
    exact hfirst.trans (addClauses_eq_ok hfirst.isOpen hg)

/-- A body with one exit, where it grows, has one exit afterwards. -/
theorem Takes.returning (h : g.Takes clauses g') (hexit : g.body.returning = [g.insertion]) :
    g'.body.returning = [g'.insertion] := by
  rw [returning_eq_singleton_iff] at hexit ⊢
  refine fun p => ⟨fun hret => ?_, fun hp => hp ▸ h.isOpen.exit⟩
  by_cases hp : p < g.body.blocks.length ∧ p ≠ g.insertion
  · have hold := (h.sameAt p hp).transferAt? ▸ hret
    exact absurd ((hexit p).1 hold) hp.2
  · exact h.exits p (by omega) hret

/-! ## A new entry -/

/-- A body that grows at one block more than another body has. -/
structure Atop (g : Growth) (j : Implementation) : Prop where
  /-- It grows at the new block. -/
  insertion : g.insertion = j.blocks.length
  /-- There is one new block. -/
  length : g.body.blocks.length = j.blocks.length + 1
  /-- The other blocks are the same. -/
  sameAt : ∀ p < j.blocks.length, SameAt j g.body p

section

variable {j : Implementation} {exit : Nat} (hj : g.Atop j) (h : g.Takes clauses g')

include hj h

theorem Atop.length_le_insertion : j.blocks.length ≤ g'.insertion := by
  have hinsertion := h.insertion
  rw [hj.insertion, hj.length] at hinsertion
  omega

variable (hentry : j.entry < j.blocks.length)

include hentry

/-- Control goes on from the new blocks to the old entry. -/
theorem Atop.keeps_setTransfer : Keeps (· ≠ g'.insertion) g'.body
    (g'.body.setTransfer g'.insertion (.goto [j.entry])) := by
  refine Implementation.keeps_setTransfer h.isOpen.lt_length fun next hnext => ?_
  have hle := h.length_le
  rw [hj.length] at hle
  rw [List.mem_singleton.1 hnext]
  omega

/-- The old blocks stay the same. -/
theorem Atop.sameAt_setTransfer : ∀ p < j.blocks.length,
    SameAt j (g'.body.setTransfer g'.insertion (.goto [j.entry])) p := by
  intro p hp
  have hfirst := hj.sameAt p hp
  have hsecond := h.sameAt p (by rw [hj.length, hj.insertion]; omega)
  have hle := hj.length_le_insertion h
  exact (hfirst.trans hsecond).trans ((hj.keeps_setTransfer h hentry).sameAt p (by omega))

/-- Control leaves the body where it left it before. -/
theorem Atop.returning_setTransfer (hexit : j.returning = [exit]) :
    (g'.body.setTransfer g'.insertion (.goto [j.entry])).returning = [exit] := by
  rw [returning_eq_singleton_iff] at hexit ⊢
  have hold := hj.sameAt_setTransfer h hentry
  have hlt : exit < j.blocks.length := lt_length_of_transferAt? ((hexit exit).2 rfl)
  intro p
  by_cases hp : p < j.blocks.length
  · rw [(hold p hp).transferAt?, hexit]
  · refine iff_of_false (fun hret => ?_) (by omega)
    rw [transferAt?_setTransfer h.isOpen.lt_length] at hret
    split_ifs at hret with hp'
    · cases hret
    · exact hp' (h.exits p (by rw [hj.insertion, hj.length]; omega) hret)

/-- A trail from the new entry goes through the clauses first and then from the old entry on. -/
theorem Atop.trail_setTransfer_iff (hconsistent : j.Consistent) (hexit : exit < j.blocks.length)
    {cs : List Cmd} :
    (g'.body.setTransfer g'.insertion (.goto [j.entry])).Trail g.insertion exit cs ↔
      ∃ before after body, cs = before ++ after ++ body ∧ g.body.Trail g.insertion g.insertion before ∧
        Courses clauses after ∧ j.Trail j.entry exit body := by
  have hkeeps := hj.keeps_setTransfer h hentry
  have hend := h.isOpen.lt_length
  have hnext : (g'.body.setTransfer g'.insertion (.goto [j.entry])).successors g'.insertion =
      [j.entry] := by
    rw [successors_setTransfer hend, if_pos rfl]
    rfl
  -- Before control comes to the old entry, it stays among the new blocks.
  have hclosed : g'.body.Closed (j.blocks.length ≤ ·) := by
    intro p hp next edge
    have hle := h.inward p (by rw [hj.insertion, hj.length]; omega) next edge
    rw [hj.length] at hle
    exact Nat.le_of_succ_le hle
  have hold : j.Closed (· < j.blocks.length) := fun p _ next edge => hconsistent.lt_length p next edge
  rw [trail_through hclosed (fun p _ hp => hkeeps.sameAt p hp) (cmdsAt_setTransfer ..)
    h.isOpen.successors_eq_nil hnext (Nat.le_of_eq hj.insertion.symm) (Nat.not_le.2 hexit)]
  have hlt : g.insertion < g.body.blocks.length := by
    rw [hj.insertion, hj.length]
    exact Nat.lt_succ_self _
  constructor
  · rintro ⟨before, body, rfl, hbefore, hbody⟩
    obtain ⟨before, after, rfl, hbefore, hafter⟩ := (h.trail_iff _ hlt _).1 hbefore
    exact ⟨before, after, body, rfl, hbefore, hafter,
      (trail_congr hold (hj.sameAt_setTransfer h hentry) hentry).1 hbody⟩
  · rintro ⟨before, after, body, rfl, hbefore, hafter, hbody⟩
    exact ⟨before ++ after, body, rfl, (h.trail_iff _ hlt _).2 ⟨before, after, rfl, hbefore, hafter⟩,
      (trail_congr hold (hj.sameAt_setTransfer h hentry) hentry).2 hbody⟩

end

end Growth

/-! ## The contract of a procedure -/

section

variable {q : Procedure} {i j k : Implementation} {exit exit' : Nat}

/-- The preconditions, to be assumed. -/
def Procedure.assumedClauses (q : Procedure) (f : Subst) : List (Splice × Condition) :=
  q.requires.map fun r => (.assume, r.condition.substitute f)

/-- The postconditions that are not free, to be asserted. -/
def Procedure.assertedClauses (q : Procedure) (f : Subst) : List (Splice × Condition) :=
  (q.ensures.filter (!·.free)).map fun e =>
    (.assert (.ensures e.note), e.condition.substitute f)

/-- An assumption for each condition on a variable. -/
def whereAssumptions (vs : List Variable) : List Cmd :=
  vs.filterMap fun v => v.whereClause.map Cmd.assume

/-- What becomes of a body when the postconditions are asserted at its exit. -/
theorem assertPostconditions_eq_ok (hi : i.Consistent) (hexit : i.returning = [exit])
    (h : (assertPostconditions q i exit).outcome = .ok (j, exit')) :
    ∃ formals, formalMap q i = .ok formals ∧ j.returning = [exit'] ∧
      ∃ count, Growth.Takes ⟨i, exit, 0⟩ (q.assertedClauses formals.find?) ⟨j, exit', count⟩ := by
  obtain ⟨formals, hf, h⟩ := Minting.bind_eq_ok.1 h
  obtain ⟨g, hg, h⟩ := Minting.bind_eq_ok.1 h
  cases h
  have hopen : Growth.Open ⟨i, exit, 0⟩ := ⟨hi, (returning_eq_singleton_iff.1 hexit exit).2 rfl⟩
  have htakes := Growth.addClauses_eq_ok hopen hg
  exact ⟨formals, hf, htakes.returning hexit, g.count, htakes⟩

/-- What becomes of a body when the preconditions are assumed at a new entry. -/
theorem assumePreconditions_eq_ok (hj : j.Consistent) (hexit : j.returning = [exit])
    (hentry : j.entry < j.blocks.length) (h : (assumePreconditions q j).outcome = .ok k) :
    ∃ formals, formalMap q j = .ok formals ∧ k.returning = [exit] ∧ k.Consistent ∧
      (∀ p < j.blocks.length, SameAt j k p) ∧
      (∃ blocks entry, k = { j with
        inputs := inheritWhereClauses formals.find? q.inputs j.inputs
        outputs := inheritWhereClauses formals.find? q.outputs j.outputs, blocks, entry }) ∧
      ∀ cs, k.Trail k.entry exit cs ↔ ∃ before body,
        cs = whereAssumptions (k.inputs ++ k.outputs) ++ before ++ body ∧
          Courses (q.assumedClauses formals.find?) before ∧ j.Trail j.entry exit body := by
  obtain ⟨formals, hf, h⟩ := Minting.bind_eq_ok.1 h
  obtain ⟨⟨j₁, entry⟩, hj₁, h⟩ := Minting.bind_eq_ok.1 h
  obtain ⟨g, hg, h⟩ := Minting.bind_eq_ok.1 h
  cases h
  obtain ⟨rfl, rfl⟩ := addFreshBlock_eq_ok hj₁
  have hlt : exit < j.blocks.length :=
    lt_length_of_transferAt? ((returning_eq_singleton_iff.1 hexit exit).2 rfl)
  -- The stages of the new entry: inherit the conditions, add the block, and assume the clauses from
  -- it on.
  let formal : Implementation := { j with
    inputs := inheritWhereClauses formals.find? q.inputs j.inputs
    outputs := inheritWhereClauses formals.find? q.outputs j.outputs }
  let label := formal.freshLabel ("PreconditionGeneratedEntry" ++ "0")
  let assumptions := whereAssumptions (formal.inputs ++ formal.outputs)
  let start : Growth :=
    ⟨{ formal.addBlock label assumptions with entry := j.blocks.length }, j.blocks.length, 1⟩
  have hadded := keeps_addBlock formal label assumptions
  have hconsistent : formal.Consistent := ⟨hj.lt_length, hj.count_predsAt⟩
  have hret : start.body.transferAt? start.insertion = some .ret :=
    (transferAt?_addBlock formal label assumptions j.blocks.length).trans (if_pos rfl)
  have hcmds : start.body.cmdsAt start.insertion = assumptions :=
    (cmdsAt_addBlock formal label assumptions j.blocks.length).trans (if_pos rfl)
  have hopen : start.Open := by
    have hstart := hadded.consistent hconsistent
    exact ⟨⟨hstart.lt_length, hstart.count_predsAt⟩, hret⟩
  have hatop : start.Atop j := by
    refine ⟨rfl, length_addBlock formal label assumptions, fun p hp => ?_⟩
    have hat := hadded.sameAt p (Nat.ne_of_lt hp)
    exact ⟨hat.cmdsAt, hat.transferAt?⟩
  have htakes := Growth.addClauses_eq_ok hopen hg
  have hkeeps := hatop.keeps_setTransfer htakes hentry
  -- Of the fields besides the blocks only the entry differs, also after control is sent on to the
  -- old entry.
  have hrest : ∃ blocks, g.body.setTransfer g.insertion (.goto [j.entry]) =
      { formal with blocks, entry := j.blocks.length } := by
    obtain ⟨blocks, hbody⟩ := htakes.rest
    obtain ⟨blocks', hmoved⟩ := hkeeps.rest
    exact ⟨blocks', by rw [hmoved, hbody]; rfl⟩
  refine ⟨formals, hf, hatop.returning_setTransfer htakes hentry hexit,
    hkeeps.consistent htakes.isOpen.consistent, hatop.sameAt_setTransfer htakes hentry, ?_,
    fun cs => ?_⟩
  · obtain ⟨blocks, hk⟩ := hrest
    exact ⟨blocks, j.blocks.length, hk⟩
  · have hself : ∀ before, start.body.Trail start.insertion start.insertion before ↔
        before = assumptions := fun before => by
      rw [trail_iff_of_successors_eq_nil (successors_of_transferAt? hret), hcmds]
      exact and_iff_right rfl
    obtain ⟨blocks, hk⟩ := hrest
    have hfirst : (g.body.setTransfer g.insertion (.goto [j.entry])).entry = start.insertion := by
      rw [hk]
    have hwhere : whereAssumptions ((g.body.setTransfer g.insertion (.goto [j.entry])).inputs ++
        (g.body.setTransfer g.insertion (.goto [j.entry])).outputs) = assumptions := by
      rw [hk]
    -- Before the clauses are added the new entry leads nowhere, so there is one trail inside it.
    rw [hfirst, hwhere, hatop.trail_setTransfer_iff htakes hentry hj hlt]
    constructor
    · rintro ⟨before, after, body, rfl, hbefore, hafter, hbody⟩
      obtain rfl := (hself before).1 hbefore
      exact ⟨after, body, rfl, hafter, hbody⟩
    · rintro ⟨after, body, rfl, hafter, hbody⟩
      exact ⟨assumptions, after, body, rfl, (hself _).2 rfl, hafter, hbody⟩

/-- The contract of a procedure around a well-formed body with one exit: control leaves the body at
one place, targets and predecessors agree, the blocks before the exit stay the same, and besides the
blocks only the entry and the conditions on the formals are new. The commands along a path from the
entry to the exit are an assumption for each condition on a formal, a course of each precondition,
the commands along a path through the body from its entry to its exit, and a course of each
postcondition that is not free. -/
theorem trail_contract_iff (hcheck : i.check = .ok ()) (hexit : i.returning = [exit])
    (hj : (assertPostconditions q i exit).outcome = .ok (j, exit'))
    (hk : (assumePreconditions q j).outcome = .ok k) :
    ∃ formals, formalMap q i = .ok formals ∧ k.returning = [exit'] ∧
      k.inconsistentBlock? = none ∧ (∀ p < i.blocks.length, p ≠ exit → SameAt i k p) ∧
      (∃ blocks entry, k = { i with
        inputs := inheritWhereClauses formals.find? q.inputs i.inputs
        outputs := inheritWhereClauses formals.find? q.outputs i.outputs, blocks, entry }) ∧
      ∀ cs, k.Trail k.entry exit' cs ↔ ∃ before body after,
        cs = whereAssumptions (k.inputs ++ k.outputs) ++ before ++ body ++ after ∧
          Courses (q.assumedClauses formals.find?) before ∧ i.Trail i.entry exit body ∧
          Courses (q.assertedClauses formals.find?) after := by
  obtain ⟨order, horder, -⟩ := exists_order hcheck
  obtain ⟨hdangling, hpreds, -, -⟩ := topologicalOrder_cases horder
  have ho := isTopologicalOrder_of_returning horder hexit
  have hentry : i.entry < i.blocks.length := ho.lt_length _ ho.entry_mem
  have hi : i.Consistent := consistent_iff.2 ⟨hdangling, hpreds⟩
  obtain ⟨formals, hf, hreturning, count, htakes⟩ := assertPostconditions_eq_ok hi hexit hj
  obtain ⟨blocks, hrest⟩ := htakes.rest
  dsimp only at hrest
  subst hrest
  have hentry' : i.entry < blocks.length := Nat.lt_of_lt_of_le hentry htakes.length_le
  obtain ⟨formals', hf', hreturning', hk', hsame, hrest, htrail⟩ :=
    assumePreconditions_eq_ok htakes.isOpen.consistent hreturning hentry' hk
  -- The formals are those of the body before.
  obtain rfl : formals' = formals := Except.ok.inj (hf'.symm.trans hf)
  refine ⟨formals', hf, hreturning', (consistent_iff.1 hk').2, fun p hp hne => ?_, hrest,
    fun cs => ?_⟩
  · exact (htakes.sameAt p ⟨hp, hne⟩).trans (hsame p (Nat.lt_of_lt_of_le hp htakes.length_le))
  have hbody := htakes.trail_iff i.entry hentry
  rw [htrail]
  constructor
  · rintro ⟨before, rest, rfl, hbefore, hrest⟩
    obtain ⟨body, after, rfl, hbody, hafter⟩ := (hbody rest).1 hrest
    exact ⟨before, body, after, (List.append_assoc ..).symm, hbefore, hbody, hafter⟩
  · rintro ⟨before, body, after, rfl, hbefore, hway, hafter⟩
    exact ⟨before, body ++ after, List.append_assoc .., hbefore,
      (hbody _).2 ⟨body, after, rfl, hway, hafter⟩⟩

/-- A procedure with a condition on its input and a postcondition with two ends. -/
def branchingProcedure : Procedure where
  name := ⟨"P"⟩
  inputs := [⟨⟨"x"⟩, .int, some (.binary .ge (.symbol ⟨"x"⟩) (.int 0)), .input⟩]
  outputs := [⟨⟨"r"⟩, .int, none, .output⟩]
  requires := [⟨.formula (.binary .lt (.symbol ⟨"x"⟩) (.int 10)), false⟩]
  ensures :=
    [⟨.blocks
        [⟨⟨"start"⟩, [], .goto [1, 2]⟩,
         ⟨⟨"pos"⟩, [.assume (.binary .gt (.symbol ⟨"x"⟩) (.int 0))],
           .ret (.binary .gt (.symbol ⟨"r"⟩) (.int 0))⟩,
         ⟨⟨"neg"⟩, [], .ret (.bool true)⟩], false, [], some "sign"⟩,
     ⟨.formula (.bool false), true, [], none⟩]
  modifies := []
  attributes := []

/-- A body for it, whose entry is its exit. -/
def branchingBody : Implementation where
  name := ⟨"P"⟩
  inputs := [⟨⟨"a"⟩, .int, none, .input⟩]
  outputs := [⟨⟨"b"⟩, .int, none, .output⟩]
  locals := []
  attributes := []
  blocks := [⟨⟨"body"⟩, [.assign [(⟨"b"⟩, .symbol ⟨"a"⟩)]], [], .ret⟩]
  entry := 0

/-- The body with the postcondition at its end. -/
def branchingAsserted : Implementation := { branchingBody with
  blocks :=
    [⟨⟨"body"⟩, [.assign [(⟨"b"⟩, .symbol ⟨"a"⟩)]], [], .goto [2]⟩,
     ⟨⟨"ReallyLastGeneratedExit0"⟩, [], [3, 4], .ret⟩,
     ⟨⟨"start"⟩, [], [0], .goto [3, 4]⟩,
     ⟨⟨"pos"⟩,
       [.assume (.binary .gt (.symbol ⟨"a"⟩) (.int 0)),
        .assert ⟨.binary .gt (.symbol ⟨"b"⟩) (.int 0), .ensures (some "sign"), none, none⟩],
       [2], .goto [1]⟩,
     ⟨⟨"neg"⟩, [.assert ⟨.bool true, .ensures (some "sign"), none, none⟩], [2], .goto [1]⟩] }

/-- The body with all of the contract. -/
def branchingAssumed : Implementation := { branchingAsserted with
  inputs := [⟨⟨"a"⟩, .int, some (.binary .ge (.symbol ⟨"a"⟩) (.int 0)), .input⟩]
  blocks :=
    [⟨⟨"body"⟩, [.assign [(⟨"b"⟩, .symbol ⟨"a"⟩)]], [5], .goto [2]⟩] ++
      branchingAsserted.blocks.tail ++
    [⟨⟨"PreconditionGeneratedEntry0"⟩,
       [.assume (.binary .ge (.symbol ⟨"a"⟩) (.int 0)),
        .assume (.binary .lt (.symbol ⟨"a"⟩) (.int 10))], [], .goto [0]⟩]
  entry := 5 }

theorem assertPostconditions_branchingBody :
    (assertPostconditions branchingProcedure branchingBody 0).outcome =
      .ok (branchingAsserted, 1) := by
  rfl

theorem assumePreconditions_branchingAsserted :
    (assumePreconditions branchingProcedure branchingAsserted).outcome = .ok branchingAssumed := by
  rfl

theorem trail_contract_iff_branching :
    branchingBody.check = .ok () ∧ branchingBody.returning = [0] ∧
      (assertPostconditions branchingProcedure branchingBody 0).outcome =
        .ok (branchingAsserted, 1) ∧
      (assumePreconditions branchingProcedure branchingAsserted).outcome = .ok branchingAssumed ∧
      ∃ formals, formalMap branchingProcedure branchingBody = .ok formals ∧
        ∀ cs, branchingAssumed.Trail 5 1 cs ↔ ∃ before body after,
          cs = [.assume (.binary .ge (.symbol ⟨"a"⟩) (.int 0))] ++ before ++ body ++ after ∧
            Courses (branchingProcedure.assumedClauses formals.find?) before ∧
            branchingBody.Trail 0 0 body ∧
            Courses (branchingProcedure.assertedClauses formals.find?) after := by
  have hcheck : branchingBody.check = .ok () := by cbv
  have hexit : branchingBody.returning = [0] := by decide
  obtain ⟨formals, hf, -, -, -, -, htrail⟩ := trail_contract_iff hcheck hexit
    assertPostconditions_branchingBody assumePreconditions_branchingAsserted
  exact ⟨hcheck, hexit, assertPostconditions_branchingBody, assumePreconditions_branchingAsserted,
    formals, hf, htrail⟩

end

end Obligations
