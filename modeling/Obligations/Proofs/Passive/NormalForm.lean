import Obligations.Proofs.Contract.Threading
import Obligations.Proofs.Implementation.Normal
import Obligations.Proofs.Passive.Discipline
import Obligations.Proofs.Passive.SingleAssignment

/-!
# The normal form of passive bodies

A body goes through six changes before its condition is generated: calls become contracts, exits are
unified, postconditions and preconditions are put in, edges are split, and commands become passive.
What comes out is in normal form (`PassiveImplementation.NormalForm`), whatever the body and the
program are (`Implementation.passiveForm_normalForm`). The exit is the only one since unification
leaves one exit, clauses move it with them (`Implementation.prepare_returning`), and the later changes
keep it; hence the two failures that say that there is none, or another, never come about.
-/

namespace Obligations

open Implementation

variable {p : Program} {i j : Implementation} {q : Procedure} {e : SingleExit}

/-- A well-formed body with one exit, in which the reachable blocks assert and assume only, and in
which an edge to a block with several predecessors comes from a block that leads nowhere else. -/
structure PassiveImplementation.NormalForm (b : PassiveImplementation) : Prop where
  /-- The body is well formed. -/
  check : b.body.check = .ok ()
  /-- Control leaves it at the exit, and nowhere else. -/
  returning : b.body.returning = [b.exit]
  /-- The order lists the reachable blocks, each once and before its successors. -/
  order : b.body.IsTopologicalOrder b.order
  /-- The commands of reachable blocks assert or assume a condition that asks for no value on
  entry. -/
  cmds : ∀ id, b.body.Reachable id → ∀ c ∈ b.body.cmdsAt id, ∃ f : Expr, f.OldFree ∧
    (c = .assume f ∨ ∃ a, c = .assert a ∧ a.condition = f)
  /-- Where several reachable blocks lead to a block, every block that leads to it leads to it
  alone. -/
  joins : ∀ id a a', b.body.Reachable a → b.body.Reachable a' → a ≠ a' →
    id ∈ b.body.successors a → id ∈ b.body.successors a' →
      ∀ r, id ∈ b.body.successors r → ∀ next ∈ b.body.successors r, next = id

/-! ## One exit through all changes -/

/-- Expansion of calls changes the commands of blocks only. -/
theorem outline_expandBlocks {caller : Name} : ∀ {bs cs : List Block} {number : Nat},
    (expandBlocks p caller number bs).outcome = .ok cs →
      cs.map (fun b => { b with cmds := [] }) = bs.map fun b => { b with cmds := [] }
  | [], _, _, h => by
    cases h
    rfl
  | b :: bs, _, _, h => by
    rw [expandBlocks] at h
    obtain ⟨cmds, -, h⟩ := Minting.bind_eq_ok.1 h
    obtain ⟨rest, hrest, h⟩ := Minting.bind_eq_ok.1 h
    cases h
    rw [List.map_cons, List.map_cons, outline_expandBlocks hrest]

theorem Implementation.expandCalls_eq_ok (h : (i.expandCalls p).outcome = .ok j) :
    j.outline = i.outline ∧ ∃ blocks, j = { i with blocks } := by
  rw [Implementation.expandCalls] at h
  obtain ⟨blocks, hblocks, h⟩ := Minting.bind_eq_ok.1 h
  cases h
  exact ⟨outline_expandBlocks hblocks, blocks, rfl⟩

/-- A body whose calls are expanded and whose exits are unified can take up its contract: it has one
exit, targets and predecessors agree, and its entry exists. -/
theorem Implementation.exits_unified {expanded : Implementation} {unified : SingleExit}
    (hcheck : i.check = .ok ()) (hexpanded : (i.expandCalls p).outcome = .ok expanded)
    (hunified : expanded.unifyExits.outcome = .ok unified) :
    unified.body.returning = [unified.exit] ∧ unified.body.Consistent ∧
      unified.body.entry < unified.body.blocks.length := by
  obtain ⟨order, horder, -⟩ := exists_order hcheck
  obtain ⟨hdangling, hpreds, -, -⟩ := topologicalOrder_cases horder
  obtain ⟨houtline, blocks, rfl⟩ := expandCalls_eq_ok hexpanded
  obtain ⟨hexit, hconsistent, hlength, ⟨r, hr⟩, ⟨blocks', hbody⟩, -⟩ := unifyExits_eq_ok hunified
  rw [returning_of_outline_eq houtline] at hr
  have hentry := entry_lt_length_of_mem_reachable (exit_mem_reachable horder hr)
  refine ⟨hexit, hconsistent ((consistent_iff.2 ⟨hdangling, hpreds⟩).of_outline_eq houtline), ?_⟩
  rw [length_of_outline_eq houtline] at hlength
  rw [hbody] at hlength ⊢
  exact Nat.lt_of_lt_of_le hentry hlength

/-- A body made ready for passification has one exit. -/
theorem Implementation.prepare_returning (h : (i.prepare p).outcome = .ok (q, e)) :
    e.body.returning = [e.exit] := by
  obtain ⟨-, hcheck, expanded, unified, asserted, assumed, hexpanded, hunified, hasserted, hassumed,
    -, hbody, -⟩ := prepare_eq_ok.1 h
  obtain ⟨hexit, hconsistent, hentry⟩ := exits_unified hcheck hexpanded hunified
  obtain ⟨formals, -, hexit', count, htakes⟩ := assertPostconditions_eq_ok hconsistent hexit hasserted
  have hentry' : asserted.entry < asserted.blocks.length := by
    obtain ⟨blocks, hrest⟩ := htakes.rest
    have hle := htakes.length_le
    dsimp only at hrest hle
    subst hrest
    exact Nat.lt_of_lt_of_le hentry hle
  obtain ⟨-, -, hexit'', -⟩ := assumePreconditions_eq_ok htakes.isOpen.consistent hexit' hentry' hassumed
  exact (subdivides_splitCriticalEdges hbody).returning_eq_singleton hexit''

/-! ## Passive bodies -/

/-- All conditions and values. -/
def Passive.Discipline.all : Passive.Discipline where
  asserted _ := True
  assumed _ := True
  value _ := True
  value_of_isAtomic _ := trivial
  value_standIn _ _ _ := trivial
  asserted_standIn _ _ _ := trivial
  assumed_standIn _ _ _ := trivial
  assumed_conjAll _ := trivial

mutual

theorem Cmd.obeys_all : ∀ c : Cmd, c.Obeys .all
  | .assert _ | .assume _ | .havoc _ | .call _ _ _ | .comment _ => trivial
  | .assign _ => fun _ _ => trivial
  | .scope _ cmds => ⟨fun _ _ _ _ => trivial, Cmd.obeysAll_all cmds⟩

theorem Cmd.obeysAll_all : ∀ cs : List Cmd, Cmd.ObeysAll .all cs
  | [] => trivial
  | c :: cs => ⟨c.obeys_all, Cmd.obeysAll_all cs⟩

end

theorem Passive.passify_normalForm {l : Lexicon} {prune : Bool} {b : PassiveImplementation}
    (hexit : e.body.returning = [e.exit]) (huncritical : ∀ id, e.body.Uncritical id)
    (hb : (passify l prune p q e).outcome = .ok b) : b.NormalForm := by
  obtain ⟨houtline, ⟨hentry, -⟩, htopological, -, hcmds⟩ :=
    passify_obeys (D := .all) (fun _ _ _ => trivial) (fun id => Cmd.obeysAll_all _) hb
  obtain ⟨order, s, horder, -, -, rfl⟩ := passify_eq_ok.1 hb
  have hsuccessors := successors_of_outline_eq houtline
  have horder' := topologicalOrder_of_outline_eq houtline hentry horder
  have hreturning := (returning_of_outline_eq houtline).trans hexit
  have htopological' := isTopologicalOrder_of_returning horder' hreturning
  refine ⟨?_, hreturning, htopological', fun id hid c hc => ?_, ?_⟩
  · unfold check Implementation.order
    rw [horder']
    rfl
  · have hstates := (hcmds id ((htopological'.mem_iff id).2 hid)).statesOnly
      (atomic_frame q.modifies) (Cmd.obeysAll_all _) c hc
    cases c with
    | assert a => exact ⟨a.condition, hstates.2, .inr ⟨a, rfl, rfl⟩⟩
    | assume f => exact ⟨f, hstates.2, .inl rfl⟩
    | assign | havoc | call | comment | scope => exact hstates.elim
  · intro id a a' _ _ hne edge edge' r edge'' next hnext
    simp only [hsuccessors] at edge edge' edge'' hnext
    -- The edges to a block with two predecessors are not critical.
    have hall := (huncritical id).resolve_left fun hone => hne (hone a a' edge edge')
    rw [hall r edge''] at hnext
    exact List.mem_singleton.1 hnext

/-! ## No failure about exits -/

/-- The failure does not say at which blocks control leaves the body. -/
def ConditionError.NotAboutExits : ConditionError → Prop
  | .inconsistent (.severalExits _ _) | .inconsistent (.unexpectedExit _ _ _) => False
  | _ => True

section

open Implementation Passive

/-- A computation fails for other reasons than the exits of a body. -/
abbrev Settled {α : Type} (x : Except ConditionError α) : Prop :=
  FailsOnly ConditionError.NotAboutExits x

theorem settled_order (i : Implementation) : Settled i.order := by
  unfold Implementation.order
  cases i.topologicalOrder with
  | error => exact .error trivial
  | ok order => exact .ok _ order

theorem settled_check (i : Implementation) : Settled i.check := by
  unfold check
  cases h : i.order with
  | error e => exact .error (settled_order i e h)
  | ok => exact .ok _ ()

/-! ### Calls -/

theorem settled_formula (s : CallSite) (c : Condition) : Settled (s.formula c) := by
  cases c with
  | formula e => exact .ok _ e
  | blocks => exact .error trivial

theorem settled_globalKeepers (s : CallSite) : ∀ gs : List Name,
    Settled (s.globalKeepers p gs).outcome
  | [] => .ok _ []
  | g :: gs => by
    rw [CallSite.globalKeepers]
    cases p.global? g with
    | none => exact .error trivial
    | some d => exact .bind_outcome (.ok _ _) fun _ =>
        .bind_outcome (settled_globalKeepers s gs) fun _ => .ok _ _

theorem settled_expand (s : CallSite) : Settled (s.expand p).outcome := by
  refine .bind_outcome (.mapM (fun r => ?_) _) fun _ => .bind_outcome (.ok _ _) fun _ =>
    .bind_outcome (settled_globalKeepers s _) fun _ =>
      .bind_outcome (.mapM (fun r => ?_) _) fun _ => .ok _ _
  · exact (settled_formula s r.condition).bind fun _ => .ok _ _
  · exact (settled_formula s r.condition).bind fun _ => .ok _ _

theorem settled_callSite {caller callee : Name} {number : Nat} {args : List Expr}
    {outputs : List Name} : Settled (callSite p caller callee number args outputs) := by
  unfold callSite
  cases p.procedure? callee with
  | none => exact .error trivial
  | some q =>
    dsimp only
    split_ifs
    · exact .error trivial
    · exact .ok _ _

mutual

theorem settled_expandCalls {caller : Name} : ∀ (c : Cmd) (number : Nat),
    Settled (c.expandCalls p caller number).outcome
  | .call _ _ _, _ => .bind_outcome settled_callSite fun s => settled_expand s
  | .scope _ cmds, number =>
    .bind_outcome (settled_expandCallsAll cmds number) fun _ => .ok _ _
  | .assert _, _ | .assume _, _ | .assign _, _ | .havoc _, _ | .comment _, _ => .ok _ _

theorem settled_expandCallsAll {caller : Name} : ∀ (cs : List Cmd) (number : Nat),
    Settled (Cmd.expandCallsAll p caller number cs).outcome
  | [], _ => .ok _ []
  | c :: cs, number => .bind_outcome (settled_expandCalls c number) fun _ =>
    .bind_outcome (settled_expandCallsAll cs _) fun _ => .ok _ _

end

theorem settled_expandBlocks {caller : Name} : ∀ (bs : List Block) (number : Nat),
    Settled (expandBlocks p caller number bs).outcome
  | [], _ => .ok _ []
  | b :: bs, number => .bind_outcome (settled_expandCallsAll b.cmds number) fun _ =>
    .bind_outcome (settled_expandBlocks bs _) fun _ => .ok _ _

/-! ### Contracts -/

theorem settled_formalMap (q : Procedure) (i : Implementation) : Settled (formalMap q i) := by
  unfold formalMap
  split_ifs
  · exact .error trivial
  · exact .ok _ _

theorem settled_addConditionBlocks : ∀ (bs : List ContractBlock) (i : Implementation),
    Settled (addConditionBlocks i bs).outcome
  | [], i => .ok _ (i, [])
  | _ :: bs, _ => .bind_outcome (.bind_outcome (.ok _ _) fun _ => .ok _ _) fun _ =>
    .bind_outcome (settled_addConditionBlocks bs _) fun _ => .ok _ _

theorem settled_setConditionExits {ids : List Nat} {continuation : Nat} {s : Splice} :
    ∀ (bs : List (ContractBlock × Nat)) (i : Implementation),
      Settled (setConditionExits ids continuation s i bs)
  | [], i => .ok _ i
  | (b, id) :: rest, i => by
    rw [setConditionExits]
    cases b.exit with
    | goto targets =>
      refine .bind (.mapM (fun t => ?_) _) fun _ => settled_setConditionExits rest _
      cases ids[t]? with
      | none => exact .error trivial
      | some id => exact .ok _ id
    | ret value => exact settled_setConditionExits rest _

theorem settled_addClause (g : Growth) (title : String) (s : Splice) (c : Condition) :
    Settled (g.addClause title s c).outcome := by
  cases c with
  | formula e => exact .ok _ _
  | blocks bs =>
    rw [Growth.addClause]
    refine .bind_outcome (.bind_outcome (.ok _ _) fun _ => .ok _ _) fun x =>
      .bind_outcome ?_ fun _ => .ok _ _
    unfold threadCondition
    refine .bind_outcome (settled_addConditionBlocks bs _) fun x => ?_
    obtain ⟨i, ids⟩ := x
    cases ids with
    | nil => exact .error trivial
    | cons first ids => exact .bind_outcome (settled_setConditionExits _ _) fun _ => .ok _ _

theorem settled_addClauses (title : String) : ∀ (clauses : List (Splice × Condition)) (g : Growth),
    Settled (g.addClauses title clauses).outcome
  | [], g => .ok _ g
  | (s, c) :: clauses, g => .bind_outcome (settled_addClause g title s c) fun g =>
    settled_addClauses title clauses g

/-! ### Passive commands -/

theorem settled_next (s : Versions) (x : Name) (o : Origin) : Settled (s.next x o).outcome := by
  unfold Versions.next
  cases s.declarations.find? x with
  | none => exact .error trivial
  | some d => exact .bind_outcome (.ok _ _) fun _ => .ok _ _

theorem settled_assignAll (block : Name) : ∀ (pairs : List (Name × Expr)) (s : Progress),
    Settled (assignAll block s pairs).outcome
  | [], s => .ok _ ([], s)
  | (x, value) :: rest, s => by
    unfold assignAll
    split_ifs
    · exact .error trivial
    · exact .bind_outcome (settled_assignAll block rest s) fun _ => .ok _ _
    · exact settled_assignAll block rest _
    · exact .bind_outcome (.bind_outcome (settled_next _ _ _) fun _ => .ok _ _) fun r =>
        .bind_outcome (settled_assignAll block rest r.2) fun _ => .ok _ _

theorem settled_renewAll (block : Name) : ∀ (xs : List Name) (s : Progress),
    Settled (renewAll block s xs).outcome
  | [], s => .ok _ s
  | x :: xs, s => by
    unfold renewAll
    split_ifs
    · exact settled_renewAll block xs s
    · exact .bind_outcome (.bind_outcome (settled_next _ _ _) fun _ => .ok _ _) fun r =>
        settled_renewAll block xs r.2

mutual

theorem settled_passifyCmd {frame : NameMap Expr} {block : Name} : ∀ (c : Cmd) (s : Progress),
    Settled (passifyCmd frame block c s).outcome
  | .assert _, _ | .assume _, _ | .comment _, _ => .ok _ _
  | .assign _, s => .bind_outcome (settled_assignAll block _ s) fun _ => .ok _ _
  | .havoc vars, s => .bind_outcome (settled_renewAll block vars s) fun _ => .ok _ _
  | .call _ _ _, _ => .error trivial
  | .scope _ cmds, _ => .bind_outcome (settled_passifyCmds cmds _) fun _ => .ok _ _

theorem settled_passifyCmds {frame : NameMap Expr} {block : Name} :
    ∀ (cs : List Cmd) (s : Progress), Settled (passifyCmds frame block cs s).outcome
  | [], s => .ok _ s
  | c :: cs, s => .bind_outcome (settled_passifyCmd c s) fun s => settled_passifyCmds cs s

end

theorem settled_reconcileAll {isLive : Name → Bool} {label : Name} {incoming : List Incoming} :
    ∀ (xs : List Name) (map : NameMap Expr) (s : Advance),
      Settled (reconcileAll isLive label incoming xs map s).outcome
  | [], map, s => .ok _ (map, s)
  | x :: xs, map, s => by
    unfold reconcileAll
    split_ifs
    · exact .bind_outcome (.bind_outcome (settled_next _ _ _) fun _ => .ok _ _) fun r =>
        settled_reconcileAll xs _ r.2
    · exact settled_reconcileAll xs map s

theorem settled_passifyBlocks {c : Passive.Setting} : ∀ (ids : List Nat) (s : Advance),
    Settled (passifyBlocks c ids s).outcome
  | [], s => .ok _ s
  | id :: ids, s => by
    refine .bind_outcome ?_ fun s => settled_passifyBlocks ids s
    unfold passifyBlock
    cases s.body.blocks[id]? with
    | none => exact .ok _ s
    | some b => exact .bind_outcome (settled_reconcileAll _ _ _) fun r =>
        .bind_outcome (settled_passifyCmds _ _) fun _ => .ok _ _

/-! ### All stages -/

theorem settled_splitCriticalEdges (i : Implementation) :
    Settled (i.splitCriticalEdges : Minting ConditionError _).outcome := by
  refine .foldlM_outcome (fun i target => .foldlM_outcome (fun i source => ?_) _ i) _ i
  split_ifs
  · exact .ok _ i
  · exact .bind_outcome (.bind_outcome (.ok _ _) fun _ => .ok _ _) fun _ => .ok _ _

theorem settled_prepare (i : Implementation) : Settled (i.prepare p).outcome := by
  unfold prepare
  cases p.procedure? i.name with
  | none => exact .error trivial
  | some q =>
    refine .bind_outcome (settled_check i) fun _ =>
      .bind_outcome (.bind_outcome (settled_expandBlocks _ _) fun _ => .ok _ _) fun j =>
      .bind_outcome ?_ fun s => .bind_outcome ?_ fun x => .bind_outcome ?_ fun j =>
      .bind_outcome (settled_check j) fun _ => .bind_outcome (settled_splitCriticalEdges j) fun _ =>
      .ok _ _
    · cases j.unifyExits.outcome with
      | error => exact .error trivial
      | ok s => exact .ok _ s
    · exact .bind_outcome (settled_formalMap q _) fun _ =>
        .bind_outcome (settled_addClauses _ _ _) fun _ => .ok _ _
    · exact .bind_outcome (settled_formalMap q _) fun _ =>
        .bind_outcome (.bind_outcome (.ok _ _) fun _ => .ok _ _) fun _ =>
        .bind_outcome (settled_addClauses _ _ _) fun _ => .ok _ _

/-- A body with one exit is not found to have another exit, or several. -/
theorem settled_passify {l : Lexicon} {prune : Bool} (hexit : e.body.returning = [e.exit]) :
    Settled (passify l prune p q e).outcome := by
  refine .bind_outcome_of (settled_order e.body) fun order horder =>
    .bind_outcome_of (settled_passifyBlocks _ _) fun s hblocks => ?_
  have htopological : e.body.topologicalOrder = .ok order := mapError_eq_ok.1 horder
  have ho := isTopologicalOrder_of_returning htopological hexit
  have hnodup : ([] ++ order).Nodup := ho.nodup
  have hdone := passifyBlocks_obeys (D := .all) (atomic_frame q.modifies)
    (fun id => Cmd.obeysAll_all _) hnodup ho.lt_length (.start fun _ _ _ => trivial) hblocks
  -- Passification changes commands only, so that the exit is the one that the body had.
  have hreturn : order.filter (fun id =>
      (s.body.blocks[id]?.map (·.transfer.isReturn)).getD false) = [e.exit] := by
    simp only [map_getElem?_of_outline_eq hdone.outline (f := (·.transfer.isReturn)) fun _ => rfl]
    exact filter_isReturn_eq htopological hexit
  rw [hreturn]
  dsimp only
  rw [if_pos rfl]
  exact .ok _ _

end

theorem settled_passiveForm {o : GenerationOptions} {l : Lexicon} :
    Settled ((i.passiveForm p o).run l).1 := by
  refine .run_bind ?_ fun (q, e) l' hprepare => ?_
  · rw [Minting.run_record]
    exact settled_prepare i
  · rw [Minting.run_record] at hprepare
    refine .run_bind (.ok _ l') fun mentioned l₁ _ => ?_
    rw [Minting.run_record]
    exact settled_passify (prepare_returning (Prod.ext_iff.1 hprepare).1)

/-- Whenever a body has a passive form, this is in normal form; and where it has none, the reason is
never that control leaves the body that was made ready at no or several blocks, or at another block
than expected. -/
theorem Implementation.passiveForm_normalForm (i : Implementation) (p : Program)
    (o : GenerationOptions) (l : Lexicon) :
    (∀ b l', (i.passiveForm p o).run l = (.ok b, l') → b.NormalForm) ∧
      ∀ err l', (i.passiveForm p o).run l = (.error err, l') →
        (∀ body count, err ≠ .inconsistent (.severalExits body count)) ∧
          ∀ body actual expected, err ≠ .inconsistent (.unexpectedExit body actual expected) := by
  constructor
  · intro b l' h
    obtain ⟨⟨q, e⟩, l₁, hprepare, h⟩ := NamingExcept.bind_eq_ok.1 h
    rw [Minting.run_record] at hprepare
    have hprepare : (i.prepare p).outcome = .ok (q, e) := (Prod.ext_iff.1 hprepare).1
    obtain ⟨l₂, l₃, -, h⟩ := NamingExcept.bind_eq_ok.1 h
    rw [Minting.run_record] at h
    exact Passive.passify_normalForm (prepare_returning hprepare) (uncritical_prepare hprepare)
      (Prod.ext_iff.1 h).1
  · intro err l' h
    -- Among the errors that a passive form can end with there are none about exits.
    have hsettled := settled_passiveForm err (congrArg Prod.fst h)
    constructor
    · rintro body count rfl
      exact hsettled
    · rintro body actual expected rfl
      exact hsettled

theorem passiveForm_normalForm_skipping :
    ∃ b l, (skippingBody.passiveForm skippingProgram {}).run .initial = (.ok b, l) ∧
      b.NormalForm := by
  obtain ⟨b, hb⟩ := exists_passify_skippingReadied
  obtain ⟨l, hl⟩ := Implementation.exists_passiveForm (o := {}) .initial prepare_skippingBody hb
  exact ⟨b, l, hl, (Implementation.passiveForm_normalForm _ _ _ _).1 b l hl⟩

end Obligations
