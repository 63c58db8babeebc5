import Obligations.Condition.Generation
import Obligations.Proofs.Call.Expansion
import Obligations.Proofs.Implementation.Transfer
import Obligations.Proofs.Outcome
import Obligations.Proofs.Vocabulary.Basic

/-!
# Preparation stays within a vocabulary

A body that is made ready for passification stays within a vocabulary if the body, its own contract,
the contracts of the procedures that it calls and the conditions on globals do
(`Implementation.within_prepare`).
-/

namespace Obligations

variable {V : Vocabulary} {p : Program}

/-- What is combined from two lists is combined from a member of each. -/
theorem exists_of_mem_zipWith {α β γ : Type} {f : α → β → γ} {as : List α} {bs : List β} {c : γ}
    (h : c ∈ as.zipWith f bs) : ∃ a ∈ as, ∃ b ∈ bs, f a b = c := by
  rw [← List.map_uncurry_zip_eq_zipWith, List.mem_map] at h
  obtain ⟨⟨a, b⟩, hab, rfl⟩ := h
  exact ⟨a, (List.of_mem_zip hab).1, b, (List.of_mem_zip hab).2, rfl⟩

/-! ## Calls -/

namespace CallSite

variable {s : CallSite}

/-- The callee, the arguments and the results of a call are within the vocabulary. -/
structure Within (V : Vocabulary) (s : CallSite) : Prop where
  /-- The contract of the procedure. -/
  callee : s.callee.Within V
  /-- The arguments. -/
  args : ∀ a ∈ s.args, V.expr a
  /-- The variables that get the results. -/
  outputs : ∀ x ∈ s.outputs, V.name x

theorem name_inputKeeper {x : Name} (hx : V.name x) : V.name (s.inputKeeper x) := by
  refine V.append ("call" ++ toString s.number ++ "formal") x ?_ hx
  simp [Nat.toString_eq_repr, Nat.toList_repr, Name.separator_not_mem_toDigits]

theorem name_globalKeeper {g : Name} (hg : V.name g) : V.name (s.globalKeeper g) := by
  refine V.append ("call" ++ toString s.number ++ "old") g ?_ hg
  simp [Nat.toString_eq_repr, Nat.toList_repr, Name.separator_not_mem_toDigits]

theorem Within.arguments (h : s.Within V) (n : Name) (a : Expr)
    (ha : s.arguments.find? n = some a) : V.expr a := by
  obtain ⟨x, -, b, hb, heq⟩ := exists_of_mem_zipWith (NameMap.mem_of_find?_ofList ha)
  cases heq
  exact h.args a hb

theorem Within.parameters (h : s.Within V) (n : Name) (a : Expr)
    (ha : s.parameters n = some a) : V.expr a := by
  rcases Option.or_eq_some_iff.1 ha with ha | ⟨-, ha⟩
  · obtain ⟨x, hx, heq⟩ := List.mem_map.1 (NameMap.mem_of_find?_ofList ha)
    cases heq
    exact (V.symbol _).2 (name_inputKeeper (h.callee.inputs x hx).name)
  · obtain ⟨x, -, o, ho, heq⟩ := exists_of_mem_zipWith (NameMap.mem_of_find?_ofList ha)
    cases heq
    exact (V.symbol o).2 (h.outputs o ho)

theorem Within.entryValues (h : s.Within V) (n : Name) (a : Expr)
    (ha : s.entryValues n = some a) : V.expr a := by
  obtain ⟨g, hg, heq⟩ := List.mem_map.1 (NameMap.mem_of_find?_ofList ha)
  cases heq
  exact (V.symbol _).2 (name_globalKeeper (h.callee.modifies _ hg))

theorem expr_of_formula_eq_ok {c : Condition} {e : Expr} (hc : c.Within V)
    (h : s.formula c = .ok e) : V.expr e := by
  cases c with
  | formula e' =>
    cases h
    exact hc
  | blocks => cases h

theorem Within.checks (h : s.Within V) {cs : List Cmd} (hcs : s.checks = .ok cs) :
    Cmd.WithinAll V cs := by
  refine Cmd.withinAll_iff.2 fun c hc => ?_
  obtain ⟨r, hr, heq⟩ := exists_mem_of_forall₂ (mapM_eq_ok_iff.1 hcs).flip hc
  obtain ⟨e, he, heq⟩ := bind_eq_ok.1 heq
  cases heq
  exact V.substitute (expr_of_formula_eq_ok (h.callee.requires r (List.mem_filter.1 hr).1) he)
    h.arguments

theorem Within.guarantees (h : s.Within V) {cs : List Cmd} (hcs : s.guarantees = .ok cs) :
    Cmd.WithinAll V cs := by
  refine Cmd.withinAll_iff.2 fun c hc => ?_
  obtain ⟨r, hr, heq⟩ := exists_mem_of_forall₂ (mapM_eq_ok_iff.1 hcs).flip hc
  obtain ⟨e, he, heq⟩ := bind_eq_ok.1 heq
  cases heq
  exact V.substituteOld (expr_of_formula_eq_ok (h.callee.ensures r hr) he) h.parameters
    h.entryValues

/-- The locals that keep values are within the vocabulary, and so are the values. -/
def KeepersWithin (V : Vocabulary) (ks : List Keeper) : Prop :=
  ∀ k ∈ ks, k.holder.Within V ∧ V.expr k.value

theorem Within.inputKeepers (h : s.Within V) : KeepersWithin V s.inputKeepers := by
  intro k hk
  obtain ⟨x, hx, a, ha, rfl⟩ := exists_of_mem_zipWith hk
  exact ⟨⟨name_inputKeeper (h.callee.inputs x hx).name, fun _ hw => (by cases hw), V.localKind⟩,
    h.args a ha⟩

theorem Within.globalKeepers {gs : List Name} (hgs : ∀ g ∈ gs, V.name g) {ks : List Keeper}
    (hks : (s.globalKeepers p gs).outcome = .ok ks) : KeepersWithin V ks := by
  induction gs generalizing ks with
  | nil =>
    cases hks
    exact fun k hk => by cases hk
  | cons g gs ih =>
    obtain ⟨hg, hgs⟩ := List.forall_mem_cons.1 hgs
    rw [CallSite.globalKeepers] at hks
    cases hd : p.global? g with
    | none =>
      rw [hd] at hks
      cases hks
    | some d =>
      simp only [hd] at hks
      obtain ⟨n, hn, hks⟩ := Minting.bind_eq_ok.1 hks
      obtain ⟨rest, hrest, hks⟩ := Minting.bind_eq_ok.1 hks
      cases hn
      cases hks
      refine List.forall_mem_cons.2 ⟨⟨⟨name_globalKeeper hg, fun _ hw => (by cases hw),
        V.localKind⟩, (V.symbol g).2 hg⟩, ih hgs hrest⟩

/-- The scope that a call becomes stays within the vocabulary. -/
theorem Within.expand (h : s.Within V) {c : Cmd} (hc : (s.expand p).outcome = .ok c) :
    c.Within V := by
  rw [CallSite.expand] at hc
  obtain ⟨checks, hchecks, hc⟩ := Minting.bind_eq_ok.1 hc
  obtain ⟨-, -, hc⟩ := Minting.bind_eq_ok.1 hc
  obtain ⟨globals, hglobals, hc⟩ := Minting.bind_eq_ok.1 hc
  obtain ⟨guarantees, hguarantees, hc⟩ := Minting.bind_eq_ok.1 hc
  cases hc
  -- What the locals keep are arguments and globals that the procedure may change.
  have hkeepers : KeepersWithin V (s.inputKeepers ++ globals) := fun k hk =>
    (List.mem_append.1 hk).elim (h.inputKeepers k)
      (Within.globalKeepers h.callee.modifies hglobals k)
  have hchanged : ∀ x ∈ s.changed, V.name x := fun x hx =>
    (mem_changed.1 hx).elim (h.outputs x) (h.callee.modifies x)
  refine ⟨?_, ?_⟩
  · rw [List.forall_mem_map]
    exact fun k hk => (hkeepers k hk).1
  · rw [Cmd.withinAll_append, Cmd.withinAll_append, Cmd.withinAll_append]
    refine ⟨⟨⟨h.checks hchecks, ?_⟩, ?_⟩, h.guarantees hguarantees⟩
    · split_ifs
      · trivial
      · refine ⟨?_, trivial⟩
        rw [Cmd.Within, List.forall_mem_map]
        exact fun k hk => ⟨(hkeepers k hk).1.name, (hkeepers k hk).2⟩
    · split_ifs
      · trivial
      · exact ⟨hchanged, trivial⟩

end CallSite

/-! ## Bodies with calls -/

/-- The contracts of the procedures of some names are within the vocabulary. -/
def Program.CalleesWithin (V : Vocabulary) (p : Program) (names : List Name) : Prop :=
  ∀ n ∈ names, ∀ q, p.procedure? n = some q → q.Within V

/-- The procedures that one of several commands calls are among those that all of them call. -/
theorem Cmd.callees_subset_calleesAll {c : Cmd} {cs : List Cmd} (hc : c ∈ cs) :
    c.callees ⊆ Cmd.calleesAll cs := by
  induction cs with
  | nil => cases hc
  | cons d cs ih =>
    rcases List.mem_cons.1 hc with rfl | hc
    · exact List.subset_append_left _ _
    · exact List.Subset.trans (ih hc) (List.subset_append_right _ _)

theorem Program.CalleesWithin.mono {names names' : List Name} (h : p.CalleesWithin V names)
    (hsub : names' ⊆ names) : p.CalleesWithin V names' := fun n hn => h n (hsub hn)

/-- The commands that the expansion of a call makes, of a command that `R` allows, are of the kind
`R'`, and so are the commands of the kind `R` that are not calls, if their parts are. -/
structure Cmd.ExpandsTo (p : Program) (caller : Name) (R R' : Cmd → Prop) : Prop where
  /-- A call. -/
  call : ∀ {callee args outputs number s d}, R (.call callee args outputs) →
    callSite p caller callee number args outputs = .ok s → (s.expand p).outcome = .ok d → R' d
  /-- The commands in a scope. -/
  body : ∀ {locals cs}, R (.scope locals cs) → ∀ c ∈ cs, R c
  /-- A scope with other commands in it. -/
  scope : ∀ {locals cs ds}, R (.scope locals cs) → (∀ d ∈ ds, R' d) → R' (.scope locals ds)
  /-- Any other command. -/
  other : ∀ {c}, R c → R' c

section

variable {caller : Name} {R R' : Cmd → Prop}

mutual

/-- Expansion of the calls in a command. -/
theorem Cmd.ExpandsTo.expandCalls (h : Cmd.ExpandsTo p caller R R') : ∀ {c d : Cmd} {number : Nat},
    R c → (c.expandCalls p caller number).outcome = .ok d → R' d
  | .call _ _ _, _, _, hc, hd => by
    rw [Cmd.expandCalls] at hd
    obtain ⟨s, hs, hd⟩ := Minting.bind_eq_ok.1 hd
    exact h.call hc hs hd
  | .scope _ _, _, _, hc, hd => by
    rw [Cmd.expandCalls] at hd
    obtain ⟨ds, hds, hd⟩ := Minting.bind_eq_ok.1 hd
    cases hd
    exact h.scope hc (h.expandCallsAll (h.body hc) hds)
  | .assert _, _, _, hc, hd | .assume _, _, _, hc, hd | .assign _, _, _, hc, hd
  | .havoc _, _, _, hc, hd | .comment _, _, _, hc, hd => by
    cases hd
    exact h.other hc

/-- The same for several commands. -/
theorem Cmd.ExpandsTo.expandCallsAll (h : Cmd.ExpandsTo p caller R R') :
    ∀ {cs ds : List Cmd} {number : Nat}, (∀ c ∈ cs, R c) →
    (Cmd.expandCallsAll p caller number cs).outcome = .ok ds → ∀ d ∈ ds, R' d
  | [], _, _, _, hds => by
    cases hds
    exact fun d hd => nomatch hd
  | c :: cs, _, _, hcs, hds => by
    rw [Cmd.expandCallsAll] at hds
    obtain ⟨d, hd, hds⟩ := Minting.bind_eq_ok.1 hds
    obtain ⟨rest, hrest, hds⟩ := Minting.bind_eq_ok.1 hds
    cases hds
    obtain ⟨hc, hcs⟩ := List.forall_mem_cons.1 hcs
    exact List.forall_mem_cons.2 ⟨h.expandCalls hc hd, h.expandCallsAll hcs hrest⟩

end

/-- The same for the commands of several blocks. -/
theorem Cmd.ExpandsTo.expandBlocks (h : Cmd.ExpandsTo p caller R R') :
    ∀ {bs cs : List Block} {number : Nat}, (∀ b ∈ bs, ∀ c ∈ b.cmds, R c) →
    (expandBlocks p caller number bs).outcome = .ok cs → ∀ b ∈ cs, ∀ c ∈ b.cmds, R' c
  | [], _, _, _, hcs => by
    cases hcs
    exact fun b hb => nomatch hb
  | b :: bs, _, _, hbs, hcs => by
    rw [Obligations.expandBlocks] at hcs
    obtain ⟨cmds, hcmds, hcs⟩ := Minting.bind_eq_ok.1 hcs
    obtain ⟨rest, hrest, hcs⟩ := Minting.bind_eq_ok.1 hcs
    cases hcs
    obtain ⟨hb, hbs⟩ := List.forall_mem_cons.1 hbs
    exact List.forall_mem_cons.2 ⟨h.expandCallsAll hb hcmds, h.expandBlocks hbs hrest⟩

end

/-- The expansion of a call within the vocabulary to a procedure whose contract is stays within it. -/
theorem Cmd.expandsTo_within {caller : Name} :
    Cmd.ExpandsTo p caller (fun c => c.Within V ∧ p.CalleesWithin V c.callees) (Cmd.Within V) where
  call {callee _ _ _ _ _} h hs hd := by
    unfold callSite at hs
    cases hq : p.procedure? callee with
    | none =>
      rw [hq] at hs
      cases hs
    | some q =>
      simp only [hq] at hs
      split_ifs at hs
      cases hs
      exact CallSite.Within.expand ⟨h.2 callee (by simp [Cmd.callees]) q hq, h.1.1, h.1.2⟩ hd
  body {_ cs} h c hc := by
    refine ⟨Cmd.withinAll_iff.1 h.1.2 c hc, h.2.mono ?_⟩
    exact Cmd.callees_subset_calleesAll hc
  scope h hds := ⟨h.1.1, Cmd.withinAll_iff.2 hds⟩
  other h := h.1

namespace Implementation

variable {i j : Implementation}

/-- Blocks with commands within the vocabulary make a body within it. -/
theorem Within.setBlocks (h : i.Within V) {blocks : List Block}
    (hblocks : ∀ b ∈ blocks, Cmd.WithinAll V b.cmds) : Within V { i with blocks } where
  inputs := h.inputs
  outputs := h.outputs
  locals := h.locals
  cmds := forall_cmdsAt trivial hblocks

theorem Within.of_mem_blocks (h : i.Within V) {b : Block} (hb : b ∈ i.blocks) :
    Cmd.WithinAll V b.cmds := by
  obtain ⟨id, hid⟩ := List.mem_iff_getElem?.1 hb
  have hcmds := h.cmds id
  rwa [cmdsAt, hid] at hcmds

/-- A body whose calls are expanded stays within the vocabulary. -/
theorem Within.expandCalls (h : i.Within V)
    (hcallees : p.CalleesWithin V (i.blocks.flatMap fun b => Cmd.calleesAll b.cmds))
    (hj : (i.expandCalls p).outcome = .ok j) : j.Within V := by
  rw [Implementation.expandCalls] at hj
  obtain ⟨blocks, hblocks, hj⟩ := Minting.bind_eq_ok.1 hj
  cases hj
  refine h.setBlocks fun b hb => Cmd.withinAll_iff.2 ?_
  refine Cmd.expandsTo_within.expandBlocks (fun b hb c hc => ⟨?_, hcallees.mono ?_⟩) hblocks b hb
  · exact Cmd.withinAll_iff.1 (h.of_mem_blocks hb) c hc
  · exact List.Subset.trans (Cmd.callees_subset_calleesAll hc) fun n hn =>
      List.mem_flatMap.2 ⟨b, hb, hn⟩

/-! ## Changes of a body -/

/-- Commands of a kind are added at the ends of blocks, and nothing but the blocks is changed. -/
structure GrowsBy (P : Cmd → Prop) (i j : Implementation) : Prop where
  /-- Nothing but the blocks is changed. -/
  rest : ∃ blocks, j = { i with blocks }
  /-- The new commands come behind those that were there. -/
  cmdsAt : ∀ id, ∃ cs, j.cmdsAt id = i.cmdsAt id ++ cs ∧ ∀ c ∈ cs, P c

variable {P : Cmd → Prop}

theorem GrowsBy.refl (i : Implementation) : GrowsBy P i i :=
  ⟨⟨i.blocks, rfl⟩, fun _ => ⟨[], (List.append_nil _).symm, fun _ h => nomatch h⟩⟩

theorem GrowsBy.trans {k : Implementation} (h : GrowsBy P i j) (h' : GrowsBy P j k) :
    GrowsBy P i k := by
  obtain ⟨blocks, rfl⟩ := h.rest
  obtain ⟨blocks', rfl⟩ := h'.rest
  refine ⟨⟨blocks', rfl⟩, fun id => ?_⟩
  obtain ⟨cs, hcs, hP⟩ := h.cmdsAt id
  obtain ⟨cs', hcs', hP'⟩ := h'.cmdsAt id
  refine ⟨cs ++ cs', ?_, List.forall_mem_append.2 ⟨hP, hP'⟩⟩
  rw [hcs', hcs, List.append_assoc]

theorem growsBy_setTransfer (i : Implementation) (id : Nat) (t : Transfer) :
    GrowsBy P i (i.setTransfer id t) :=
  ⟨exists_setTransfer i id t, fun p =>
    ⟨[], by rw [cmdsAt_setTransfer, List.append_nil], fun _ h => nomatch h⟩⟩

theorem growsBy_addBlock (i : Implementation) (label : Name) {cmds : List Cmd}
    (hcmds : ∀ c ∈ cmds, P c) : GrowsBy P i (i.addBlock label cmds) := by
  refine ⟨⟨_, rfl⟩, fun p => ?_⟩
  rw [cmdsAt_addBlock]
  split_ifs with hp
  · have hnil : i.cmdsAt p = [] := by
      rw [hp, Implementation.cmdsAt, List.getElem?_eq_none (Nat.le_refl _)]
      rfl
    exact ⟨cmds, by rw [hnil, List.nil_append], hcmds⟩
  · exact ⟨[], (List.append_nil _).symm, fun _ h => nomatch h⟩

theorem growsBy_pushCmd (i : Implementation) (id : Nat) {c : Cmd} (hc : P c) :
    GrowsBy P i (i.pushCmd id c) := by
  refine ⟨⟨_, rfl⟩, fun p => ?_⟩
  rw [cmdsAt_pushCmd]
  split_ifs
  · exact ⟨[c], rfl, List.forall_mem_singleton.2 hc⟩
  · exact ⟨[], (List.append_nil _).symm, fun _ h => nomatch h⟩

theorem addFreshBlock_eq_ok {ε : Type} {base : String} {cmds : List Cmd} {id : Nat}
    (h : (i.addFreshBlock base cmds : Minting ε _).outcome = .ok (j, id)) :
    j = i.addBlock (i.freshLabel base) cmds ∧ id = i.blocks.length := by
  obtain ⟨label, hlabel, h⟩ := Minting.bind_eq_ok.1 h
  cases hlabel
  cases h
  exact ⟨rfl, rfl⟩

theorem growsBy_unifyExits {s : SingleExit} (hs : i.unifyExits.outcome = .ok s) :
    GrowsBy P i s.body := by
  unfold Implementation.unifyExits at hs
  split at hs
  · cases hs
  · cases hs
    exact .refl i
  · obtain ⟨⟨j, exit⟩, hj, hs⟩ := Minting.bind_eq_ok.1 hs
    cases hs
    obtain ⟨rfl, -⟩ := addFreshBlock_eq_ok hj
    exact List.foldlRecOn (motive := fun j => GrowsBy P i j) _ _
      (growsBy_addBlock i _ fun _ h => nomatch h) fun j hj id _ => hj.trans (growsBy_setTransfer j id _)

theorem growsBy_splitEdge {ε : Type} {source target : Nat}
    (hj : (i.splitEdge source target : Minting ε _).outcome = .ok j) : GrowsBy P i j := by
  obtain ⟨⟨j', middle⟩, hj', hj⟩ := Minting.bind_eq_ok.1 hj
  cases hj
  obtain ⟨rfl, -⟩ := addFreshBlock_eq_ok hj'
  exact ((growsBy_addBlock i _ fun _ h => nomatch h).trans (growsBy_setTransfer _ _ _)).trans
    (growsBy_setTransfer _ _ _)

theorem growsBy_splitCriticalEdges {ε : Type}
    (hj : (i.splitCriticalEdges : Minting ε _).outcome = .ok j) : GrowsBy P i j := by
  refine Minting.foldlM_induction (fun target _ b c hb hc => ?_) (.refl i) hj
  refine Minting.foldlM_induction (fun source _ b c hb hc => ?_) hb hc
  split_ifs at hc
  · cases hc
    exact hb
  · exact hb.trans (growsBy_splitEdge hc)

/-- A body stays within the vocabulary if the new commands do. -/
theorem Within.grow (h : i.Within V) (hj : GrowsBy (Cmd.Within V) i j) : j.Within V := by
  obtain ⟨blocks, rfl⟩ := hj.rest
  refine ⟨h.inputs, h.outputs, h.locals, fun id => ?_⟩
  obtain ⟨cs, hcs, hwithin⟩ := hj.cmdsAt id
  rw [hcs, Cmd.withinAll_append]
  exact ⟨h.cmds id, Cmd.withinAll_iff.2 hwithin⟩

end Implementation

/-! ## Contracts -/

section

open Implementation

variable {i j : Implementation} {s : Splice} {P : Cmd → Prop}

/-- The commands that a clause adds to a body are of a kind. -/
def Condition.Adds (P : Cmd → Prop) (s : Splice) : Condition → Prop
  | formula e => P (s.cmd e)
  | blocks bs => ∀ b ∈ bs, (∀ c ∈ b.cmds, P c) ∧ ∀ e, b.exit = .ret e → P (s.cmd e)

theorem Splice.within_cmd {e : Expr} (he : V.expr e) : (s.cmd e).Within V := by
  cases s <;> exact he

theorem Condition.Within.adds {c : Condition} (h : c.Within V) : c.Adds (Cmd.Within V) s := by
  cases c with
  | formula e => exact Splice.within_cmd h
  | blocks bs => exact fun b hb => ⟨Cmd.withinAll_iff.1 (h b hb).1,
      fun e he => Splice.within_cmd ((h b hb).2 e he)⟩

theorem growsBy_addConditionBlocks : ∀ {bs : List ContractBlock} {i j : Implementation}
    {ids : List Nat}, (∀ b ∈ bs, ∀ c ∈ b.cmds, P c) →
    (addConditionBlocks i bs).outcome = .ok (j, ids) → GrowsBy P i j
  | [], i, _, _, _, hj => by
    cases hj
    exact .refl i
  | b :: bs, i, _, _, hbs, hj => by
    obtain ⟨hb, hbs⟩ := List.forall_mem_cons.1 hbs
    obtain ⟨⟨k, id⟩, hk, hj⟩ := Minting.bind_eq_ok.1 hj
    obtain ⟨⟨l, ids'⟩, hl, hj⟩ := Minting.bind_eq_ok.1 hj
    cases hj
    obtain ⟨rfl, -⟩ := addFreshBlock_eq_ok hk
    exact (growsBy_addBlock i _ hb).trans (growsBy_addConditionBlocks hbs hl)

theorem growsBy_setConditionExits {ids : List Nat} {continuation : Nat} :
    ∀ {bs : List (ContractBlock × Nat)} {i j : Implementation},
    (∀ b ∈ bs, ∀ e, b.1.exit = .ret e → P (s.cmd e)) →
    setConditionExits ids continuation s i bs = .ok j → GrowsBy P i j
  | [], i, _, _, hj => by
    cases hj
    exact .refl i
  | (b, id) :: bs, i, _, hbs, hj => by
    obtain ⟨hb, hbs⟩ := List.forall_mem_cons.1 hbs
    rw [setConditionExits] at hj
    cases hexit : b.exit with
    | goto targets =>
      simp only [hexit] at hj
      obtain ⟨targets', -, hj⟩ := bind_eq_ok.1 hj
      exact (growsBy_setTransfer i _ _).trans (growsBy_setConditionExits hbs hj)
    | ret value =>
      simp only [hexit] at hj
      exact ((growsBy_pushCmd i id (hb value hexit)).trans (growsBy_setTransfer _ _ _)).trans
        (growsBy_setConditionExits hbs hj)

theorem growsBy_threadCondition {insertion continuation : Nat} {bs : List ContractBlock}
    (hbs : Condition.Adds P s (.blocks bs))
    (hj : (threadCondition i insertion continuation bs s).outcome = .ok j) : GrowsBy P i j := by
  unfold threadCondition at hj
  obtain ⟨⟨k, ids⟩, hk, hj⟩ := Minting.bind_eq_ok.1 hj
  have hadded : GrowsBy P i k := growsBy_addConditionBlocks (fun b hb => (hbs b hb).1) hk
  cases ids with
  | nil => cases hj
  | cons first ids =>
    obtain ⟨l, hl, hj⟩ := Minting.bind_eq_ok.1 hj
    cases hj
    have hexits : GrowsBy P k l :=
      growsBy_setConditionExits (fun b hb => (hbs b.1 (List.of_mem_zip hb).1).2) hl
    exact ((hadded.trans hexits).trans (growsBy_setTransfer _ _ _)).trans
      (growsBy_setTransfer _ _ _)

theorem Growth.growsBy_addClause {g g' : Growth} {title : String} {c : Condition}
    (hc : c.Adds P s) (hg : (g.addClause title s c).outcome = .ok g') :
    GrowsBy P g.body g'.body := by
  cases c with
  | formula e =>
    cases hg
    exact growsBy_pushCmd _ _ hc
  | blocks bs =>
    rw [addClause] at hg
    obtain ⟨⟨i, next⟩, hi, hg⟩ := Minting.bind_eq_ok.1 hg
    obtain ⟨j, hj, hg⟩ := Minting.bind_eq_ok.1 hg
    cases hg
    obtain ⟨rfl, -⟩ := addFreshBlock_eq_ok hi
    exact (growsBy_addBlock _ _ fun _ h => nomatch h).trans (growsBy_threadCondition hc hj)

/-- Several clauses add their commands to a body. -/
theorem Growth.growsBy_addClauses {title : String} : ∀ {cs : List (Splice × Condition)}
    {g g' : Growth}, (∀ c ∈ cs, c.2.Adds P c.1) → (g.addClauses title cs).outcome = .ok g' →
    GrowsBy P g.body g'.body
  | [], g, _, _, hg => by
    cases hg
    exact .refl g.body
  | (s, c) :: cs, _, _, hcs, hg => by
    obtain ⟨hc, hcs⟩ := List.forall_mem_cons.1 hcs
    rw [addClauses] at hg
    obtain ⟨g₁, hg₁, hg⟩ := Minting.bind_eq_ok.1 hg
    exact (growsBy_addClause hc hg₁).trans (growsBy_addClauses hcs hg)

end

section

variable {q : Procedure} {i j : Implementation}

theorem formalMap_within (h : i.Within V) {formals : NameMap Expr}
    (hf : formalMap q i = .ok formals) (n : Name) (a : Expr) (ha : formals.find? n = some a) :
    V.expr a := by
  unfold formalMap at hf
  split_ifs at hf
  cases hf
  obtain ⟨x, -, v, hv, heq⟩ := exists_of_mem_zipWith (NameMap.mem_of_find?_ofList ha)
  cases heq
  exact (V.symbol _).2 ((List.mem_append.1 hv).elim (h.inputs v) (h.outputs v)).name

theorem assertPostconditions_within (h : i.Within V) (hq : q.Within V) {exit exit' : Nat}
    (hj : (assertPostconditions q i exit).outcome = .ok (j, exit')) : j.Within V := by
  obtain ⟨formals, hf, hj⟩ := Minting.bind_eq_ok.1 hj
  obtain ⟨g, hg, hj⟩ := Minting.bind_eq_ok.1 hj
  cases hj
  refine h.grow (Growth.growsBy_addClauses (fun c hc => ?_) hg)
  obtain ⟨e, he, rfl⟩ := List.mem_map.1 hc
  exact ((hq.ensures e (List.mem_filter.1 he).1).substitute (formalMap_within h hf)).adds

theorem inheritWhereClauses_within {f : Subst} (hf : ∀ n a, f n = some a → V.expr a)
    {declared formals : List Variable} (hdeclared : ∀ v ∈ declared, v.Within V)
    (hformals : ∀ v ∈ formals, v.Within V) :
    ∀ v ∈ inheritWhereClauses f declared formals, v.Within V := by
  intro v hv
  obtain ⟨d, hd, u, hu, rfl⟩ := exists_of_mem_zipWith hv
  refine ⟨(hformals u hu).name, fun w hw => ?_, (hformals u hu).kind⟩
  rcases Option.or_eq_some_iff.1 hw with hw | ⟨-, hw⟩
  · exact (hformals u hu).whereClause w hw
  · obtain ⟨w', hw', rfl⟩ := Option.map_eq_some_iff.1 hw
    exact V.substitute ((hdeclared d hd).whereClause w' hw') hf

/-- The formals get the conditions that the procedure's formals have, and a body with a new entry
takes up the assumptions. -/
theorem growsBy_assumePreconditions {P : Cmd → Prop}
    (hj : (assumePreconditions q i).outcome = .ok j) :
    ∃ formals entry, formalMap q i = .ok formals ∧
      ((∀ v ∈ inheritWhereClauses formals.find? q.inputs i.inputs ++
          inheritWhereClauses formals.find? q.outputs i.outputs,
          ∀ w, v.whereClause = some w → P (.assume w)) →
        (∀ r ∈ q.requires, (r.condition.substitute formals.find?).Adds P .assume) →
        Implementation.GrowsBy P { i with
          inputs := inheritWhereClauses formals.find? q.inputs i.inputs
          outputs := inheritWhereClauses formals.find? q.outputs i.outputs, entry } j) := by
  obtain ⟨formals, hf, hj⟩ := Minting.bind_eq_ok.1 hj
  obtain ⟨⟨k, entry⟩, hk, hj⟩ := Minting.bind_eq_ok.1 hj
  obtain ⟨g, hg, hj⟩ := Minting.bind_eq_ok.1 hj
  cases hj
  obtain ⟨rfl, rfl⟩ := Implementation.addFreshBlock_eq_ok hk
  refine ⟨formals, i.blocks.length, hf, fun hwhere hrequires => ?_⟩
  -- The new entry is added to the body with the inherited conditions and assumes these first.
  let formal : Implementation := { i with
    inputs := inheritWhereClauses formals.find? q.inputs i.inputs
    outputs := inheritWhereClauses formals.find? q.outputs i.outputs, entry := i.blocks.length }
  have hadded := Implementation.growsBy_addBlock (P := P) formal
    (formal.freshLabel ("PreconditionGeneratedEntry" ++ "0"))
    (fun c (hc : c ∈ (formal.inputs ++ formal.outputs).filterMap fun v =>
        v.whereClause.map Cmd.assume) => by
      obtain ⟨v, hv, hc⟩ := List.mem_filterMap.1 hc
      obtain ⟨w, hw, rfl⟩ := Option.map_eq_some_iff.1 hc
      exact hwhere v hv w hw)
  refine (hadded.trans (Growth.growsBy_addClauses (fun c hc => ?_) hg)).trans
    (Implementation.growsBy_setTransfer _ _ _)
  obtain ⟨r, hr, rfl⟩ := List.mem_map.1 hc
  exact hrequires r hr

theorem assumePreconditions_within (h : i.Within V) (hq : q.Within V)
    (hj : (assumePreconditions q i).outcome = .ok j) : j.Within V := by
  obtain ⟨formals, entry, hf, hgrows⟩ := growsBy_assumePreconditions (P := Cmd.Within V) hj
  have hsubst := formalMap_within h hf
  have hinputs := inheritWhereClauses_within hsubst hq.inputs h.inputs
  have houtputs := inheritWhereClauses_within hsubst hq.outputs h.outputs
  have hformals : Implementation.Within V { i with
      inputs := inheritWhereClauses formals.find? q.inputs i.inputs
      outputs := inheritWhereClauses formals.find? q.outputs i.outputs, entry } :=
    ⟨hinputs, houtputs, h.locals, h.cmds⟩
  refine hformals.grow (hgrows (fun v hv => ?_) fun r hr => ?_)
  · exact ((List.mem_append.1 hv).elim (hinputs v) (houtputs v)).whereClause
  · exact ((hq.requires r hr).substitute hsubst).adds

end

/-! ## Preparation -/

/-- A body is made ready by its stages in turn. -/
theorem Implementation.prepare_eq_ok {i : Implementation} {q : Procedure} {e : SingleExit} :
    (i.prepare p).outcome = .ok (q, e) ↔ p.procedure? i.name = some q ∧ i.check = .ok () ∧
      ∃ expanded unified asserted assumed, (i.expandCalls p).outcome = .ok expanded ∧
        expanded.unifyExits.outcome = .ok unified ∧
        (assertPostconditions q unified.body unified.exit).outcome = .ok (asserted, e.exit) ∧
        (assumePreconditions q asserted).outcome = .ok assumed ∧ assumed.check = .ok () ∧
        (assumed.splitCriticalEdges : Minting ConditionError _).outcome = .ok e.body ∧
        e.replaced = unified.replaced := by
  unfold prepare
  cases hq : p.procedure? i.name with
  | none => exact iff_of_false (fun h => nomatch h) fun h => nomatch h.1
  | some q' =>
    constructor
    · intro h
      obtain ⟨⟨⟩, hcheck, h⟩ := Minting.bind_eq_ok.1 h
      obtain ⟨expanded, hexpanded, h⟩ := Minting.bind_eq_ok.1 h
      obtain ⟨unified, hunified, h⟩ := Minting.bind_eq_ok.1 h
      obtain ⟨⟨asserted, exit⟩, hasserted, h⟩ := Minting.bind_eq_ok.1 h
      obtain ⟨assumed, hassumed, h⟩ := Minting.bind_eq_ok.1 h
      obtain ⟨⟨⟩, hcheck', h⟩ := Minting.bind_eq_ok.1 h
      obtain ⟨body, hbody, h⟩ := Minting.bind_eq_ok.1 h
      cases h
      exact ⟨rfl, hcheck, expanded, unified, asserted, assumed, hexpanded,
        mapError_eq_ok.1 hunified, hasserted, hassumed, hcheck', hbody, rfl⟩
    · obtain ⟨body, exit, replaced⟩ := e
      rintro ⟨hq, hcheck, expanded, unified, asserted, assumed, hexpanded, hunified, hasserted,
        hassumed, hcheck', hbody, rfl⟩
      cases hq
      exact Minting.bind_eq_ok.2 ⟨(), hcheck, Minting.bind_eq_ok.2 ⟨expanded, hexpanded,
        Minting.bind_eq_ok.2 ⟨unified, mapError_eq_ok.2 hunified, Minting.bind_eq_ok.2
          ⟨(asserted, exit), hasserted, Minting.bind_eq_ok.2 ⟨assumed, hassumed,
            Minting.bind_eq_ok.2 ⟨(), hcheck', Minting.bind_eq_ok.2 ⟨body, hbody, rfl⟩⟩⟩⟩⟩⟩⟩

/-- A body made ready for passification stays within the vocabulary. -/
theorem Implementation.within_prepare {i : Implementation} {q : Procedure} {e : SingleExit}
    (h : i.Within V) (hown : ∀ q, p.procedure? i.name = some q → q.Within V)
    (hcallees : p.CalleesWithin V (i.blocks.flatMap fun b => Cmd.calleesAll b.cmds))
    (hprepare : (i.prepare p).outcome = .ok (q, e)) : q.Within V ∧ e.body.Within V := by
  obtain ⟨hq, -, expanded, unified, asserted, assumed, hexpanded, hunified, hasserted, hassumed, -,
    hbody, -⟩ := prepare_eq_ok.1 hprepare
  have hq := hown q hq
  have hexpanded := h.expandCalls hcallees hexpanded
  have hasserted :=
    assertPostconditions_within (hexpanded.grow (growsBy_unifyExits hunified)) hq hasserted
  have hassumed := assumePreconditions_within hasserted hq hassumed
  exact ⟨hq, hassumed.grow (growsBy_splitCriticalEdges hbody)⟩

/-! ## Declarations -/

namespace Passive

mutual

/-- The locals of the scopes in a command stay within a vocabulary if the command does. -/
theorem within_of_mem_scopeLocals {V : Vocabulary} {v : Variable} : ∀ {c : Cmd}, c.Within V →
    v ∈ scopeLocals c → v.Within V
  | .scope _ _, h, hv => by
    rcases List.mem_append.1 hv with hv | hv
    · exact h.1 v hv
    · exact within_of_mem_scopeLocalsAll h.2 hv
  | .assert _, _, hv | .assume _, _, hv | .assign _, _, hv | .havoc _, _, hv | .call _ _ _, _, hv
  | .comment _, _, hv => by cases hv

/-- The same for several commands. -/
theorem within_of_mem_scopeLocalsAll {V : Vocabulary} {v : Variable} : ∀ {cs : List Cmd},
    Cmd.WithinAll V cs → v ∈ scopeLocalsAll cs → v.Within V
  | _ :: _, h, hv => by
    rcases List.mem_append.1 hv with hv | hv
    · exact within_of_mem_scopeLocals h.1 hv
    · exact within_of_mem_scopeLocalsAll h.2 hv

end

/-- The declarations in force at the start of passification stay within a vocabulary if those of the
globals and the body do. -/
theorem within_of_find?_declarations {i : Implementation} {x : Name} {v : Variable}
    (hglobals : ∀ v ∈ p.globals, v.Within V) (hi : i.Within V)
    (hv : (declarations p i).find? x = some v) : v.Within V := by
  obtain ⟨v, hmem, heq⟩ := List.mem_map.1 (NameMap.mem_of_find?_ofList hv)
  cases heq
  simp only [List.mem_append, List.mem_flatMap] at hmem
  rcases hmem with (((hmem | hmem) | hmem) | hmem) | ⟨b, hb, hmem⟩
  · exact hglobals v hmem
  · exact hi.inputs v hmem
  · exact hi.outputs v hmem
  · exact hi.locals v hmem
  · exact within_of_mem_scopeLocalsAll (hi.of_mem_blocks hb) hmem

end Passive

end Obligations
