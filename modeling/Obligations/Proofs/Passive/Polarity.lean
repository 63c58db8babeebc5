import Obligations.Proofs.Condition.Functions

/-!
# Functions that are only assumed

If the postconditions of a program apply a function at the root, and the program does not apply it
otherwise, then the bodies that are made ready for passification assume what the procedures that they
call ensure, and assert what their own procedure ensures at the exit
(`Implementation.prepare_obeysAround`). Passification keeps this: the passive commands apply the
function at the root of assumptions only, apart from one assertion at the exit
(`Passive.passify_around`).
-/

namespace Obligations

variable {f : Name}

/-! ## Applications at the root -/

namespace Expr

/-- If the expression applies the function, it does so at its root and nowhere else. -/
def AppliesAtRoot (f : Name) (e : Expr) : Prop :=
  f ∉ e.functions ∨ ∃ args, e = .apply f args ∧ ∀ a ∈ args, f ∉ a.functions

variable {e : Expr}

theorem AppliesAtRoot.substAt {r : Moment → Subst} {keepOld : Bool} (h : e.AppliesAtRoot f)
    (hr : ∀ t n a, r t n = some a → f ∉ a.functions) (t : Moment) :
    (e.substAt r keepOld t).AppliesAtRoot f := by
  rcases h with h | ⟨args, rfl, hargs⟩
  · exact .inl (notMem_functions_substAt hr e t h)
  · refine .inr ⟨_, by rw [Expr.substAt], fun a ha hf => ?_⟩
    exact notMem_functions_substAllAt hr args t hargs ⟨a, ha, hf⟩

theorem AppliesAtRoot.substituteOld {g g' : Subst} (h : e.AppliesAtRoot f)
    (hg : ∀ n a, g n = some a → f ∉ a.functions) (hg' : ∀ n a, g' n = some a → f ∉ a.functions) :
    (e.substituteOld g g').AppliesAtRoot f := by
  refine h.substAt (fun t n a ha => ?_) _
  cases t with
  | current => exact hg n a ha
  | entry =>
    rcases Option.or_eq_some_iff.1 ha with ha | ⟨-, ha⟩
    · exact hg' n a ha
    · exact hg n a ha

theorem AppliesAtRoot.standIn {frame map : NameMap Expr} (hframe : frame.Atomic)
    (hmap : map.Atomic) (h : e.AppliesAtRoot f) : (standIn frame map e).AppliesAtRoot f :=
  h.substituteOld (fun n a ha => notMem_functions_of_isAtomic (hmap n a ha))
    fun n a ha => notMem_functions_of_isAtomic (hframe n a ha)

/-- The expression applies a function to arguments that apply none. -/
def IsApplicationOf (g : Name) (e : Expr) : Prop :=
  ∃ args, e = .apply g args ∧ ∀ a ∈ args, ∀ f, f ∉ a.functions

variable {g : Name}

theorem IsApplicationOf.appliesAtRoot (h : e.IsApplicationOf g) (f : Name) :
    e.AppliesAtRoot f := by
  obtain ⟨args, rfl, hargs⟩ := h
  by_cases hfg : f = g
  · exact .inr ⟨args, by rw [hfg], fun a ha => hargs a ha f⟩
  · refine .inl ?_
    rw [mem_functions_apply, not_or]
    exact ⟨hfg, fun ⟨a, ha, hf⟩ => hargs a ha f hf⟩

theorem IsApplicationOf.substAt {r : Moment → Subst} {keepOld : Bool} (h : e.IsApplicationOf g)
    (hr : ∀ t n a, r t n = some a → ∀ f, f ∉ a.functions) (t : Moment) :
    (e.substAt r keepOld t).IsApplicationOf g := by
  obtain ⟨args, rfl, hargs⟩ := h
  refine ⟨_, by rw [Expr.substAt], fun a ha f hf => ?_⟩
  exact notMem_functions_substAllAt (fun t n a h => hr t n a h f) args t
    (fun a ha => hargs a ha f) ⟨a, ha, hf⟩

theorem IsApplicationOf.standIn {frame map : NameMap Expr} (hframe : frame.Atomic)
    (hmap : map.Atomic) (h : e.IsApplicationOf g) : (standIn frame map e).IsApplicationOf g := by
  refine h.substAt (fun t n a ha f => notMem_functions_of_isAtomic ?_) _
  cases t with
  | current => exact hmap n a ha
  | entry =>
    rcases Option.or_eq_some_iff.1 ha with ha | ⟨-, ha⟩
    · exact hframe n a ha
    · exact hmap n a ha

end Expr

namespace Passive.Discipline

/-- The function is applied only at the root of what is asserted or assumed. -/
def rooted (f : Name) : Discipline where
  asserted := Expr.AppliesAtRoot f
  assumed := Expr.AppliesAtRoot f
  value e := f ∉ e.functions
  value_of_isAtomic := notMem_functions_of_isAtomic
  value_standIn := notMem_functions_standIn
  asserted_standIn := .standIn
  assumed_standIn := .standIn
  assumed_conjAll hes := .inl ((avoiding f).assumed_conjAll hes)

/-- The function is applied only at the root of what is assumed. -/
def assuming (f : Name) : Discipline :=
  { rooted f with
    asserted := fun e => f ∉ e.functions
    asserted_standIn := notMem_functions_standIn }

theorem avoiding_le_assuming (f : Name) : (avoiding f).Le (assuming f) :=
  ⟨fun he => he, .inl, fun he => he⟩

theorem assuming_le_rooted (f : Name) : (assuming f).Le (rooted f) :=
  ⟨.inl, fun he => he, fun he => he⟩

end Passive.Discipline

/-- A command that does not apply the function keeps to the discipline. -/
theorem Cmd.Within.obeys_assuming {c : Cmd} (h : c.Within (.avoiding f)) : c.Obeys (.assuming f) :=
  h.obeys.mono (Passive.Discipline.avoiding_le_assuming f)

/-! ## Contracts -/

/-- To a contract that does not apply the function, formulas have been added as postconditions that
apply it at most at the root. -/
def Procedure.EnsuresAtRoot (f : Name) (q : Procedure) : Prop :=
  ∃ (q₀ : Procedure) (clauses : List Ensures),
    q = { q₀ with ensures := q₀.ensures ++ clauses } ∧ q₀.Within (.avoiding f) ∧
      ∀ c ∈ clauses, ∃ e : Expr, c.condition = .formula e ∧ e.AppliesAtRoot f

section

variable {p : Program}

theorem CallSite.notMem_functions_parameters {s : CallSite} (n : Name) (a : Expr)
    (ha : s.parameters n = some a) : f ∉ a.functions := by
  rcases Option.or_eq_some_iff.1 ha with ha | ⟨-, ha⟩
  · obtain ⟨x, -, heq⟩ := List.mem_map.1 (NameMap.mem_of_find?_ofList ha)
    cases heq
    exact Expr.notMem_functions_symbol
  · obtain ⟨x, -, o, -, heq⟩ := exists_of_mem_zipWith (NameMap.mem_of_find?_ofList ha)
    cases heq
    exact Expr.notMem_functions_symbol

theorem CallSite.notMem_functions_entryValues {s : CallSite} (n : Name) (a : Expr)
    (ha : s.entryValues n = some a) : f ∉ a.functions := by
  obtain ⟨g, -, heq⟩ := List.mem_map.1 (NameMap.mem_of_find?_ofList ha)
  cases heq
  exact Expr.notMem_functions_symbol

/-- Which globals a call keeps depends on the name of the procedure and the number of the call. -/
theorem CallSite.globalKeepers_congr (s s' : CallSite) (hcallee : s.callee.name = s'.callee.name)
    (hnumber : s.number = s'.number) (gs : List Name) :
    s.globalKeepers p gs = s'.globalKeepers p gs := by
  induction gs with
  | nil => rfl
  | cons g gs ih =>
    unfold globalKeepers globalKeeper
    rw [ih, hcallee, hnumber]

/-- The expansion of a call only assumes what has been added to the contract. -/
theorem CallSite.expand_obeys {s : CallSite} (hcallee : s.callee.EnsuresAtRoot f)
    (hargs : ∀ a ∈ s.args, f ∉ a.functions) {d : Cmd} (hd : (s.expand p).outcome = .ok d) :
    d.Obeys (.assuming f) := by
  obtain ⟨caller, callee, number, args, outputs⟩ := s
  obtain ⟨q, clauses, rfl, hq, hclauses⟩ := hcallee
  -- The same call of the procedure without the new postconditions.
  let s₀ : CallSite := ⟨caller, q, number, args, outputs⟩
  have hs₀ : s₀.Within (.avoiding f) := ⟨hq, hargs, fun _ _ => trivial⟩
  obtain ⟨checks, hchecks, hd⟩ := Minting.bind_eq_ok.1 hd
  obtain ⟨-, -, hd⟩ := Minting.bind_eq_ok.1 hd
  obtain ⟨globals, hglobals, hd⟩ := Minting.bind_eq_ok.1 hd
  obtain ⟨guarantees, hguarantees, hd⟩ := Minting.bind_eq_ok.1 hd
  cases hd
  have hglobals : (s₀.globalKeepers p q.modifies).outcome = .ok globals :=
    (congrArg Minting.outcome (globalKeepers_congr s₀ ⟨caller,
      { q with ensures := q.ensures ++ clauses }, number, args, outputs⟩ rfl rfl _)).trans hglobals
  have hguarantees : ((q.ensures ++ clauses).mapM fun e => do
      let c ← s₀.formula e.condition
      return Cmd.assume (c.substituteOld s₀.parameters s₀.entryValues)) = .ok guarantees :=
    hguarantees
  rw [List.mapM_append] at hguarantees
  obtain ⟨old, hold, hguarantees⟩ := bind_eq_ok.1 hguarantees
  obtain ⟨new, hnew, hguarantees⟩ := bind_eq_ok.1 hguarantees
  cases hguarantees
  have hwithin := hs₀.expand (p := p) (Minting.bind_eq_ok.2 ⟨checks, hchecks, Minting.bind_eq_ok.2
    ⟨(), rfl, Minting.bind_eq_ok.2 ⟨globals, hglobals, Minting.bind_eq_ok.2 ⟨old, hold, rfl⟩⟩⟩⟩)
  obtain ⟨hlocals, hcmds⟩ := hwithin.obeys_assuming
  refine ⟨hlocals, ?_⟩
  rw [← List.append_assoc]
  refine Cmd.obeysAll_append.2 ⟨hcmds, Cmd.obeysAll_iff.2 fun c hc => ?_⟩
  obtain ⟨clause, hclause, hc⟩ := exists_mem_of_forall₂ (mapM_eq_ok_iff.1 hnew).flip hc
  obtain ⟨e, he, hroot⟩ := hclauses clause hclause
  rw [he] at hc
  cases hc
  exact hroot.substituteOld notMem_functions_parameters notMem_functions_entryValues

/-- In the bodies of a program whose contracts ensure applications of the function at the root, and
that do not apply it otherwise, expanded calls only assume it. -/
theorem Cmd.expandsTo_assuming {caller : Name} : Cmd.ExpandsTo p caller
    (fun c => c.Within (.avoiding f) ∧ ∀ n ∈ c.callees, ∀ q, p.procedure? n = some q →
      q.EnsuresAtRoot f)
    (Cmd.Obeys (.assuming f)) where
  call {callee _ _ _ _ _} h hs hd := by
    unfold callSite at hs
    cases hq : p.procedure? callee with
    | none =>
      rw [hq] at hs
      cases hs
    | some q =>
      simp only [hq] at hs
      split_ifs at hs
      cases hs
      exact CallSite.expand_obeys (h.2 callee (by simp [Cmd.callees]) q hq) h.1.1 hd
  body {_ cs} h c hc := by
    refine ⟨Cmd.withinAll_iff.1 h.1.2 c hc, fun n hn => h.2 n ?_⟩
    exact Cmd.callees_subset_calleesAll hc hn
  scope h hds := ⟨h.1.obeys_assuming.1, Cmd.obeysAll_iff.2 hds⟩
  other h := h.1.obeys_assuming

end

/-! ## Preparation -/

/-- The commands of a body keep to a discipline, but one block may make one more assertion. -/
def Implementation.ObeysAround (D : Passive.Discipline) (exit : Nat) (a : Assertion)
    (i : Implementation) : Prop :=
  ∀ id, Cmd.ObeysAll D (i.cmdsAt id) ∨ id = exit ∧ ∃ before after,
    i.cmdsAt id = before ++ .assert a :: after ∧ Cmd.ObeysAll D before ∧ Cmd.ObeysAll D after

section

open Implementation

variable {p : Program} {i j : Implementation} {q : Procedure} {exit exit' : Nat}

theorem Implementation.GrowsBy.obeysAll {D : Passive.Discipline} (h : GrowsBy (Cmd.Obeys D) i j)
    (hi : ∀ id, Cmd.ObeysAll D (i.cmdsAt id)) (id : Nat) : Cmd.ObeysAll D (j.cmdsAt id) := by
  obtain ⟨cs, hcs, hobeys⟩ := h.cmdsAt id
  rw [hcs]
  exact Cmd.obeysAll_append.2 ⟨hi id, Cmd.obeysAll_iff.2 hobeys⟩

theorem Implementation.GrowsBy.obeysAround {D : Passive.Discipline} {a : Assertion}
    (h : GrowsBy (Cmd.Obeys D) i j) (hi : i.ObeysAround D exit a) : j.ObeysAround D exit a := by
  intro id
  obtain ⟨cs, hcs, hobeys⟩ := h.cmdsAt id
  have hobeys := Cmd.obeysAll_iff.2 hobeys
  rw [hcs]
  rcases hi id with hall | ⟨rfl, before, after, hat, hbefore, hafter⟩
  · exact .inl (Cmd.obeysAll_append.2 ⟨hall, hobeys⟩)
  · refine .inr ⟨rfl, before, after ++ cs, ?_, hbefore, Cmd.obeysAll_append.2 ⟨hafter, hobeys⟩⟩
    rw [hat, List.append_assoc, List.cons_append]

/-- What stands for the formals of a procedure are names. -/
theorem eq_symbol_of_formalMap {formals : NameMap Expr} (h : formalMap q i = .ok formals) {n : Name}
    {a : Expr} (ha : formals.find? n = some a) : ∃ m, a = .symbol m := by
  unfold formalMap at h
  split_ifs at h
  cases h
  obtain ⟨x, -, v, -, heq⟩ := exists_of_mem_zipWith (NameMap.mem_of_find?_ofList ha)
  cases heq
  exact ⟨_, rfl⟩

theorem notMem_functions_of_formalMap {formals : NameMap Expr} (h : formalMap q i = .ok formals)
    (n : Name) (a : Expr) (ha : formals.find? n = some a) : f ∉ a.functions := by
  obtain ⟨m, rfl⟩ := eq_symbol_of_formalMap h ha
  exact Expr.notMem_functions_symbol

theorem Growth.addClauses_append {title : String} : ∀ {cs ds : List (Splice × Condition)}
    {g g' : Growth}, (g.addClauses title (cs ++ ds)).outcome = .ok g' →
      ∃ g₁, (g.addClauses title cs).outcome = .ok g₁ ∧ (g₁.addClauses title ds).outcome = .ok g'
  | [], _, g, _, h => ⟨g, rfl, h⟩
  | (s, c) :: cs, ds, g, g', h => by
    obtain ⟨g₁, hg₁, h⟩ := Minting.bind_eq_ok.1 h
    obtain ⟨g₂, hg₂, h⟩ := addClauses_append h
    exact ⟨g₂, Minting.bind_eq_ok.2 ⟨g₁, hg₁, hg₂⟩, h⟩

theorem Condition.Adds.mono {P Q : Cmd → Prop} {s : Splice} {c : Condition} (h : c.Adds P s)
    (hPQ : ∀ c, P c → Q c) : c.Adds Q s := by
  cases c with
  | formula e => exact hPQ _ h
  | blocks bs => exact fun b hb =>
      ⟨fun c hc => hPQ c ((h b hb).1 c hc), fun e he => hPQ _ ((h b hb).2 e he)⟩

/-- A body that asserts a contract to which a formula has been added asserts the formula last. -/
theorem assertPostconditions_obeysAround {e : Expr} {attributes : List Name}
    {note : Option String} (hi : ∀ id, Cmd.ObeysAll (.assuming f) (i.cmdsAt id))
    (hq : q.Within (.avoiding f))
    (hj : (assertPostconditions
      { q with ensures := q.ensures ++ [⟨.formula e, false, attributes, note⟩] } i exit).outcome =
        .ok (j, exit')) :
    ∃ formals, formalMap q i = .ok formals ∧ (∃ blocks, j = { i with blocks }) ∧
      j.ObeysAround (.assuming f) exit' ⟨e.substitute formals.find?, .ensures note, none, none⟩ := by
  obtain ⟨formals, hf, hj⟩ := Minting.bind_eq_ok.1 hj
  obtain ⟨g, hg, hj⟩ := Minting.bind_eq_ok.1 hj
  cases hj
  dsimp only at hg
  rw [List.filter_append, List.map_append] at hg
  -- The formula that is added is the last clause, so the others are asserted before it.
  obtain ⟨g₁, hg₁, hg⟩ := Growth.addClauses_append hg
  obtain ⟨g₂, hg₂, hg⟩ := Minting.bind_eq_ok.1 hg
  cases hg
  cases hg₂
  have hf : formalMap q i = .ok formals := hf
  have hgrows : GrowsBy (Cmd.Obeys (.assuming f)) i g₁.body := by
    refine Growth.growsBy_addClauses (fun c hc => ?_) hg₁
    obtain ⟨r, hr, rfl⟩ := List.mem_map.1 hc
    exact ((hq.ensures r (List.mem_filter.1 hr).1).substitute
      (notMem_functions_of_formalMap hf)).adds.mono fun _ => Cmd.Within.obeys_assuming
  obtain ⟨blocks, hblocks⟩ := hgrows.rest
  refine ⟨formals, hf, ⟨_, by rw [hblocks]; rfl⟩, fun id => ?_⟩
  rw [cmdsAt_pushCmd]
  split_ifs with hid
  · exact .inr ⟨hid.1, g₁.body.cmdsAt id, [], rfl, hgrows.obeysAll hi id, trivial⟩
  · exact .inl (hgrows.obeysAll hi id)

/-- In a body whose calls are expanded the function is assumed only. -/
theorem Implementation.expandCalls_obeys (hi : i.Within (.avoiding f))
    (hcallees : ∀ n ∈ i.blocks.flatMap fun b => Cmd.calleesAll b.cmds, ∀ q,
      p.procedure? n = some q → q.EnsuresAtRoot f) (hj : (i.expandCalls p).outcome = .ok j) :
    (∃ blocks, j = { i with blocks }) ∧ ∀ id, Cmd.ObeysAll (.assuming f) (j.cmdsAt id) := by
  rw [Implementation.expandCalls] at hj
  obtain ⟨blocks, hblocks, hj⟩ := Minting.bind_eq_ok.1 hj
  cases hj
  refine ⟨⟨blocks, rfl⟩, forall_cmdsAt trivial fun b hb => Cmd.obeysAll_iff.2 ?_⟩
  refine Cmd.expandsTo_assuming.expandBlocks (fun b hb c hc => ⟨?_, fun n hn => ?_⟩) hblocks b hb
  · exact Cmd.withinAll_iff.1 (hi.of_mem_blocks hb) c hc
  · exact hcallees n (List.mem_flatMap.2 ⟨b, hb, Cmd.callees_subset_calleesAll hc hn⟩)

/-- No condition on a variable of the body applies the function. -/
def Implementation.WhereAvoids (f : Name) (i : Implementation) : Prop :=
  ∀ v ∈ i.inputs ++ i.outputs ++ i.locals, ∀ w, v.whereClause = some w → f ∉ w.functions

/-- A body to whose contract a formula has been added is made ready. If it applies the function only
in calls, it asserts the formula once and assumes the function otherwise. -/
theorem Implementation.prepare_obeysAround {q' : Procedure} {a : Expr} {attributes : List Name}
    {note : Option String} {e : SingleExit} (hi : i.Within (.avoiding f))
    (hcallees : ∀ n ∈ i.blocks.flatMap fun b => Cmd.calleesAll b.cmds, ∀ q,
      p.procedure? n = some q → q.EnsuresAtRoot f)
    (hq : q.Within (.avoiding f)) (hown : p.procedure? i.name =
      some { q with ensures := q.ensures ++ [⟨.formula a, false, attributes, note⟩] })
    (hprepare : (i.prepare p).outcome = .ok (q', e)) :
    ∃ σ : Subst, (∀ n b, σ n = some b → ∃ m, b = .symbol m) ∧ e.body.name = i.name ∧
      e.body.WhereAvoids f ∧
      e.body.ObeysAround (.assuming f) e.exit ⟨a.substitute σ, .ensures note, none, none⟩ := by
  obtain ⟨hq', -, expanded, unified, asserted, assumed, hexpanded, hunified, hasserted, hassumed, -,
    hbody, -⟩ := prepare_eq_ok.1 hprepare
  cases hown.symm.trans hq'
  obtain ⟨⟨blocks, rfl⟩, hcalls⟩ := expandCalls_obeys hi hcallees hexpanded
  obtain ⟨body, uniqueExit, replaced⟩ := unified
  have hunified : GrowsBy (Cmd.Obeys (.assuming f)) { i with blocks } body :=
    growsBy_unifyExits hunified
  obtain ⟨blocks', rfl⟩ := hunified.rest
  obtain ⟨formals, hf, ⟨blocks₁, rfl⟩, haround⟩ :=
    assertPostconditions_obeysAround (hunified.obeysAll hcalls) hq hasserted
  obtain ⟨formals', entry, hf', hgrows⟩ :=
    growsBy_assumePreconditions (P := Cmd.Obeys (.assuming f)) hassumed
  -- The stages after the assertion of the postconditions assume clauses in which parameters stand
  -- for parameters.
  have hsubst : ∀ n b, formals'.find? n = some b → f ∉ b.functions :=
    notMem_functions_of_formalMap hf'
  have hinputs := inheritWhereClauses_within hsubst hq.inputs hi.inputs
  have houtputs := inheritWhereClauses_within hsubst hq.outputs hi.outputs
  have hgrows := (hgrows (fun v hv w hw => ?_) fun r hr => ?_).trans
    (growsBy_splitCriticalEdges hbody)
  · obtain ⟨blocks₂, hrest⟩ := hgrows.rest
    refine ⟨formals.find?, fun n b => eq_symbol_of_formalMap hf, by rw [hrest], ?_,
      hgrows.obeysAround haround⟩
    rw [hrest]
    intro v hv
    rcases List.mem_append.1 hv with hv | hv
    · exact (List.mem_append.1 hv).elim (fun hv => (hinputs v hv).whereClause)
        fun hv => (houtputs v hv).whereClause
    · exact (hi.locals v hv).whereClause
  · exact .inl <| (List.mem_append.1 hv).elim (fun hv => (hinputs v hv).whereClause w hw)
      fun hv => (houtputs v hv).whereClause w hw
  · exact ((hq.requires r hr).substitute hsubst).adds.mono fun _ => Cmd.Within.obeys_assuming

end

/-! ## Passive bodies -/

section

variable {p : Program} {q : Procedure} {e : SingleExit} {b : PassiveImplementation}

/-- The commands state what a discipline allows, and assert one condition besides. -/
def Cmd.StatesAround (D : Passive.Discipline) (a : Assertion) (cs : List Cmd) : Prop :=
  ∃ before after, cs = before ++ .assert a :: after ∧ ∀ c ∈ before ++ after, c.StatesOnly D

/-- A body that assumes a function, and asserts an application of some function once, becomes a
passive body that does. -/
theorem Passive.passify_around {l : Lexicon} {prune : Bool} {g : Name} {own : Assertion}
    (hglobals : ∀ v ∈ p.globals, v.Within (.avoiding f)) (hwhere : e.body.WhereAvoids f)
    (hown : own.condition.IsApplicationOf g)
    (hcmds : e.body.ObeysAround (.assuming f) e.exit own)
    (hb : (passify l prune p q e).outcome = .ok b) :
    b.body.name = e.body.name ∧ (∀ id, id ∉ b.order → b.body.cmdsAt id = e.body.cmdsAt id) ∧
      ∀ id ∈ b.order, (∀ c ∈ b.body.cmdsAt id, c.StatesOnly (.rooted f)) ∧
        ((∀ c ∈ b.body.cmdsAt id, c.StatesOnly (.assuming f)) ∨ id = e.exit ∧
          ∃ a, a.condition.IsApplicationOf g ∧
            Cmd.StatesAround (.assuming f) a (b.body.cmdsAt id)) := by
  -- The assertion of its own applies the function at the root, and the other commands only assume
  -- it.
  have hrooted : ∀ id, Cmd.ObeysAll (.rooted f) (e.body.cmdsAt id) := by
    intro id
    rcases hcmds id with hall | ⟨-, before, after, hat, hbefore, hafter⟩
    · exact hall.mono (Discipline.assuming_le_rooted f)
    · rw [hat]
      have hle := Discipline.assuming_le_rooted f
      exact Cmd.obeysAll_append.2 ⟨hbefore.mono hle, hown.appliesAtRoot f, hafter.mono hle⟩
  have hversions : (initialVersions p e.body).Obeys (.rooted f) := by
    refine initialVersions_obeys (fun v hv w hw => .inl ?_) hrooted
    rw [List.append_assoc, List.append_assoc, List.mem_append] at hv
    rcases hv with hv | hv
    · exact (hglobals v hv).whereClause w hw
    · exact hwhere v (by rwa [List.append_assoc]) w hw
  obtain ⟨-, ⟨-, hname⟩, -, hrest, hturns⟩ := passify_obeys hversions hrooted hb
  have hframe := atomic_frame q.modifies
  refine ⟨hname, hrest, fun id hid => ⟨(hturns id hid).statesOnly hframe (hrooted id), ?_⟩⟩
  have hassuming := TurnsInto.of_assumed (D := .rooted f) (.assuming f) (fun _ he => he)
    (hturns id hid)
  rcases hcmds id with hall | ⟨rfl, before, after, hat, hbefore, hafter⟩
  · exact .inl (hassuming.statesOnly hframe hall)
  · rw [hat] at hassuming
    obtain ⟨map, a, before', after', hmap, ha, hds, hstates⟩ :=
      hassuming.statesOnly_around hframe hbefore hafter
    exact .inr ⟨rfl, a, ha ▸ hown.standIn hframe hmap, before', after', hds,
      List.forall_mem_append.2 hstates⟩

end

end Obligations
