import Obligations.Proofs.Condition.Turning
import Obligations.Proofs.Inference.Sites
import Obligations.Proofs.Passive.Polarity

/-!
# What placeholders are used for

A body assumes what the summaries of the procedures that it calls say and asserts its own summary at
the exit. So in the condition of a body, with the conditions of successors copied, a placeholder
occurs as an assumption, or it is the body's own one and is asserted of the end state
(`ConditionSystem.ofProgram_polarized`). If the condition becomes true when placeholders get another
meaning under which more of them are true, it is that the end state is admitted now
(`Node.Polarized.endState_turns`).
-/

namespace Obligations

variable {f : Name}

/-! ## Passive bodies -/

section

variable {e : SingleExit} {b : PassiveImplementation}

/-- The assertion apart, the commands assert nothing that applies the function. -/
theorem Cmd.StatesAround.eq_or_notMem {a a' : Assertion} {cs : List Cmd}
    (h : Cmd.StatesAround (.assuming f) a cs) (ha' : .assert a' ∈ cs) :
    a' = a ∨ f ∉ a'.condition.functions := by
  obtain ⟨before, after, rfl, hstates⟩ := h
  rcases List.mem_append.1 ha' with ha' | ha'
  · exact .inr (hstates _ (List.mem_append_left _ ha')).1
  · rcases List.mem_cons.1 ha' with heq | ha'
    · cases heq
      exact .inl rfl
    · exact .inr (hstates _ (List.mem_append_right _ ha')).1

theorem Implementation.ObeysAround.notMem_functions {i : Implementation} {exit id : Nat}
    {own a : Assertion} (h : i.ObeysAround (.assuming f) exit own) (hid : id ≠ exit)
    (ha : .assert a ∈ i.cmdsAt id) : f ∉ a.condition.functions := by
  rcases h id with hall | ⟨heq, -⟩
  · exact Cmd.obeysAll_iff.1 hall _ ha
  · exact absurd heq hid

/-- The commands of the blocks of an order state what the discipline of an assumed function allows.
The one block may assert an application of `g` once. -/
def PassiveImplementation.StatesOnceAt (b : PassiveImplementation) (exit : Nat) (g f : Name) :
    Prop :=
  ∀ id ∈ b.order, (∀ c ∈ b.body.cmdsAt id, c.StatesOnly (.assuming f)) ∨
    id = exit ∧ ∃ a, a.condition.IsApplicationOf g ∧
      Cmd.StatesAround (.assuming f) a (b.body.cmdsAt id)

namespace PassiveImplementation

variable {exit : Nat} {g : Name}

/-- If each of some functions is assumed only, the exception apart, an assertion applies none of them
or is the exception. -/
theorem notMem_functions_or_isApplicationOf {F : Name → Prop}
    (h : ∀ f, F f → b.StatesOnceAt exit g f) {id : Nat} (hid : id ∈ b.order) {a : Assertion}
    (ha : .assert a ∈ b.body.cmdsAt id) :
    (∀ f, F f → f ∉ a.condition.functions) ∨ a.condition.IsApplicationOf g := by
  have hone : ∀ f, F f → f ∉ a.condition.functions ∨ a.condition.IsApplicationOf g := by
    intro f hf
    rcases h f hf id hid with hall | ⟨-, own, hown, haround⟩
    · exact .inl (hall _ ha).1
    · rcases haround.eq_or_notMem ha with rfl | hnot
      · exact .inr hown
      · exact .inl hnot
  by_cases happ : a.condition.IsApplicationOf g
  · exact .inr happ
  · exact .inl fun f hf => (hone f hf).resolve_right happ

/-- The end state is what an assertion applies the placeholder to. -/
theorem exists_assert_of_endState {terms : List Expr} (h : b.endState = .ok terms) :
    ∃ id a, .assert a ∈ b.body.cmdsAt id ∧
      a.condition = .apply (summaryPredicate b.body.name) terms := by
  unfold endState at h
  dsimp only at h
  cases hfound : (b.body.blocks.flatMap (·.cmds)).findSome?
      (Cmd.assertedArgs? (summaryPredicate b.body.name)) with
  | none =>
    rw [hfound] at h
    cases h
  | some args =>
    rw [hfound] at h
    cases h
    obtain ⟨c, hc, hargs⟩ := List.exists_of_findSome?_eq_some hfound
    obtain ⟨block, hblock, hc⟩ := List.mem_flatMap.1 hc
    obtain ⟨id, hid⟩ := List.mem_iff_getElem?.1 hblock
    -- The command found is in the block of its position.
    have hat : b.body.cmdsAt id = block.cmds := by
      unfold Implementation.cmdsAt
      rw [hid]
      rfl
    -- Only an assertion has arguments to find.
    cases c with
    | assert a =>
      refine ⟨id, a, hat ▸ hc, ?_⟩
      simp only [Cmd.assertedArgs?] at hargs
      split at hargs
      · next heq =>
        split_ifs at hargs with hf
        cases hargs
        rw [heq, hf]
      · cases hargs
    | assume | assign | havoc | call | comment | scope => cases hargs

/-- If the placeholder of a body is asserted once, it is applied to the end state there. -/
theorem eq_apply_endState {own : Assertion} {terms : List Expr}
    (hcmds : e.body.ObeysAround (.assuming (summaryPredicate b.body.name)) exit own)
    (hrest : ∀ id, id ∉ b.order → b.body.cmdsAt id = e.body.cmdsAt id)
    (h : b.StatesOnceAt exit (summaryPredicate b.body.name) (summaryPredicate b.body.name))
    (hterms : b.endState = .ok terms) {id : Nat} (hid : id ∈ b.order) {a : Assertion}
    (ha : .assert a ∈ b.body.cmdsAt id)
    (happ : a.condition.IsApplicationOf (summaryPredicate b.body.name)) :
    a.condition = .apply (summaryPredicate b.body.name) terms := by
  have hmem : ∀ {a : Assertion} {args : List Expr},
      a.condition = .apply (summaryPredicate b.body.name) args →
        summaryPredicate b.body.name ∈ a.condition.functions := fun heq => by
    rw [heq, Expr.mem_functions_apply]
    exact .inl rfl
  obtain ⟨args, hargs, -⟩ := happ
  obtain ⟨id', a', ha', heq⟩ := exists_assert_of_endState hterms
  rcases h id hid with hall | ⟨rfl, own', -, haround⟩
  · exact absurd (hmem hargs) (hall _ ha).1
  -- All other blocks assert nothing that applies the placeholder, whether listed or not.
  have hsame : id' = id := by
    by_contra hne
    refine absurd (hmem heq) ?_
    by_cases hlisted : id' ∈ b.order
    · rcases h id' hlisted with hall | ⟨hexit, -⟩
      · exact (hall _ ha').1
      · exact absurd hexit hne
    · exact hcmds.notMem_functions hne (hrest id' hlisted ▸ ha')
  subst hsame
  have hown : a = own' := (haround.eq_or_notMem ha).resolve_right fun hnot => hnot (hmem hargs)
  have hown' : a' = own' := (haround.eq_or_notMem ha').resolve_right fun hnot => hnot (hmem heq)
  rw [hown, ← hown', heq]

end PassiveImplementation

end

/-! ## Nodes -/

/-- The formula of a node is that of blocks in which each of the functions is assumed only, applied
at the root, except that the node's own placeholder may be asserted of the end state. -/
def Node.Polarized (F : Name → Prop) (n : Node) : Prop :=
  ∃ (i : Implementation) (order : List Nat),
    Condition.inlined i order = .ok n.condition.formula ∧
      ∀ id ∈ order, (∀ e, .assume e ∈ i.cmdsAt id → ∀ f, F f → e.AppliesAtRoot f) ∧
        ∀ a, .assert a ∈ i.cmdsAt id → (∀ f, F f → f ∉ a.condition.functions) ∨
          a.condition = .apply (summaryPredicate n.name) n.endState ∧
            ∀ e ∈ n.endState, ∀ f, f ∉ e.functions

/-- The functions of a kind are not applied in the arguments of one of them. -/
def Expr.Unnested (F : Name → Prop) (e : Expr) : Prop :=
  ∀ f args, F f → .apply f args ∈ e.subexprs → ∀ a ∈ args, ∀ g, F g → g ∉ a.functions

section

variable {F : Name → Prop} {e : Expr}

theorem Expr.unnested_of_appliesAtRoot (h : ∀ f, F f → e.AppliesAtRoot f) : e.Unnested F := by
  intro f args hf hmem a ha g hg hga
  have happ : f ∈ e.functions := mem_functions.2 ⟨args, hmem⟩
  rcases h f hf with hnot | ⟨args', rfl, hargs'⟩
  · exact hnot happ
  rw [subexprs, List.mem_cons] at hmem
  rcases hmem with heq | hmem
  · cases heq
    rcases h g hg with hnot | ⟨args'', heq, hargs''⟩
    · exact hnot (mem_functions_apply.2 (.inr ⟨a, ha, hga⟩))
    · cases heq
      exact hargs'' a ha hga
  · obtain ⟨b, hb, hmem⟩ := mem_subexprsAll.1 hmem
    exact hargs' b hb (mem_functions.2 ⟨args, hmem⟩)

theorem Condition.kept_unnested (F : Name → Prop) : Kept (Expr.Unnested F) where
  bool_true := fun f args _ hmem => absurd hmem (by simp [Expr.bool, Expr.subexprs])
  conj a b ha hb := by
    rcases Expr.conj_cases a b with (rfl | rfl) | (rfl | rfl) | hconj
    · rwa [Expr.conj_true_left]
    · rwa [Expr.conj_false_left]
    · rwa [Expr.conj_true_right]
    · rwa [Expr.conj_false_right]
    · rw [hconj]
      intro f args hf hmem
      simp only [Expr.subexprs, List.mem_cons, List.mem_append, reduceCtorEq, false_or] at hmem
      exact hmem.elim (ha f args hf) (hb f args hf)
  impl a b ha hb := by
    have hbool : ∀ x, (Expr.bool x).Unnested F := fun x f args _ hmem =>
      absurd hmem (by simp [Expr.bool, Expr.subexprs])
    rcases Expr.impl_cases a b with (rfl | rfl) | (rfl | ⟨rfl, hnot⟩) | himpl
    · rwa [Expr.impl_true_left]
    · rw [Expr.impl_false_left]
      exact hbool true
    · rwa [Expr.impl_true_right]
    · rw [hnot]
      intro f args hf hmem
      simp only [Expr.not, Expr.subexprs, List.mem_cons, reduceCtorEq, false_or] at hmem
      exact ha f args hf hmem
    · rw [himpl]
      intro f args hf hmem
      simp only [Expr.subexprs, List.mem_cons, List.mem_append, reduceCtorEq, false_or] at hmem
      exact hmem.elim (ha f args hf) (hb f args hf)

namespace Node.Polarized

variable {n : Node} {v : Valuation} {application : Name → List Value → Option Value}

/-- A formula of placeholders that are assumed and asserted only does not apply a placeholder in the
arguments of another one. -/
theorem unnested (h : n.Polarized F) : n.condition.formula.Unnested F := by
  obtain ⟨i, order, hformula, hcmds⟩ := h
  refine (Condition.kept_unnested F).inlined (fun id hid c hc => ?_) hformula
  cases c with
  | assume e => exact Expr.unnested_of_appliesAtRoot ((hcmds id hid).1 e hc)
  | assert a =>
    refine Expr.unnested_of_appliesAtRoot fun f hf => ?_
    rcases (hcmds id hid).2 a hc with hnot | ⟨heq, hargs⟩
    · exact .inl (hnot f hf)
    · exact Expr.IsApplicationOf.appliesAtRoot ⟨_, heq, hargs⟩ f
  | assign | havoc | call | comment | scope => trivial

/-- If the formula is false, and is true when placeholders have another meaning under which those of
its applications that are true stay true, then the placeholder of the node itself was false of the
end state and is true with the other meaning. -/
theorem endState_turns (h : n.Polarized F)
    (happ : ∀ f, ¬ F f → application f = v.application f)
    (hkeeps : ∀ f args, F f → (Expr.apply f args).Keeps v { v with application }
      n.condition.formula)
    (hbefore : n.condition.formula.eval v = .ok (.bool false))
    (hafter : n.condition.formula.Holds { v with application }) :
    (Expr.apply (summaryPredicate n.name) n.endState).Turns v { v with application }
      n.condition.formula := by
  obtain ⟨i, order, hformula, hcmds⟩ := h
  -- What applies no placeholder has the same value with the other meaning.
  have hsame : ∀ e : Expr, (∀ f, F f → f ∉ e.functions) → e.eval { v with application } = e.eval v :=
    fun e he => e.evalAt_congr .current
      (fun f hf => happ f fun hF => he f hF hf) (fun ⟨t, _⟩ _ => by cases t <;> rfl)
  have hkept : Condition.AssumptionsKept v { v with application } n.condition.formula i order := by
    intro id hid e he hpart hholds
    by_cases hfree : ∀ f, F f → f ∉ e.functions
    · exact (hsame e hfree).trans hholds
    · obtain ⟨f, hf, hmem⟩ : ∃ f, F f ∧ f ∈ e.functions := by
        by_contra hnone
        exact hfree fun f hf hmem => hnone ⟨f, hf, hmem⟩
      rcases (hcmds id hid).1 e he f hf with hnot | ⟨args, rfl, -⟩
      · exact absurd hmem hnot
      · exact hkeeps f args hf hpart hholds
  obtain ⟨id, hid, a, ha, hturns⟩ :=
    Condition.exists_assert_of_turns hformula (.self hbefore hafter) hkept
  rcases (hcmds id hid).2 a ha with hfree | ⟨heq, -⟩
  · cases hturns.before.symm.trans ((hsame a.condition hfree).symm.trans hturns.after)
  · rwa [heq] at hturns

end Node.Polarized

end

/-- The name is that of the placeholder for a body of the program. -/
def Program.IsPlaceholder (p : Program) (f : Name) : Prop :=
  ∃ i ∈ p.implementations, f = summaryPredicate i.name

section

variable {p : Program} {o : GenerationOptions} {hs : List Placeholder} {i : Implementation}
  {n : Node}

/-- Contracts with placeholders ensure them at the root. -/
theorem Program.ensuresAtRoot_attachAll (hp : p.Within (.avoiding f))
    (hfor : List.Forall₂ Placeholder.For hs p.implementations) {m : Name} {q : Procedure}
    (hq : (hs.foldl Program.attach p).procedure? m = some q) : q.EnsuresAtRoot f := by
  rw [procedure?_attachAll] at hq
  obtain ⟨q₀, hq₀, rfl⟩ := Option.map_eq_some_iff.1 hq
  refine ⟨q₀, _, rfl, hp.procedures q₀ (List.mem_of_find?_eq_some hq₀), fun c hc => ?_⟩
  obtain ⟨h, hh, rfl⟩ := List.mem_map.1 hc
  obtain ⟨j, -, hj⟩ := exists_mem_of_forall₂ hfor (List.mem_filter.1 hh).1
  have happ : (Expr.apply h.function.name h.args).IsApplicationOf h.function.name :=
    ⟨h.args, rfl, hj.args⟩
  exact ⟨_, rfl, happ.appliesAtRoot f⟩

/-- The contract of a body's procedure gets the placeholder of the body and no other one. -/
theorem Program.exists_procedure?_attachAll
    (hfor : List.Forall₂ Placeholder.For hs p.implementations)
    (hnodup : (p.implementations.map (·.name)).Nodup) (hi : i ∈ p.implementations)
    {q : Procedure} (hq : (hs.foldl Program.attach p).procedure? i.name = some q) :
    ∃ (q₀ : Procedure), ∃ h ∈ hs, p.procedure? i.name = some q₀ ∧ h.For i ∧
      q = { q₀ with ensures := q₀.ensures ++ [h.clause] } := by
  rw [procedure?_attachAll] at hq
  obtain ⟨q₀, hq₀, rfl⟩ := Option.map_eq_some_iff.1 hq
  obtain ⟨h, hh, hhi⟩ := exists_mem_of_forall₂ hfor.flip hi
  have hbodies : hs.map (·.body) = p.implementations.map (·.name) :=
    map_eq_of_forall₂ hfor fun _ _ hj => hj.body
  refine ⟨q₀, h, hh, hq₀, hhi, ?_⟩
  rw [← hhi.body, filter_eq_singleton Placeholder.body (hbodies ▸ hnodup) hh, List.map_singleton]

/-- In the condition of a body placeholders are assumed, and only the body's own one is asserted, of
the end state. -/
theorem Node.For.polarized (hn : n.For (hs.foldl Program.attach p) o i)
    (hencoding : o.encoding = .inline) (hp : p.LeavesPlaceholders) (hi : i ∈ p.implementations)
    (hfor : List.Forall₂ Placeholder.For hs p.implementations)
    (hnodup : (p.implementations.map (·.name)).Nodup) : n.Polarized p.IsPlaceholder := by
  obtain ⟨b, l₁, l₂, l₃, l₄, hb, hvc, hterms⟩ := hn.condition
  obtain ⟨⟨q, e⟩, l₅, hprepare, hb⟩ := NamingExcept.bind_eq_ok.1 hb
  rw [Minting.run_record] at hprepare
  have hprepare := (Prod.ext_iff.1 hprepare).1
  obtain ⟨l₆, l₇, -, hb⟩ := NamingExcept.bind_eq_ok.1 hb
  rw [Minting.run_record] at hb
  have hb := (Prod.ext_iff.1 hb).1
  -- The formula is that of the passive body, with the conditions of successors copied.
  obtain ⟨⟨formula, names⟩, l₈, hencode, hvc⟩ := NamingExcept.bind_eq_ok.1 hvc
  rw [Minting.run_record, hencoding] at hencode
  obtain ⟨formula, hformula, heq⟩ := Minting.bind_eq_ok.1 (Prod.ext_iff.1 hencode).1
  cases heq
  obtain ⟨l₉, l₁₀, -, hvc⟩ := NamingExcept.bind_eq_ok.1 hvc
  have hvc : n.condition.formula = formula := formula_closeFormula (Prod.ext_iff.1 hvc).1
  -- The contract of the body ensures its own placeholder.
  obtain ⟨hq, -⟩ := Implementation.prepare_eq_ok.1 hprepare
  obtain ⟨q₀, h, -, hq₀, hh, rfl⟩ := Program.exists_procedure?_attachAll hfor hnodup hi hq
  have hready : ∀ f, p.IsPlaceholder f → ∃ own, own.condition.IsApplicationOf h.function.name ∧
      e.body.name = i.name ∧ e.body.WhereAvoids f ∧
        e.body.ObeysAround (.assuming f) e.exit own := by
    rintro f ⟨j, hj, rfl⟩
    have hwithin := hp j hj
    obtain ⟨σ, hσ, hready⟩ := Implementation.prepare_obeysAround (hwithin.implementations i hi)
      (fun m _ q' hq' => Program.ensuresAtRoot_attachAll hwithin hfor hq')
      (hwithin.procedures q₀ (List.mem_of_find?_eq_some hq₀)) hq hprepare
    have happ : (Expr.apply h.function.name h.args).IsApplicationOf h.function.name :=
      ⟨h.args, rfl, hh.args⟩
    refine ⟨_, happ.substAt (fun t m a ha f => ?_) _, hready⟩
    obtain ⟨x, rfl⟩ := hσ m a ha
    exact Expr.notMem_functions_symbol
  have hpassive : ∀ f, p.IsPlaceholder f → (b.body.name = e.body.name ∧
      ∀ id, id ∉ b.order → b.body.cmdsAt id = e.body.cmdsAt id) ∧
      (∀ id ∈ b.order, ∀ c ∈ b.body.cmdsAt id, c.StatesOnly (.rooted f)) ∧
        b.StatesOnceAt e.exit h.function.name f := by
    intro f hf
    obtain ⟨own, hown, -, hwhere, hcmds⟩ := hready f hf
    have hglobals : ∀ v ∈ (hs.foldl Program.attach p).globals, v.Within (.avoiding f) := by
      obtain ⟨j, hj, rfl⟩ := hf
      exact (Program.attachAll_eq hs p).1 ▸ (hp j hj).globals
    obtain ⟨hname, hrest, hblocks⟩ := Passive.passify_around hglobals hwhere hown hcmds hb
    exact ⟨⟨hname, hrest⟩, fun id hid => (hblocks id hid).1, fun id hid => (hblocks id hid).2⟩
  have hself : p.IsPlaceholder (summaryPredicate i.name) := ⟨i, hi, rfl⟩
  obtain ⟨own, hown, hname, -, hcmds⟩ := hready _ hself
  obtain ⟨⟨hname', hrest⟩, -, honce⟩ := hpassive _ hself
  have hbody : summaryPredicate b.body.name = summaryPredicate i.name := by rw [hname', hname]
  refine ⟨b.body, b.order, hvc ▸ hformula, fun id hid => ⟨fun a ha f hf => ?_, fun a ha => ?_⟩⟩
  · exact ((hpassive f hf).2.1 id hid _ ha).1
  · rcases b.notMem_functions_or_isApplicationOf
      (fun f hf => (hpassive f hf).2.2) hid ha with hnot | happ
    · exact .inl hnot
    · rw [hh.name, ← hbody] at happ honce
      have heq := b.eq_apply_endState (hbody ▸ hcmds) hrest (hbody ▸ honce) hterms hid ha happ
      obtain ⟨args, hargs, hfree⟩ := happ
      cases heq.symm.trans hargs
      exact .inr ⟨by rw [heq, hn.name, hbody], hfree⟩

end

/-- The name is that of the placeholder for a body of the system. -/
def ConditionSystem.IsPlaceholder (c : ConditionSystem) (f : Name) : Prop :=
  ∃ n ∈ c.nodes, f = summaryPredicate n.name

/-- In the conditions of a system placeholders are assumed, and only the one of the body itself is
asserted, of the end state. -/
structure ConditionSystem.Polarized (c : ConditionSystem) : Prop where
  /-- The call graph knows all placeholders that occur. -/
  wired : c.Wired
  /-- Bodies have different names. -/
  distinct : (c.nodes.map (·.name)).Nodup
  /-- Placeholders are used so in each condition. -/
  nodes : ∀ n ∈ c.nodes, n.Polarized c.IsPlaceholder

/-- With the conditions of successors copied, the system of a program that does not apply
placeholders itself uses them so. -/
theorem ConditionSystem.ofProgram_polarized {p : Program} {o : GenerationOptions} {l l' : Lexicon}
    {c : ConditionSystem} (hencoding : o.encoding = .inline) (hp : p.LeavesPlaceholders)
    (hc : (ofProgram p o).run l = (.ok c, l')) : c.Polarized := by
  have hw := ofProgram_wired hp hc
  have hnames := hw.names
  rw [implementations_ofProgram hc] at hnames
  have hplaceholders : c.IsPlaceholder = p.IsPlaceholder := by
    funext f
    have hiff : (∃ m ∈ c.nodes.map (·.name), f = summaryPredicate m) ↔
        ∃ m ∈ p.implementations.map (·.name), f = summaryPredicate m := by rw [hnames]
    simpa [IsPlaceholder, Program.IsPlaceholder] using hiff
  obtain ⟨hs, nodes, hfor, hnodup, hall, heq⟩ := ofProgram_eq_ok hc
  refine ⟨hw, hnames ▸ hnodup, fun n hn => ?_⟩
  rw [heq] at hn
  obtain ⟨m, hm, rfl⟩ := List.mem_map.1 hn
  obtain ⟨i, hi, hmi⟩ := exists_mem_of_forall₂ hall hm
  rw [hplaceholders]
  exact hmi.polarized hencoding hp hi hfor hnodup

end Obligations
