import Obligations.Proofs.Passive.FreshNames
import Obligations.Proofs.Typing.Call

/-!
# Typing of bodies made ready

A body that is made ready for passification is well-typed over the names that were in force in it
(`Implementation.Typed.ready`). The locals of the scopes that its calls become are new over these
names and have one type each (`Implementation.WellNamed.declaresAnew`), if no name of the program has
the form of the name of such a local, and none has the form of the name of a version.
-/

namespace Obligations

open Passive (scopeLocals scopeLocalsAll)

variable {p : Program} {i j : Implementation} {q : Procedure} {σ : Signature} {ds : List Variable}

/-! ## Names of locals -/

/-- The variables have names without a kind so far, and those of one name have one type. -/
structure Signature.DeclaresAnew (σ : Signature) (ds : List Variable) : Prop where
  /-- The names have no kind so far. -/
  new : ∀ v ∈ ds, σ.symbol v.name = none
  /-- Variables of one name have one type. -/
  ty : ∀ v ∈ ds, ∀ w ∈ ds, v.name = w.name → v.ty = w.ty

/-- The declaration of new variables leaves the kinds that there are. -/
theorem Signature.DeclaresAnew.le (h : σ.DeclaresAnew ds) : σ.Le (σ.declare ds) where
  symbol n k hn := by
    rcases symbol_declare_cases σ ds n with ⟨v, hv, rfl, -⟩ | ⟨-, hkind⟩
    · rw [h.new v hv] at hn
      cases hn
    · exact hkind.trans hn
  function _ _ hf := hf

theorem Signature.DeclaresAnew.agrees (h : σ.DeclaresAnew ds) :
    ∀ v ∈ ds, (σ.declare ds).Agrees v := by
  intro v hv
  rcases symbol_declare_cases σ ds v.name with ⟨w, hw, hname, hkind⟩ | ⟨hnot, -⟩
  · exact hkind.trans (congrArg Ty.kind? (h.ty w hw v hv hname))
  · exact absurd (List.mem_map_of_mem hv) hnot

/-- The name has none of the forms of names that are made up: that of a version and those of the
locals of calls. -/
structure Name.Plain (n : Name) : Prop where
  /-- It is not that of a version. -/
  versionless : n.Versionless
  /-- It is not that of a local that keeps an argument. -/
  ne_inputKeeper : ∀ (s : CallSite) x, n ≠ s.inputKeeper x
  /-- It is not that of a local that keeps a global. -/
  ne_globalKeeper : ∀ (s : CallSite) g, n ≠ s.globalKeeper g

/-- A name is plain if it contains no separator and does not begin like the name of a local of a
call. -/
theorem Name.Plain.of_toList {n : Name} (hversion : '@' ∉ n.text.toList)
    (hcall : ¬ "call".toList <+: n.text.toList) : n.Plain where
  versionless := ne_incarnation hversion
  ne_inputKeeper s x := by
    rintro rfl
    refine hcall ⟨(toString s.number ++ "formal" ++ x.text).toList, ?_⟩
    simp [CallSite.inputKeeper]
  ne_globalKeeper s g := by
    rintro rfl
    refine hcall ⟨(toString s.number ++ "old" ++ g.text).toList, ?_⟩
    simp [CallSite.globalKeeper]

/-- The names that a body and the globals have are distinct and plain, and no formal is named like a
global. -/
structure Implementation.WellNamed (p : Program) (i : Implementation) : Prop where
  /-- The names are distinct. -/
  nodup : ((p.globals ++ i.declared).map (·.name)).Nodup
  /-- They are plain. -/
  plain : ∀ v ∈ p.globals ++ i.declared, v.name.Plain
  /-- No formal is named like a global. -/
  formals : ∀ q ∈ p.procedures, ∀ x ∈ q.inputs ++ q.outputs, p.global? x.name = none

/-- A name with a kind in a body is that of a global, of a parameter or of a local. -/
theorem Implementation.mem_of_symbol_signature {n : Name} {k : Kind}
    (hn : (i.signature p).symbol n = some k) :
    n ∈ (p.globals ++ (i.inputs ++ i.outputs ++ i.locals)).map (·.name) := by
  rw [List.map_append, List.mem_append]
  rcases Signature.symbol_declare_cases p.signature (i.inputs ++ i.outputs ++ i.locals) n with
    ⟨v, hv, rfl, -⟩ | ⟨-, hkind⟩
  · exact .inr (List.mem_map_of_mem hv)
  · exact .inl (Program.mem_of_symbol_signature (hkind.symm.trans hn))

namespace Implementation.WellNamed

variable (h : i.WellNamed p)

include h

theorem declares (hp : p.WellTyped) : p.Declares :=
  ⟨hp.globals, hp.procedures, h.formals⟩

/-- The names outside of scopes are distinct from each other and from those of the locals of
scopes. -/
theorem nodup_append : ((p.globals ++ (i.inputs ++ i.outputs ++ i.locals)).map (·.name) ++
    (i.blocks.flatMap fun b => scopeLocalsAll b.cmds).map (·.name)).Nodup := by
  have hnodup := h.nodup
  unfold Implementation.declared at hnodup
  rwa [← List.append_assoc, List.map_append] at hnodup

/-- The names of globals are not those of variables of the body. -/
theorem nodup_outer : (p.globals.map (·.name) ++
    (i.inputs ++ i.outputs ++ i.locals).map (·.name)).Nodup := by
  have hnodup := h.nodup_append.of_append_left
  rwa [List.map_append] at hnodup

/-- Names in force in a body are plain. -/
theorem plain_of_symbol {n : Name} {k : Kind} (hn : (i.signature p).symbol n = some k) :
    n.Plain := by
  obtain ⟨v, hv, rfl⟩ := List.mem_map.1 (mem_of_symbol_signature hn)
  refine h.plain v ?_
  unfold Implementation.declared
  rw [← List.append_assoc]
  exact List.mem_append_left _ hv

/-- The globals of the program are in force in a body. -/
theorem signature_le : p.signature.Le (i.signature p) where
  symbol n k hn := by
    have hglobal := Program.mem_of_symbol_signature hn
    have hnodup := List.nodup_append.1 h.nodup_outer
    rw [Implementation.signature,
      Signature.symbol_declare_of_not_mem fun hmem => hnodup.2.2 n hglobal n hmem rfl]
    exact hn
  function _ _ hf := hf

/-- The variables of a body have the kinds of their types in it. -/
theorem agrees {v : Variable} (hv : v ∈ i.inputs ++ i.outputs ++ i.locals) :
    (i.signature p).Agrees v :=
  Signature.agrees_declare_of_nodup _ h.nodup_outer.of_append_right hv

end Implementation.WellNamed

/-! ## The locals of calls -/

/-- A local of a call has the form of the name of a version only if the input or the global that it
keeps has. -/
theorem CallSite.Keeps.versionless {s : CallSite} {v : Variable} (hv : s.Keeps p v)
    (hinputs : ∀ x ∈ s.callee.inputs, x.name.Versionless)
    (hglobals : ∀ g ∈ p.globals, g.name.Versionless) : v.name.Versionless := by
  have happend : ∀ (kind : String) (x : Name), '@' ∉ kind.toList → x.Versionless →
      Name.Versionless ⟨"call" ++ toString s.number ++ kind ++ x.text⟩ := by
    intro kind x hkind hx
    refine hx.append ?_
    have hdigits := Name.separator_not_mem_toDigits s.number
    simpa [String.toList_append, Nat.toString_eq_repr, Nat.toList_repr] using ⟨hdigits, hkind⟩
  rcases hv with ⟨x, hx, hname, -⟩ | ⟨g, -, d, hd, hname, -⟩
  · exact hname ▸ happend "formal" x.name (by decide) (hinputs x hx)
  · obtain ⟨hmem, rfl⟩ := Program.mem_globals_of_global? hd
    exact hname ▸ happend "old" d.name (by decide) (hglobals d hmem)

/-- A plain name is not that of a local of a call. -/
theorem Name.Plain.ne_of_keeps {n : Name} (hn : n.Plain) {s : CallSite} {v : Variable}
    (hv : s.Keeps p v) : n ≠ v.name := by
  rcases hv with ⟨x, -, hname, -⟩ | ⟨g, -, -, -, hname, -⟩
  · exact hname ▸ hn.ne_inputKeeper s x.name
  · exact hname ▸ hn.ne_globalKeeper s g

section

variable (h : i.WellNamed p) (hj : (i.expandCalls p).outcome = .ok j) {v w : Variable}

include hj

/-- A local of a scope of a body whose calls are expanded is one of the body or keeps an argument or
a global for a call. -/
theorem Implementation.keeps_of_mem_expandCalls
    (hv : v ∈ j.blocks.flatMap fun b => scopeLocalsAll b.cmds) :
    v ∈ i.blocks.flatMap (fun b => scopeLocalsAll b.cmds) ∨
      p.KeptFor i.name 0 i.callees v := by
  obtain ⟨blocks, hblocks, hj⟩ := Minting.bind_eq_ok.1 hj
  cases hj
  exact keeps_of_mem_blocks hblocks hv

include h

/-- The locals of the scopes of a body whose calls are expanded have no names of versions, if the
inputs of the procedures that it calls have none. -/
theorem Implementation.WellNamed.versionless (hcallees : ∀ callee ∈ i.callees, ∀ q,
      p.procedure? callee = some q → ∀ x ∈ q.inputs, x.name.Versionless)
    (hv : v ∈ j.blocks.flatMap fun b => scopeLocalsAll b.cmds) : v.name.Versionless := by
  rcases Implementation.keeps_of_mem_expandCalls hj hv with hv | ⟨k, callee, q, hk, hq, hkeeps⟩
  · exact (h.plain v (List.mem_append_right _ (List.mem_append_right _ hv))).versionless
  · exact hkeeps.versionless (hcallees callee (List.mem_of_getElem? hk) q hq)
      fun g hg => (h.plain g (List.mem_append_left _ hg)).versionless

/-- The locals of the scopes of a body whose calls are expanded are new over the names in force in
it. -/
theorem Implementation.WellNamed.declaresAnew (hprocedures : ∀ q ∈ p.procedures, q.Typed p) :
    (i.signature p).DeclaresAnew (j.blocks.flatMap fun b => scopeLocalsAll b.cmds) where
  new v hv := by
    rw [Option.eq_none_iff_forall_ne_some]
    intro k hn
    rcases keeps_of_mem_expandCalls hj hv with hv | ⟨_, _, _, -, -, hkeeps⟩
    · exact (List.nodup_append.1 h.nodup_append).2.2 _ (mem_of_symbol_signature hn) _
        (List.mem_map_of_mem hv) rfl
    · exact (h.plain_of_symbol hn).ne_of_keeps hkeeps rfl
  ty v hv w hw hname := by
    have hplain : ∀ v ∈ i.blocks.flatMap (fun b => scopeLocalsAll b.cmds), v.name.Plain :=
      fun v hv => h.plain v (List.mem_append_right _ (List.mem_append_right _ hv))
    rcases keeps_of_mem_expandCalls hj hv with hv | ⟨k, callee, q, hk, hq, hkeeps⟩ <;>
      rcases keeps_of_mem_expandCalls hj hw with hw | ⟨k', callee', q', hk', hq', hkeeps'⟩
    · rw [List.inj_on_of_nodup_map h.nodup_append.of_append_right hv hw hname]
    · exact absurd hname ((hplain v hv).ne_of_keeps hkeeps')
    · exact absurd hname.symm ((hplain w hw).ne_of_keeps hkeeps)
    · refine hkeeps.ty_eq hkeeps' (fun heq => ?_) ?_ hname
      · -- Calls of one number are one call.
        rw [Nat.zero_add, Nat.zero_add] at heq
        obtain rfl : k = k' := heq
        cases hk.symm.trans hk'
        exact Option.some.inj (hq.symm.trans hq')
      · exact (hprocedures q (List.mem_of_find?_eq_some hq)).nodup_inputs

end

/-! ## Bodies over a signature -/

/-- The body is well-typed over a signature, of whose names it declares all that are no globals, and
its scopes declare some of given variables. -/
structure Implementation.TypedOver (p : Program) (σ : Signature) (ds : List Variable)
    (i : Implementation) : Prop where
  /-- Its variables have the kinds of their types, and the conditions on them are formulas. -/
  vars : ∀ v ∈ i.inputs ++ i.outputs ++ i.locals, v.Typed σ ∧ σ.Agrees v
  /-- Every name of the signature is declared. -/
  names : ∀ n k, σ.symbol n = some k →
    n ∈ (p.globals ++ (i.inputs ++ i.outputs ++ i.locals)).map (·.name)
  /-- Its commands. -/
  cmds : ∀ id, Cmd.TypedAll p σ (i.cmdsAt id)
  /-- The locals of its scopes. -/
  scopes : ∀ id, scopeLocalsAll (i.cmdsAt id) ⊆ ds

/-- The command is well-typed over a signature and declares nothing. -/
def Cmd.FlatTyped (p : Program) (σ : Signature) (c : Cmd) : Prop :=
  c.Typed p σ ∧ scopeLocals c = []

theorem Implementation.TypedOver.grow (h : i.TypedOver p σ ds)
    (hj : GrowsBy (Cmd.FlatTyped p σ) i j) : j.TypedOver p σ ds := by
  obtain ⟨blocks, rfl⟩ := hj.rest
  refine ⟨h.vars, h.names, fun id => ?_, fun id v hv => ?_⟩
  all_goals obtain ⟨cs, hcs, hflat⟩ := hj.cmdsAt id
  · rw [hcs, Cmd.typedAll_append]
    exact ⟨h.cmds id, Cmd.typedAll_iff.2 fun c hc => (hflat c hc).1⟩
  · rw [hcs] at hv
    obtain ⟨c, hc, hv⟩ := Passive.mem_scopeLocalsAll.1 hv
    rcases List.mem_append.1 hc with hc | hc
    · exact h.scopes id (Passive.mem_scopeLocalsAll.2 ⟨c, hc, hv⟩)
    · rw [(hflat c hc).2] at hv
      cases hv

/-- A condition that declares nothing adds well-typed commands, if its names are replaced by names
of their kinds. -/
theorem Condition.Typed.adds {c : Condition} {τ : Signature} (hc : c.Typed p τ)
    (hdeclared : c.declared = []) {f : Subst} (hf : τ.Renames σ f) (s : Splice) :
    (c.substitute f).Adds (Cmd.FlatTyped p σ) s := by
  -- An expression is asserted or assumed as it is, with its names replaced.
  have hcmd : ∀ e : Expr, e.kind? τ = some .bool → (s.cmd (e.substitute f)).FlatTyped p σ := by
    intro e he
    have he := Expr.kind?_substitute hf.replaces he
    cases s <;> exact ⟨he, rfl⟩
  cases c with
  | formula e => exact hcmd e hc
  | blocks bs =>
    refine List.forall_mem_map.2 fun b hb => ⟨fun c hc' => ?_, fun e he => ?_⟩
    · have hlocals : scopeLocalsAll b.cmds = [] := List.flatMap_eq_nil_iff.1 hdeclared b hb
      have hlocals' : scopeLocalsAll (Cmd.substituteAll f b.cmds) = [] :=
        (Passive.scopeLocalsAll_substituteAll f b.cmds).trans hlocals
      refine ⟨Cmd.typedAll_iff.1 ((hc b hb).1.substituteAll hf hlocals) c hc', ?_⟩
      rw [List.eq_nil_iff_forall_not_mem] at hlocals' ⊢
      exact fun v hv => hlocals' v (Passive.mem_scopeLocalsAll.2 ⟨c, hc', hv⟩)
    · cases hexit : b.exit with
      | goto targets =>
        rw [ContractBlock.substitute, hexit] at he
        cases he
      | ret value =>
        rw [ContractBlock.substitute, hexit] at he
        cases he
        exact hcmd value ((hc b hb).2 value hexit)

/-! ## Stages -/

/-- The conditions of the contract declare nothing. -/
structure Procedure.FlatContract (q : Procedure) : Prop where
  /-- The preconditions declare nothing. -/
  requires : ∀ r ∈ q.requires, r.condition.declared = []
  /-- The postconditions declare nothing. -/
  ensures : ∀ e ∈ q.ensures, e.condition.declared = []

/-- The procedure has a contract that a body can take up. -/
structure Procedure.Splices (p : Program) (q : Procedure) : Prop where
  /-- Its declaration is well-typed. -/
  typed : q.Typed p
  /-- Its formals are not named like globals. -/
  formals : ∀ x ∈ q.inputs ++ q.outputs, p.global? x.name = none
  /-- The conditions of its contract declare nothing. -/
  flat : q.FlatContract

/-- The formals of the body have the types of those of the procedure. -/
def Implementation.Matches (q : Procedure) (i : Implementation) : Prop :=
  List.Forall₂ (fun x v => v.ty = x.ty) (q.inputs ++ q.outputs) (i.inputs ++ i.outputs)

/-- Over the inputs of a procedure names have the kinds that they have over all its formals. -/
theorem Procedure.Splices.le (hq : q.Splices p) : (p.signature.declare q.inputs).Le
    (p.signature.declare (q.inputs ++ q.outputs)) where
  symbol n k hn := by
    rcases Signature.symbol_declare_cases p.signature q.inputs n with
      ⟨x, hx, rfl, hkind⟩ | ⟨-, hkind⟩
    · have hagrees : (p.signature.declare (q.inputs ++ q.outputs)).Agrees x :=
        Signature.agrees_declare_of_nodup _ hq.typed.nodup (List.mem_append_left _ hx)
      exact hagrees.trans (hkind.symm.trans hn)
    · have hglobal := hkind.symm.trans hn
      rw [Signature.symbol_declare_of_not_mem fun hmem => ?_]
      · exact hglobal
      · obtain ⟨x, hx, rfl⟩ := List.mem_map.1 hmem
        rw [Program.symbol_signature, hq.formals x hx] at hglobal
        cases hglobal
  function _ _ hf := hf

section

variable (hq : q.Splices p) (hp : p.signature.Le σ) (h : i.TypedOver p σ ds)
  (hmatches : i.Matches q) {formals : NameMap Expr} (hf : formalMap q i = .ok formals)

include hq hp h hmatches hf

/-- Formals of the procedure are replaced by formals of the body of the same types. -/
theorem Implementation.TypedOver.renames :
    (p.signature.declare (q.inputs ++ q.outputs)).Renames σ formals.find? where
  symbol n k hn := by
    unfold formalMap at hf
    split_ifs at hf
    cases hf
    rcases Signature.symbol_declare_cases p.signature (q.inputs ++ q.outputs) n with
      ⟨x, hx, rfl, hkind⟩ | ⟨hnot, hkind⟩
    · obtain ⟨v, hv, hmem, hty⟩ := NameMap.exists_find?_ofList_zipWith
        (g := fun v : Variable => .symbol v.name)
        (List.forall₂_iff_zip.2 ⟨hmatches.length_eq, fun {x v} hxv =>
          (⟨(List.of_mem_zip hxv).2, List.forall₂_zip hmatches hxv⟩ :
            v ∈ i.inputs ++ i.outputs ∧ v.ty = x.ty)⟩) hq.typed.nodup hx
      refine ⟨v.name, by rw [hv]; rfl, ?_⟩
      have hagrees : σ.symbol v.name = v.ty.kind? := (h.vars v (List.mem_append_left _ hmem)).2
      rw [hagrees, hty]
      exact hkind.symm.trans hn
    · rw [NameMap.find?_ofList_zipWith_eq_none (g := fun v : Variable => .symbol v.name) hnot]
      exact ⟨n, rfl, hp.symbol n k (hkind.symm.trans hn)⟩
  function := hp.function

/-- The formals of the body get well-typed conditions from those of the procedure. -/
theorem Implementation.TypedOver.inherit (entry : Nat) : TypedOver p σ ds { i with
    inputs := inheritWhereClauses formals.find? q.inputs i.inputs
    outputs := inheritWhereClauses formals.find? q.outputs i.outputs, entry } := by
  have hrenames := h.renames hq hp hmatches hf
  unfold formalMap at hf
  split_ifs at hf with hlength
  simp only [ne_eq, not_or, not_not] at hlength
  have hnames : ∀ {xs vs : List Variable}, xs.length = vs.length →
      (inheritWhereClauses formals.find? xs vs).map (·.name) = vs.map (·.name) := fun heq => by
    unfold inheritWhereClauses
    rw [List.map_zipWith]
    exact List.ext_getElem (by simp [heq]) fun k h₁ h₂ => by simp
  -- A formal has its own condition or the one that it inherits, with the names of the procedure
  -- replaced.
  have hvars : ∀ xs ⊆ q.inputs ++ q.outputs, ∀ vs ⊆ i.inputs ++ i.outputs ++ i.locals,
      ∀ v ∈ inheritWhereClauses formals.find? xs vs, v.Typed σ ∧ σ.Agrees v := by
    intro xs hxs vs hvs v hv
    obtain ⟨x, hx, u, hu, rfl⟩ := exists_of_mem_zipWith hv
    obtain ⟨htyped, hagrees⟩ := h.vars u (hvs hu)
    refine ⟨⟨htyped.ty, fun w hw => ?_⟩, hagrees⟩
    rcases Option.or_eq_some_iff.1 hw with hw | ⟨-, hw⟩
    · exact htyped.whereClause w hw
    · obtain ⟨w', hw', rfl⟩ := Option.map_eq_some_iff.1 hw
      exact Expr.kind?_substitute hrenames.replaces
        ((hq.typed.formals x (hxs hx)).whereClause w' hw')
  refine ⟨?_, fun n k hn => ?_, h.cmds, h.scopes⟩
  · rw [List.forall_mem_append, List.forall_mem_append]
    refine ⟨⟨hvars _ (List.subset_append_left _ _) _ ?_, hvars _ (List.subset_append_right _ _) _ ?_⟩,
      fun v hv => h.vars v (List.mem_append_right _ hv)⟩
    · exact List.Subset.trans (List.subset_append_left _ _) (List.subset_append_left _ _)
    · exact List.Subset.trans (List.subset_append_right _ _) (List.subset_append_left _ _)
  · have hmem := h.names n k hn
    simp only [List.map_append] at hmem ⊢
    rwa [hnames hlength.1, hnames hlength.2]

omit hf in
/-- The postconditions of the procedure add well-typed commands. -/
theorem growsBy_assertPostconditions {exit exit' : Nat}
    (hj : (assertPostconditions q i exit).outcome = .ok (j, exit')) :
    Implementation.GrowsBy (Cmd.FlatTyped p σ) i j := by
  obtain ⟨formals, hf, hj⟩ := Minting.bind_eq_ok.1 hj
  obtain ⟨g, hg, hj⟩ := Minting.bind_eq_ok.1 hj
  cases hj
  refine Growth.growsBy_addClauses (fun c hc => ?_) hg
  obtain ⟨e, he, rfl⟩ := List.mem_map.1 hc
  have he := (List.mem_filter.1 he).1
  exact (hq.typed.ensures e he).adds (hq.flat.ensures e he) (h.renames hq hp hmatches hf) _

omit hf in
/-- So do its preconditions and the conditions on its formals. -/
theorem Implementation.TypedOver.assumePreconditions
    (hj : (assumePreconditions q i).outcome = .ok j) : j.TypedOver p σ ds := by
  obtain ⟨formals, entry, hf, hgrows⟩ :=
    growsBy_assumePreconditions (P := Cmd.FlatTyped p σ) hj
  have hrenames := h.renames hq hp hmatches hf
  have hinherit := h.inherit hq hp hmatches hf entry
  refine hinherit.grow (hgrows (fun v hv w hw => ?_) fun r hr => ?_)
  · exact ⟨(hinherit.vars v (List.mem_append_left _ hv)).1.whereClause w hw, rfl⟩
  · refine Condition.Typed.adds (hq.typed.requires r hr) (hq.flat.requires r hr) ?_ _
    exact ⟨fun n k hn => hrenames.symbol n k (hq.le.symbol n k hn), hrenames.function⟩

end

theorem Implementation.Matches.grow {P : Cmd → Prop} (h : i.Matches q) (hj : GrowsBy P i j) :
    j.Matches q := by
  obtain ⟨blocks, rfl⟩ := hj.rest
  exact h

/-- A body whose calls are expanded is well-typed over the names in force in it. -/
theorem Implementation.Typed.expandCalls (hi : i.Typed p) (h : i.WellNamed p) (hp : p.WellTyped)
    (hj : (i.expandCalls p).outcome = .ok j) :
    j.TypedOver p (i.signature p) (j.blocks.flatMap fun b => scopeLocalsAll b.cmds) := by
  have hanew := h.declaresAnew hj hp.procedures
  obtain ⟨blocks, hblocks, hj⟩ := Minting.bind_eq_ok.1 hj
  cases hj
  have hcmds := typedAll_expandBlocks (h.declares hp) h.signature_le hanew.le hi.cmds hanew.agrees
    hblocks
  refine ⟨fun v hv => ⟨hi.vars v hv, h.agrees hv⟩, fun n k => mem_of_symbol_signature, ?_, ?_⟩
  · exact forall_cmdsAt trivial hcmds
  · exact forall_cmdsAt (P := fun cs => scopeLocalsAll cs ⊆ _) (List.nil_subset _) fun b hb v hv =>
      List.mem_flatMap.2 ⟨b, hb, hv⟩

/-- A body that can be passified: it is well-typed over the names in force in it, those include the
globals, and neither they nor the names of the locals of its scopes are names of versions. -/
structure Implementation.Ready (p : Program) (σ : Signature) (ds : List Variable)
    (i : Implementation) : Prop where
  /-- It is well-typed over the names in force in it. -/
  body : i.TypedOver p σ ds
  /-- So are the globals. -/
  globals : ∀ v ∈ p.globals, v.Typed σ ∧ σ.Agrees v
  /-- The locals of its scopes are new. -/
  declaresAnew : σ.DeclaresAnew ds
  /-- The names in force are no names of versions. -/
  names : ∀ n k, σ.symbol n = some k → n.Versionless
  /-- Neither are those of the locals of its scopes. -/
  scopes : ∀ v ∈ ds, v.name.Versionless

/-- A well-typed body of which the own contract declares nothing, and that calls procedures of which
no input has the name of a version, is made ready for passification. -/
theorem Implementation.Typed.ready (hi : i.Typed p) (h : i.WellNamed p) (hp : p.WellTyped)
    (hflat : ∀ q, p.procedure? i.name = some q → q.FlatContract)
    (hcallees : ∀ callee ∈ i.callees, ∀ q, p.procedure? callee = some q →
      ∀ x ∈ q.inputs, x.name.Versionless)
    {e : SingleExit} (hprepare : (i.prepare p).outcome = .ok (q, e)) :
    ∃ ds, e.body.Ready p (i.signature p) ds := by
  obtain ⟨hq, -, expanded, unified, asserted, assumed, hexpanded, hunified, hasserted, hassumed, -,
    hbody, -⟩ := prepare_eq_ok.1 hprepare
  have hmem : q ∈ p.procedures := List.mem_of_find?_eq_some hq
  have hsplices : q.Splices p :=
    ⟨hp.procedures q hmem, h.formals q hmem, hflat q hq⟩
  have hmatches : expanded.Matches q := by
    obtain ⟨blocks, -, heq⟩ := Minting.bind_eq_ok.1 hexpanded
    cases heq
    exact List.rel_append (hi.inputs q hq) (hi.outputs q hq)
  -- Every stage after the expansion of calls adds commands that declare nothing.
  have hgrows := growsBy_unifyExits (P := Cmd.FlatTyped p (i.signature p)) hunified
  have htyped := (hi.expandCalls h hp hexpanded).grow hgrows
  have hmatches := hmatches.grow hgrows
  have hgrows := growsBy_assertPostconditions hsplices h.signature_le htyped hmatches hasserted
  have htyped := (htyped.grow hgrows).assumePreconditions hsplices h.signature_le
    (hmatches.grow hgrows) hassumed
  refine ⟨_, htyped.grow (growsBy_splitCriticalEdges hbody), fun v hv => ?_,
    h.declaresAnew hexpanded hp.procedures, fun n k hn => (h.plain_of_symbol hn).versionless,
    fun v hv => h.versionless hexpanded hcallees hv⟩
  have hv' := hp.globals v hv
  refine ⟨⟨hv'.ty, fun w hw => Expr.kind?_mono h.signature_le (hv'.whereClause w hw)⟩, ?_⟩
  obtain ⟨k, hk⟩ := hv'.ty
  have hagrees : p.signature.Agrees v :=
    Signature.agrees_declare_of_nodup _ h.nodup_outer.of_append_left hv
  exact (h.signature_le.symbol v.name k (hagrees.trans hk)).trans hk.symm

end Obligations
