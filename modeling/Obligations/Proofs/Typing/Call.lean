import Obligations.Proofs.Call.Numbering
import Obligations.Proofs.Typing.Program

/-!
# Typing of expanded calls

The scope that a call becomes is well-typed where the call is (`CallSite.typed_expand`): arguments
and results have the types of the formals that they stand for, and a local has the type of the
argument or the global that it keeps. So a body whose calls are expanded stays well-typed
(`Cmd.Typed.expandCalls`), as long as no other variable has the name of such a local.
-/

namespace Obligations

open Passive (scopeLocals scopeLocalsAll)

variable {p : Program} {σ τ : Signature}

/-! ## Formals -/

section

variable {α β : Type} {R : α → β → Prop} {name : α → Name} {g : β → Expr} {as : List α}
  {bs : List β} {a : α}

/-- What two lists combine to stands for each of distinct names of the first. -/
theorem NameMap.exists_find?_ofList_zipWith (h : List.Forall₂ R as bs)
    (hnodup : (as.map name).Nodup) (ha : a ∈ as) :
    ∃ b, (NameMap.ofList (as.zipWith (fun a b => (name a, g b)) bs)).find? (name a) =
      some (g b) ∧ R a b := by
  have hkeys : (as.zipWith (fun a b => (name a, g b)) bs).map (·.1) = as.map name := by
    rw [List.map_zipWith]
    exact List.ext_getElem (by simp [h.length_eq]) fun k h₁ h₂ => by simp
  obtain ⟨k, hk⟩ := List.mem_iff_getElem?.1 ha
  obtain ⟨b, hb, hab⟩ := exists_getElem?_of_forall₂ h hk
  refine ⟨b, NameMap.find?_ofList_of_mem (hkeys ▸ hnodup) ?_, hab⟩
  refine List.mem_iff_getElem?.2 ⟨k, ?_⟩
  rw [List.getElem?_zipWith, hk, hb]

/-- Nothing stands for other names. -/
theorem NameMap.find?_ofList_zipWith_eq_none {n : Name} (hn : n ∉ as.map name) :
    (NameMap.ofList (as.zipWith (fun a b => (name a, g b)) bs)).find? n = none := by
  refine NameMap.find?_ofList_eq_none.2 fun hmem => hn ?_
  obtain ⟨e, he, rfl⟩ := List.mem_map.1 hmem
  rw [← List.map_uncurry_zip_eq_zipWith, List.mem_map] at he
  obtain ⟨⟨a, b⟩, hab, rfl⟩ := he
  exact List.mem_map_of_mem (List.of_mem_zip hab).1

end

/-- Names are replaced by expressions of their kinds if declared variables are, and all others. -/
theorem Signature.replaces_declare {s t : Signature} {vs : List Variable} {f : Moment → Subst}
    (hvs : ∀ v ∈ vs, ∀ m k, v.ty.kind? = some k → ((f m v.name).getD (.symbol v.name)).kind? t =
      some k)
    (hs : ∀ n, n ∉ vs.map (·.name) → ∀ m k, s.symbol n = some k →
      ((f m n).getD (.symbol n)).kind? t = some k)
    (hfunction : ∀ f k, s.function f = some k → t.function f = some k) :
    (s.declare vs).Replaces t f where
  symbol m n k hn := by
    rcases Signature.symbol_declare_cases s vs n with ⟨v, hv, rfl, hkind⟩ | ⟨hnot, hkind⟩
    · exact hvs v hv m k (hkind.symm.trans hn)
    · exact hs n hnot m k (hkind.symm.trans hn)
  function := hfunction

namespace CallSite

variable {s t : CallSite} {v w : Variable} {c : Cmd}

/-! ## The locals of a call -/

/-- The variable is a local of the call, which keeps an argument or a global. -/
def Keeps (p : Program) (s : CallSite) (v : Variable) : Prop :=
  (∃ x ∈ s.callee.inputs, v.name = s.inputKeeper x.name ∧ v.ty = x.ty) ∨
    ∃ g ∈ s.callee.modifies, ∃ d, p.global? g = some d ∧ v.name = s.globalKeeper g ∧ v.ty = d.ty

theorem Keeps.mem_keeperNames (h : s.Keeps p v) : v.name ∈ s.keeperNames := by
  rw [mem_keeperNames_iff]
  rcases h with ⟨x, hx, hname, -⟩ | ⟨g, hg, -, -, hname, -⟩
  · exact .inl ⟨x, hx, hname⟩
  · exact .inr ⟨g, hg, hname⟩

/-- Locals of calls that have the same name have the same type: they are those of one call. -/
theorem Keeps.ty_eq (hs : s.Keeps p v) (ht : t.Keeps p w)
    (hcallee : s.number = t.number → s.callee = t.callee)
    (hnodup : (s.callee.inputs.map (·.name)).Nodup) (hname : v.name = w.name) : v.ty = w.ty := by
  -- The name of a local tells the number of its call, so both calls are one.
  have hnumber : s.number = t.number :=
    number_eq_of_mem_keeperNames hs.mem_keeperNames (hname ▸ ht.mem_keeperNames)
  have hinput : ∀ x, t.inputKeeper x = s.inputKeeper x := fun x => by
    rw [inputKeeper, inputKeeper, hnumber]
  have hglobal : ∀ g, t.globalKeeper g = s.globalKeeper g := fun g => by
    rw [globalKeeper, globalKeeper, hnumber]
  rcases hs with ⟨x, hx, hvx, htx⟩ | ⟨g, -, d, hd, hvg, htg⟩ <;>
    rcases ht with ⟨y, hy, hwy, hty⟩ | ⟨g', -, d', hd', hwg, htg'⟩
  · rw [← hcallee hnumber] at hy
    have hxy := inputKeeper_injective x.name y.name
      (hvx.symm.trans (hname.trans (hwy.trans (hinput y.name))))
    rw [htx, hty, List.inj_on_of_nodup_map hnodup hx hy hxy]
  · exact absurd (hvx.symm.trans (hname.trans (hwg.trans (hglobal g'))))
      (inputKeeper_ne_globalKeeper x.name g')
  · exact absurd (hwy.symm.trans (hname.symm.trans (hvg.trans (hglobal g).symm)))
      (inputKeeper_ne_globalKeeper_of_calls y.name g)
  · have hgg := globalKeeper_injective g g'
      (hvg.symm.trans (hname.trans (hwg.trans (hglobal g'))))
    rw [← hgg, hd] at hd'
    cases hd'
    rw [htg, htg']

/-- A local keeps each global that the procedure may change, and nothing else is kept. -/
theorem mem_globalKeepers : ∀ {gs : List Name} {ks : List Keeper},
    (s.globalKeepers p gs).outcome = .ok ks →
      (∀ g ∈ gs, ∃ d, p.global? g = some d ∧
        (⟨⟨s.globalKeeper g, d.ty, none, .local⟩, .symbol g⟩ : Keeper) ∈ ks) ∧
      ∀ k ∈ ks, ∃ g ∈ gs, ∃ d, p.global? g = some d ∧
        k = ⟨⟨s.globalKeeper g, d.ty, none, .local⟩, .symbol g⟩
  | [], _, h => by
    cases h
    exact ⟨fun _ hg => (nomatch hg), fun _ hk => nomatch hk⟩
  | g :: gs, ks, h => by
    rw [globalKeepers] at h
    cases hd : p.global? g with
    | none =>
      rw [hd] at h
      cases h
    | some d =>
      simp only [hd] at h
      obtain ⟨n, hn, h⟩ := Minting.bind_eq_ok.1 h
      obtain ⟨rest, hrest, h⟩ := Minting.bind_eq_ok.1 h
      cases hn
      cases h
      obtain ⟨hgs, hks⟩ := mem_globalKeepers hrest
      refine ⟨List.forall_mem_cons.2 ⟨⟨d, hd, List.mem_cons_self⟩, fun g' hg' => ?_⟩,
        List.forall_mem_cons.2 ⟨⟨g, List.mem_cons_self, d, hd, rfl⟩, fun k hk => ?_⟩⟩
      · obtain ⟨d', hd', hmem⟩ := hgs g' hg'
        exact ⟨d', hd', List.mem_cons_of_mem _ hmem⟩
      · obtain ⟨g', hg', hk⟩ := hks k hk
        exact ⟨g', List.mem_cons_of_mem _ hg', hk⟩

theorem mem_inputKeepers {k : Keeper} (hk : k ∈ s.inputKeepers) : ∃ x a, (x, a) ∈
    s.callee.inputs.zip s.args ∧ k = ⟨⟨s.inputKeeper x.name, x.ty, none, .local⟩, a⟩ := by
  unfold inputKeepers at hk
  rw [← List.map_uncurry_zip_eq_zipWith, List.mem_map] at hk
  obtain ⟨⟨x, a⟩, hxa, rfl⟩ := hk
  exact ⟨x, a, hxa, rfl⟩

theorem exists_mem_inputKeepers {R : Variable → Expr → Prop}
    (h : List.Forall₂ R s.callee.inputs s.args) {x : Variable} (hx : x ∈ s.callee.inputs) :
    ∃ a, (⟨⟨s.inputKeeper x.name, x.ty, none, .local⟩, a⟩ : Keeper) ∈ s.inputKeepers := by
  obtain ⟨k, hk⟩ := List.mem_iff_getElem?.1 hx
  obtain ⟨a, ha, -⟩ := exists_getElem?_of_forall₂ h hk
  refine ⟨a, List.mem_iff_getElem?.2 ⟨k, ?_⟩⟩
  rw [inputKeepers, List.getElem?_zipWith, hk, ha]

/-- What a call becomes. -/
theorem expand_cases (h : (s.expand p).outcome = .ok c) : ∃ checks globals guarantees,
    s.checks = .ok checks ∧ (s.globalKeepers p s.callee.modifies).outcome = .ok globals ∧
      s.guarantees = .ok guarantees ∧
      c = .scope ((s.inputKeepers ++ globals).map (·.holder))
        (checks ++ (if (s.inputKeepers ++ globals).isEmpty then [] else
            [.assign ((s.inputKeepers ++ globals).map fun k => (k.holder.name, k.value))]) ++
          (if s.changed.isEmpty then [] else [.havoc s.changed]) ++ guarantees) := by
  unfold expand at h
  obtain ⟨checks, hchecks, h⟩ := Minting.bind_eq_ok.1 h
  obtain ⟨⟨⟩, -, h⟩ := Minting.bind_eq_ok.1 h
  obtain ⟨globals, hglobals, h⟩ := Minting.bind_eq_ok.1 h
  obtain ⟨guarantees, hguarantees, h⟩ := Minting.bind_eq_ok.1 h
  cases h
  exact ⟨checks, globals, guarantees, hchecks, hglobals, hguarantees, rfl⟩

/-- Only a formula is the formula of a clause. -/
theorem eq_formula {r : Condition} {e : Expr} (h : s.formula r = .ok e) : r = .formula e := by
  cases r with
  | formula e' => rw [Except.ok.inj h]
  | blocks => cases h

theorem mem_checks {cs : List Cmd} (h : s.checks = .ok cs) (hc : c ∈ cs) :
    ∃ r ∈ s.callee.requires, ∃ e, r.condition = .formula e ∧
      c = .assert ⟨e.substitute s.arguments.find?, .requires s.callee.name, none, none⟩ := by
  obtain ⟨r, hr, heq⟩ := exists_mem_of_forall₂ (mapM_eq_ok_iff.1 h).flip hc
  obtain ⟨e, he, heq⟩ := bind_eq_ok.1 heq
  exact ⟨r, (List.mem_filter.1 hr).1, e, eq_formula he, (Except.ok.inj heq).symm⟩

theorem mem_guarantees {cs : List Cmd} (h : s.guarantees = .ok cs) (hc : c ∈ cs) :
    ∃ r ∈ s.callee.ensures, ∃ e, r.condition = .formula e ∧
      c = .assume (e.substituteOld s.parameters s.entryValues) := by
  obtain ⟨r, hr, heq⟩ := exists_mem_of_forall₂ (mapM_eq_ok_iff.1 h).flip hc
  obtain ⟨e, he, heq⟩ := bind_eq_ok.1 heq
  exact ⟨r, hr, e, eq_formula he, (Except.ok.inj heq).symm⟩

/-- The locals of the scope keep arguments and globals. -/
theorem keeps_of_mem_scopeLocals (h : (s.expand p).outcome = .ok c) (hv : v ∈ scopeLocals c) :
    s.Keeps p v := by
  obtain ⟨checks, globals, guarantees, hchecks, hglobals, hguarantees, rfl⟩ := expand_cases h
  rcases List.mem_append.1 hv with hv | hv
  · obtain ⟨k, hk, rfl⟩ := List.mem_map.1 hv
    rcases List.mem_append.1 hk with hk | hk
    · obtain ⟨x, a, hxa, rfl⟩ := mem_inputKeepers hk
      exact .inl ⟨x, (List.of_mem_zip hxa).1, rfl, rfl⟩
    · obtain ⟨g, hg, d, hd, rfl⟩ := (mem_globalKeepers hglobals).2 k hk
      exact .inr ⟨g, hg, d, hd, rfl, rfl⟩
  · -- The commands of the scope are no scopes.
    obtain ⟨c, hc, hv⟩ := Passive.mem_scopeLocalsAll.1 hv
    simp only [List.mem_append] at hc
    rcases hc with ((hc | hc) | hc) | hc
    · obtain ⟨-, -, e, -, rfl⟩ := mem_checks hchecks hc
      cases hv
    · split_ifs at hc
      · cases hc
      · cases List.mem_singleton.1 hc
        cases hv
    · split_ifs at hc
      · cases hc
      · cases List.mem_singleton.1 hc
        cases hv
    · obtain ⟨-, -, e, -, rfl⟩ := mem_guarantees hguarantees hc
      cases hv

/-! ## The scope of a call -/

/-- A call of a procedure with a well-typed declaration, for arguments and results of its types. -/
structure Typed (p : Program) (σ : Signature) (s : CallSite) : Prop where
  /-- The declaration of the procedure. -/
  callee : s.callee.Typed p
  /-- The arguments. -/
  args : List.Forall₂ (fun x a => a.HasType σ x.ty) s.callee.inputs s.args
  /-- The variables that get the results. -/
  outputs : List.Forall₂ (fun x o => (Expr.symbol o).HasType σ x.ty) s.callee.outputs s.outputs

/-- The signature is that of the place of a call, with the locals of the call declared. -/
structure Keeping (p : Program) (σ τ : Signature) (s : CallSite) : Prop where
  /-- The globals and functions of the program have their kinds. -/
  program : p.signature.Le σ
  /-- What is in force at the call has its kind. -/
  place : σ.Le τ
  /-- A local that keeps an argument has the kind of the input. -/
  input : ∀ x ∈ s.callee.inputs, τ.symbol (s.inputKeeper x.name) = x.ty.kind?
  /-- A local that keeps a global has the kind of the global. -/
  global : ∀ g ∈ s.callee.modifies, ∃ d, p.global? g = some d ∧
    τ.symbol (s.globalKeeper g) = d.ty.kind?

section

variable (hs : s.Typed p σ) (hτ : s.Keeping p σ τ)

include hs hτ

/-- Arguments have the kinds of the inputs that they stand for. -/
theorem Typed.replaces_arguments :
    (p.signature.declare s.callee.inputs).Replaces τ fun _ => s.arguments.find? := by
  have hnodup := hs.callee.nodup_inputs
  refine Signature.replaces_declare (fun x hx _ k hk => ?_) (fun n hn _ k hk => ?_)
    (hτ.program.trans hτ.place).function
  · obtain ⟨a, ha, l, hl, hal⟩ :=
      NameMap.exists_find?_ofList_zipWith (g := fun a => a) hs.args hnodup hx
    rw [arguments, ha, Option.getD_some, ← hk, hl]
    exact Expr.kind?_mono hτ.place hal
  · rw [arguments, NameMap.find?_ofList_zipWith_eq_none (g := fun a => a) hn]
    exact (hτ.program.trans hτ.place).symbol n k hk

omit hs hτ in
/-- An input stands for its local, an output for the variable that gets it. -/
theorem parameters_apply (n : Name) : s.parameters n =
    (if n ∈ s.callee.inputs.map (·.name) then some (.symbol (s.inputKeeper n)) else none).or
      ((NameMap.ofList (s.callee.outputs.zipWith (fun x o => (x.name, .symbol o))
        s.outputs)).find? n) := by
  rw [← NameMap.find?_ofList_map_self (f := fun n => Expr.symbol (s.inputKeeper n)), List.map_map]
  rfl

/-- Locals and results have the kinds of the formals that they stand for. -/
theorem Typed.kind?_parameters {x : Variable} (hx : x ∈ s.callee.inputs ++ s.callee.outputs)
    {k : Kind} (hk : x.ty.kind? = some k) :
    ((s.parameters x.name).getD (.symbol x.name)).kind? τ = some k := by
  have hnodup := hs.callee.nodup
  rw [List.map_append, List.nodup_append] at hnodup
  obtain ⟨-, houtputs, hdisjoint⟩ := hnodup
  rw [parameters_apply]
  rcases List.mem_append.1 hx with hx | hx
  · rw [if_pos (List.mem_map_of_mem hx), Option.some_or, Option.getD_some, ← hk]
    exact hτ.input x hx
  · have hnot : x.name ∉ s.callee.inputs.map (·.name) := fun hmem =>
      hdisjoint _ hmem _ (List.mem_map_of_mem hx) rfl
    obtain ⟨o, ho, l, hl, hol⟩ := NameMap.exists_find?_ofList_zipWith hs.outputs houtputs hx
    rw [if_neg hnot, Option.none_or, ho, Option.getD_some, ← hk, hl]
    exact hτ.place.symbol o l hol

omit hs hτ in
/-- A name that is no formal stands for itself. -/
theorem parameters_eq_none {n : Name}
    (hn : n ∉ (s.callee.inputs ++ s.callee.outputs).map (·.name)) : s.parameters n = none := by
  rw [List.map_append, List.mem_append, not_or] at hn
  rw [parameters_apply, if_neg hn.1, NameMap.find?_ofList_zipWith_eq_none hn.2]
  rfl

/-- In a postcondition names are replaced by expressions of their kinds, if no formal is named like a
global. -/
theorem Typed.replaces_guarantees
    (hformals : ∀ x ∈ s.callee.inputs ++ s.callee.outputs, p.global? x.name = none) :
    (p.signature.declare (s.callee.inputs ++ s.callee.outputs)).Replaces τ fun
      | .current => s.parameters
      | .entry => fun n => (s.entryValues n).or (s.parameters n) := by
  refine Signature.replaces_declare (fun x hx m k hk => ?_) (fun n hn m k hk => ?_)
    (hτ.program.trans hτ.place).function
  · have hx' := hs.kind?_parameters hτ hx hk
    cases m with
    | current => exact hx'
    | entry =>
      -- A formal is no global, so that its value on entry is not kept.
      have hnot : x.name ∉ s.callee.modifies := fun hmem => by
        obtain ⟨d, hd, -⟩ := hτ.global x.name hmem
        rw [hformals x hx] at hd
        cases hd
      dsimp only
      rwa [entryValues_eq, if_neg hnot, Option.none_or]
  · have hnone := parameters_eq_none hn
    have hn' := (hτ.program.trans hτ.place).symbol n k hk
    cases m with
    | current =>
      dsimp only
      rw [hnone]
      exact hn'
    | entry =>
      dsimp only
      rw [entryValues_eq, hnone]
      split_ifs with hmem
      · obtain ⟨d, hd, hkind⟩ := hτ.global n hmem
        rw [Program.symbol_signature, hd] at hk
        exact hkind.trans hk
      · exact hn'

end

section

variable {keepers : List Keeper}

/-- The locals of a call have the kinds of what they keep, if a greater signature gives these kinds to
their names. -/
theorem Typed.keeping (hs : s.Typed p σ) (hp : p.signature.Le σ) {t : Signature} (hσ : σ.Le t)
    (hkeepers : (s.globalKeepers p s.callee.modifies).outcome = .ok keepers)
    (hagrees : ∀ v ∈ (s.inputKeepers ++ keepers).map (·.holder), t.Agrees v) :
    s.Keeping p σ (σ.declare ((s.inputKeepers ++ keepers).map (·.holder))) := by
  refine ⟨hp, Signature.le_declare hσ hagrees, fun x hx => ?_, fun g hg => ?_⟩
  · obtain ⟨a, ha⟩ := exists_mem_inputKeepers hs.args hx
    exact Signature.agrees_declare σ hagrees
      (List.mem_map_of_mem (List.mem_append_left keepers ha))
  · obtain ⟨d, hd, hmem⟩ := (mem_globalKeepers hkeepers).1 g hg
    exact ⟨d, hd, Signature.agrees_declare σ hagrees
      (List.mem_map_of_mem (List.mem_append_right s.inputKeepers hmem))⟩

variable (hs : s.Typed p σ) (hτ : s.Keeping p σ τ)
  (hglobals : ∀ v ∈ p.globals, v.Typed p.signature)
  (hkeepers : (s.globalKeepers p s.callee.modifies).outcome = .ok keepers)

include hs hτ

theorem Typed.checks {cs : List Cmd} (h : s.checks = .ok cs) : Cmd.TypedAll p τ cs := by
  refine Cmd.typedAll_iff.2 fun c hc => ?_
  obtain ⟨r, hr, e, he, rfl⟩ := mem_checks h hc
  have htyped := hs.callee.requires r hr
  rw [he] at htyped
  exact Expr.kind?_substitute (hs.replaces_arguments hτ) htyped

theorem Typed.guarantees
    (hformals : ∀ x ∈ s.callee.inputs ++ s.callee.outputs, p.global? x.name = none)
    {cs : List Cmd} (h : s.guarantees = .ok cs) : Cmd.TypedAll p τ cs := by
  refine Cmd.typedAll_iff.2 fun c hc => ?_
  obtain ⟨r, hr, e, he, rfl⟩ := mem_guarantees h hc
  have htyped := hs.callee.ensures r hr
  rw [he] at htyped
  exact Expr.kind?_substAt (hs.replaces_guarantees hτ hformals) .current htyped

include hglobals hkeepers

/-- A local has the type of what it keeps, and nothing is known of it. -/
theorem Typed.keeper {k : Keeper} (hk : k ∈ s.inputKeepers ++ keepers) :
    k.holder.whereClause = none ∧ k.value.HasType τ k.holder.ty := by
  rcases List.mem_append.1 hk with hk | hk
  · obtain ⟨x, a, hxa, rfl⟩ := mem_inputKeepers hk
    exact ⟨rfl, (List.forall₂_zip hs.args hxa).mono hτ.place⟩
  · obtain ⟨g, hg, d, hd, rfl⟩ := (mem_globalKeepers hkeepers).2 k hk
    obtain ⟨k, hk, hsymbol⟩ := Program.exists_symbol_signature hglobals hd
    exact ⟨rfl, k, hk, (hτ.program.trans hτ.place).symbol g k hsymbol⟩

/-- A variable that a call changes has a kind. -/
theorem Typed.changed {x : Name} (hx : x ∈ s.changed) : ∃ k, τ.symbol x = some k := by
  rcases mem_changed.1 hx with hx | hx
  · obtain ⟨y, -, k, -, hok⟩ := exists_mem_of_forall₂ hs.outputs.flip hx
    exact ⟨k, hτ.place.symbol x k hok⟩
  · obtain ⟨d, hd, -⟩ := (mem_globalKeepers hkeepers).1 x hx
    obtain ⟨k, -, hsymbol⟩ := Program.exists_symbol_signature hglobals hd
    exact ⟨k, (hτ.program.trans hτ.place).symbol x k hsymbol⟩

end

/-- The scope that a call becomes is well-typed where the call is, if its locals have the kinds that
a greater signature gives to their names and no formal is named like a global. -/
theorem typed_expand (hs : s.Typed p σ) (hp : p.signature.Le σ)
    (hglobals : ∀ v ∈ p.globals, v.Typed p.signature)
    (hformals : ∀ x ∈ s.callee.inputs ++ s.callee.outputs, p.global? x.name = none) {t : Signature}
    (hσ : σ.Le t) (h : (s.expand p).outcome = .ok c) (hc : ∀ v ∈ scopeLocals c, t.Agrees v) :
    c.Typed p σ := by
  obtain ⟨checks, keepers, guarantees, hchecks, hkeepers, hguarantees, rfl⟩ := expand_cases h
  -- The locals of the scope are those that keep arguments and globals.
  have hagrees : ∀ v ∈ (s.inputKeepers ++ keepers).map (·.holder), t.Agrees v := fun v hv =>
    hc v (List.mem_append_left _ hv)
  have hτ := hs.keeping hp hσ hkeepers hagrees
  refine ⟨List.forall_mem_map.2 fun k hk => ?_, ?_⟩
  · obtain ⟨hwhere, l, hl, -⟩ := hs.keeper hτ hglobals hkeepers hk
    exact ⟨⟨l, hl⟩, fun w hw => by rw [hwhere] at hw; cases hw⟩
  rw [Cmd.typedAll_append, Cmd.typedAll_append, Cmd.typedAll_append]
  refine ⟨⟨⟨hs.checks hτ hchecks, ?_⟩, ?_⟩, hs.guarantees hτ hformals hguarantees⟩
  · split_ifs
    · trivial
    · refine ⟨?_, trivial⟩
      rw [Cmd.Typed, List.forall_mem_map]
      intro k hk
      obtain ⟨-, l, hl, hvalue⟩ := hs.keeper hτ hglobals hkeepers hk
      exact ⟨l, (Signature.agrees_declare σ hagrees (List.mem_map_of_mem hk)).trans hl, hvalue⟩
  · split_ifs
    · trivial
    · exact ⟨fun x hx => hs.changed hτ hglobals hkeepers hx, trivial⟩

end CallSite

/-! ## Bodies with calls -/

section

variable {caller : Name} {v : Variable}

/-- The variable keeps an argument or a global for one of the calls, which are numbered in their
order. -/
def Program.KeptFor (p : Program) (caller : Name) (number : Nat) (callees : List Name)
    (v : Variable) : Prop :=
  ∃ k callee q, callees[k]? = some callee ∧ p.procedure? callee = some q ∧
    CallSite.Keeps p ⟨caller, q, number + k, [], []⟩ v

namespace Program.KeptFor

variable {number : Nat} {ks ls : List Name}

theorem append_left (h : p.KeptFor caller number ks v) : p.KeptFor caller number (ks ++ ls) v := by
  obtain ⟨k, callee, q, hk, hq, hkeeps⟩ := h
  refine ⟨k, callee, q, ?_, hq, hkeeps⟩
  rw [List.getElem?_append_left (List.getElem?_eq_some_iff.1 hk).1, hk]

theorem append_right (h : p.KeptFor caller (number + ks.length) ls v) :
    p.KeptFor caller number (ks ++ ls) v := by
  obtain ⟨k, callee, q, hk, hq, hkeeps⟩ := h
  refine ⟨ks.length + k, callee, q, ?_, hq, ?_⟩
  · rw [List.getElem?_append_right (Nat.le_add_right _ _), Nat.add_sub_cancel_left, hk]
  · rwa [← Nat.add_assoc]

end Program.KeptFor

mutual

/-- The scopes of a command whose calls are expanded have the locals that they had, and those of its
calls. -/
theorem Passive.keeps_of_mem_scopeLocals : ∀ {c d : Cmd} {number : Nat},
    (c.expandCalls p caller number).outcome = .ok d → v ∈ scopeLocals d →
      v ∈ scopeLocals c ∨ p.KeptFor caller number c.callees v
  | .call callee args outputs, d, number, hd, hv => by
    rw [Cmd.expandCalls] at hd
    obtain ⟨s, hs, hd⟩ := Minting.bind_eq_ok.1 hd
    obtain ⟨q, hq, rfl, -⟩ := callSite_eq_ok hs
    have hkeeps := CallSite.keeps_of_mem_scopeLocals hd hv
    exact .inr ⟨0, callee, q, rfl, hq, hkeeps⟩
  | .scope locals cmds, d, number, hd, hv => by
    rw [Cmd.expandCalls] at hd
    obtain ⟨ds, hds, hd⟩ := Minting.bind_eq_ok.1 hd
    cases hd
    rcases List.mem_append.1 hv with hv | hv
    · exact .inl (List.mem_append_left _ hv)
    · exact (keeps_of_mem_scopeLocalsAll hds hv).imp_left (List.mem_append_right _)
  | .assert _, _, _, hd, hv | .assume _, _, _, hd, hv | .assign _, _, _, hd, hv
  | .havoc _, _, _, hd, hv | .comment _, _, _, hd, hv => by
    cases hd
    exact .inl hv

/-- The same for several commands. -/
theorem Passive.keeps_of_mem_scopeLocalsAll : ∀ {cs ds : List Cmd} {number : Nat},
    (Cmd.expandCallsAll p caller number cs).outcome = .ok ds → v ∈ scopeLocalsAll ds →
      v ∈ scopeLocalsAll cs ∨ p.KeptFor caller number (Cmd.calleesAll cs) v
  | [], _, _, hds, hv => by
    cases hds
    exact .inl hv
  | c :: cs, _, number, hds, hv => by
    rw [Cmd.expandCallsAll] at hds
    obtain ⟨d, hd, hds⟩ := Minting.bind_eq_ok.1 hds
    obtain ⟨rest, hrest, hds⟩ := Minting.bind_eq_ok.1 hds
    cases hds
    rw [Cmd.calleesAll]
    rcases List.mem_append.1 hv with hv | hv
    · exact (keeps_of_mem_scopeLocals hd hv).imp (List.mem_append_left _) (·.append_left)
    · exact (keeps_of_mem_scopeLocalsAll hrest hv).imp (List.mem_append_right _) (·.append_right)

end

/-- The same for the blocks of a body. -/
theorem keeps_of_mem_blocks : ∀ {bs cs : List Block} {number : Nat},
    (expandBlocks p caller number bs).outcome = .ok cs →
      v ∈ cs.flatMap (fun b => scopeLocalsAll b.cmds) →
      v ∈ bs.flatMap (fun b => scopeLocalsAll b.cmds) ∨
        p.KeptFor caller number (bs.flatMap fun b => Cmd.calleesAll b.cmds) v
  | [], _, _, hcs, hv => by
    cases hcs
    exact .inl hv
  | b :: bs, _, _, hcs, hv => by
    rw [expandBlocks] at hcs
    obtain ⟨cmds, hcmds, hcs⟩ := Minting.bind_eq_ok.1 hcs
    obtain ⟨rest, hrest, hcs⟩ := Minting.bind_eq_ok.1 hcs
    cases hcs
    rw [List.flatMap_cons] at hv
    rw [List.flatMap_cons, List.flatMap_cons]
    rcases List.mem_append.1 hv with hv | hv
    · exact (Passive.keeps_of_mem_scopeLocalsAll hcmds hv).imp (List.mem_append_left _)
        (·.append_left)
    · exact (keeps_of_mem_blocks hrest hv).imp (List.mem_append_right _) (·.append_right)

/-- The declarations of the globals and the procedures of a program are well-typed, and no formal is
named like a global. -/
structure Program.Declares (p : Program) : Prop where
  /-- The globals. -/
  globals : ∀ v ∈ p.globals, v.Typed p.signature
  /-- The procedures. -/
  procedures : ∀ q ∈ p.procedures, q.Typed p
  /-- No formal has the name of a global. -/
  formals : ∀ q ∈ p.procedures, ∀ x ∈ q.inputs ++ q.outputs, p.global? x.name = none

mutual

/-- A command whose calls are expanded stays well-typed, if the locals of its scopes have the kinds
that a greater signature gives to their names. -/
theorem Cmd.Typed.expandCalls (hp : p.Declares) : ∀ {c d : Cmd} {σ : Signature} {number : Nat},
    c.Typed p σ → p.signature.Le σ → σ.Le τ → (∀ v ∈ scopeLocals d, τ.Agrees v) →
    (c.expandCalls p caller number).outcome = .ok d → d.Typed p σ
  | .call callee args outputs, d, σ, number, hc, hle, hσ, hagrees, hd => by
    rw [Cmd.expandCalls] at hd
    obtain ⟨s, hs, hd⟩ := Minting.bind_eq_ok.1 hd
    obtain ⟨q, hq, rfl, -⟩ := callSite_eq_ok hs
    obtain ⟨q', hq', hargs, houtputs⟩ := hc
    cases hq.symm.trans hq'
    have hmem : q ∈ p.procedures := List.mem_of_find?_eq_some hq
    exact CallSite.typed_expand ⟨hp.procedures q hmem, hargs, houtputs⟩ hle hp.globals
      (hp.formals q hmem) hσ hd hagrees
  | .scope locals cmds, d, σ, number, hc, hle, hσ, hagrees, hd => by
    rw [Cmd.expandCalls] at hd
    obtain ⟨ds, hds, hd⟩ := Minting.bind_eq_ok.1 hd
    cases hd
    obtain ⟨hlocals, hcmds⟩ := List.forall_mem_append.1 hagrees
    exact ⟨hc.1, Cmd.TypedAll.expandCallsAll hp hc.2
      (hle.trans (Signature.le_declare hσ hlocals)) (Signature.declare_le hσ hlocals) hcmds hds⟩
  | .assert _, _, _, _, hc, _, _, _, hd | .assume _, _, _, _, hc, _, _, _, hd
  | .assign _, _, _, _, hc, _, _, _, hd | .havoc _, _, _, _, hc, _, _, _, hd
  | .comment _, _, _, _, hc, _, _, _, hd => by
    cases hd
    exact hc

/-- The same for several commands. -/
theorem Cmd.TypedAll.expandCallsAll (hp : p.Declares) :
    ∀ {cs ds : List Cmd} {σ : Signature} {number : Nat}, Cmd.TypedAll p σ cs →
    p.signature.Le σ → σ.Le τ → (∀ v ∈ scopeLocalsAll ds, τ.Agrees v) →
    (Cmd.expandCallsAll p caller number cs).outcome = .ok ds → Cmd.TypedAll p σ ds
  | [], _, _, _, _, _, _, _, hds => by
    cases hds
    trivial
  | c :: cs, _, _, _, hc, hle, hσ, hagrees, hds => by
    rw [Cmd.expandCallsAll] at hds
    obtain ⟨d, hd, hds⟩ := Minting.bind_eq_ok.1 hds
    obtain ⟨rest, hrest, hds⟩ := Minting.bind_eq_ok.1 hds
    cases hds
    obtain ⟨hfirst, hlater⟩ := List.forall_mem_append.1 hagrees
    exact ⟨hc.1.expandCalls hp hle hσ hfirst hd,
      Cmd.TypedAll.expandCallsAll hp hc.2 hle hσ hlater hrest⟩

end

/-- The same for the blocks of a body. -/
theorem typedAll_expandBlocks (hp : p.Declares) (hle : p.signature.Le σ) (hσ : σ.Le τ) :
    ∀ {bs cs : List Block} {number : Nat}, (∀ b ∈ bs, Cmd.TypedAll p σ b.cmds) →
    (∀ v ∈ cs.flatMap fun b => scopeLocalsAll b.cmds, τ.Agrees v) →
    (expandBlocks p caller number bs).outcome = .ok cs → ∀ b ∈ cs, Cmd.TypedAll p σ b.cmds
  | [], _, _, _, _, hcs => by
    cases hcs
    exact fun _ hb => nomatch hb
  | b :: bs, _, _, hbs, hagrees, hcs => by
    rw [expandBlocks] at hcs
    obtain ⟨cmds, hcmds, hcs⟩ := Minting.bind_eq_ok.1 hcs
    obtain ⟨rest, hrest, hcs⟩ := Minting.bind_eq_ok.1 hcs
    cases hcs
    obtain ⟨hb, hbs⟩ := List.forall_mem_cons.1 hbs
    rw [List.flatMap_cons] at hagrees
    obtain ⟨hfirst, hlater⟩ := List.forall_mem_append.1 hagrees
    exact List.forall_mem_cons.2 ⟨hb.expandCallsAll hp hle hσ hfirst hcmds,
      typedAll_expandBlocks hp hle hσ hbs hlater hrest⟩

end

end Obligations
