import Obligations.Proofs.Call.Contract
import Obligations.Proofs.Expr.Standard

/-!
# A call means the contract of its procedure

The scope that a regular call becomes fails exactly if a precondition to check is false where the
procedure is called (`CallSite.fails_iff`), and runs exactly to the states in which the contract says
that the call can end (`CallSite.ends_of_runs`, `CallSite.runs_of_ends`). The link is
`CallSite.Represents`, which says what the locals of the scope and the other variables hold once
everything that the call changes has changed.

Regularity is needed (`CallSite.expandCalls_call_lacks_runs`). An output stands for the variable that
gets it, so a global that gets a result and that a postcondition reads is read after the result is
stored; and a global with the name of a local of the scope is hidden by it.
-/

namespace Obligations.CallSite

variable {I : Interpretation}

variable {s : CallSite} {c : Context I} {σ τ : I.State} {locals : List Variable}

/-! ## Inside the scope -/

/-- The locals have no conditions, so a scope begins in any state that agrees outside of them. -/
theorem opens_iff (hnames : locals.map (·.name) = s.temporaries)
    (hwhere : ∀ v ∈ locals, v.whereClause = none) :
    c.Opens locals σ τ ↔ ∀ x, x ∉ s.temporaries → τ x = σ x := by
  unfold Context.Opens
  rw [hnames]
  refine and_iff_left_iff_imp.2 fun _ v hv w hw => ?_
  rw [hwhere v hv] at hw
  cases hw

/-- In the scope an expression without its locals has its value in the state of the call. -/
theorem valueAt_enter (hnames : locals.map (·.name) = s.temporaries) {e : Expr} (t : Moment)
    (hfresh : ∀ n ∈ e.names, n ∉ s.temporaries) (hagree : ∀ x, x ∉ s.temporaries → τ x = σ x) :
    I.valueAt ((c.enter locals).reading τ) t e = I.valueAt (c.reading σ) t e := by
  refine Interpretation.valueAt_congr_names fun n hn t => ?_
  exact Context.reading_enter (hnames ▸ hfresh n hn) (hagree n (hfresh n hn)) t

/-- There is an argument for every input. -/
theorem find?_arguments_eq_none (hlength : s.args.length = s.callee.inputs.length) {n : Name} :
    s.arguments.find? n = none ↔ n ∉ s.callee.inputs.map (·.name) := by
  have hkeys : (s.callee.inputs.zipWith (fun x a => (x.name, a)) s.args).map (·.1) =
      s.callee.inputs.map (·.name) := by
    rw [List.map_zipWith, ← List.map_uncurry_zip_eq_zipWith]
    change ((s.callee.inputs.zip s.args).map ((·.name) ∘ Prod.fst)) = _
    rw [← List.map_map, List.map_fst_zip (Nat.le_of_eq hlength.symm)]
  unfold arguments
  rw [NameMap.find?_ofList_eq_none, hkeys]

/-- A name for which there is an argument takes one of the arguments. -/
theorem mem_args_of_find?_arguments {n : Name} {a : Expr} (h : s.arguments.find? n = some a) :
    a ∈ s.args := by
  have hmem := NameMap.mem_of_find?_ofList h
  rw [← List.map_uncurry_zip_eq_zipWith] at hmem
  obtain ⟨⟨x, b⟩, hzip, heq⟩ := List.mem_map.mp hmem
  cases heq
  exact (List.of_mem_zip hzip).2

/-- The precondition that the scope checks has the value that the precondition has at the call. -/
theorem value_substitute_arguments (hnames : locals.map (·.name) = s.temporaries)
    (hlength : s.args.length = s.callee.inputs.length) (hfresh : s.IsFresh c.declarations)
    (hagree : ∀ x, x ∉ s.temporaries → τ x = σ x) {r : Requires} (hr : r ∈ s.callee.requires) :
    (c.enter locals).value τ (r.condition.body.substitute s.arguments.find?) =
      I.value (s.requiresReading c σ) r.condition.body := by
  refine Interpretation.value_substitute fun p hp => ?_
  obtain ⟨t, n⟩ := p
  have hn : n ∈ r.condition.body.names := Expr.mem_names_of_mem_readsAt hp
  unfold requiresReading
  cases ha : s.arguments.find? n with
  | some a => exact valueAt_enter hnames t (hfresh.args a (mem_args_of_find?_arguments ha)) hagree
  | none =>
    have hnot := hfresh.requires r hr n hn ((find?_arguments_eq_none hlength).1 ha)
    exact Context.reading_enter (hnames ▸ hnot) (hagree n hnot) t

/-! ## Failure -/

theorem assertionsAll_not_checks (s : CallSite) : Cmd.assertionsAll
    ((if s.kept.isEmpty then [] else [.assign s.kept]) ++
      (if s.changed.isEmpty then [] else [.havoc s.changed]) ++ s.guaranteeCmds) = 0 := by
  rw [guaranteeCmds, Cmd.assertionsAll_append, Cmd.assertionsAll_append,
    Cmd.assertionsAll_map_assume]
  split <;> split <;> rfl

/-- The scope fails exactly if a precondition to check is false at the call. -/
theorem fails_iff (hnames : locals.map (·.name) = s.temporaries)
    (hwhere : ∀ v ∈ locals, v.whereClause = none)
    (hlength : s.args.length = s.callee.inputs.length) (hfresh : s.IsFresh c.declarations) :
    (∃ n, (Cmd.scope locals s.cmds).Fails c n σ) ↔ ∃ r ∈ s.callee.requires, r.free = false ∧
      I.value (s.requiresReading c σ) r.condition.body = some I.falsity := by
  -- Only the checks of the preconditions are assertions.
  have hrest : ∀ n τ, ¬ Cmd.FailsAll (c.enter locals)
      ((if s.kept.isEmpty then [] else [.assign s.kept]) ++
        (if s.changed.isEmpty then [] else [.havoc s.changed]) ++ s.guaranteeCmds) n τ :=
    fun n τ => Cmd.not_failsAll _ _ n τ s.assertionsAll_not_checks
  have hchecks : ∀ τ, (∀ x, x ∉ s.temporaries → τ x = σ x) →
      ((∃ n, Cmd.FailsAll (c.enter locals) s.cmds n τ) ↔ ∃ r ∈ s.callee.requires,
        r.free = false ∧ I.value (s.requiresReading c σ) r.condition.body = some I.falsity) := by
    intro τ hagree
    have hcmds : (∃ n, Cmd.FailsAll (c.enter locals) s.cmds n τ) ↔
        ∃ n, Cmd.FailsAll (c.enter locals) s.checkCmds n τ := by
      refine exists_congr fun n => ?_
      rw [cmds, List.append_assoc, List.append_assoc, Cmd.failsAll_append, ← List.append_assoc]
      refine or_iff_left ?_
      rintro ⟨k, σ', -, -, hf⟩
      exact hrest k σ' hf
    rw [hcmds, checkCmds, Cmd.exists_failsAll_map_assert]
    constructor
    · rintro ⟨r, hr, hfalse⟩
      obtain ⟨hr, hfree⟩ := List.mem_filter.mp hr
      rw [value_substitute_arguments hnames hlength hfresh hagree hr] at hfalse
      exact ⟨r, hr, by simpa using hfree, hfalse⟩
    · rintro ⟨r, hr, hfree, hfalse⟩
      refine ⟨r, List.mem_filter.mpr ⟨hr, by simp [hfree]⟩, ?_⟩
      rw [value_substitute_arguments hnames hlength hfresh hagree hr]
      exact hfalse
  constructor
  · rintro ⟨n, τ, hopen, hf⟩
    exact (hchecks τ ((opens_iff hnames hwhere).1 hopen)).1 ⟨n, hf⟩
  · -- The locals may start with any values.
    intro h
    obtain ⟨n, hf⟩ := (hchecks σ fun _ _ => rfl).2 h
    exact ⟨n, σ, (opens_iff hnames hwhere).2 fun _ _ => rfl, hf⟩

/-! ## Runs -/

/-- A run of the commands of the scope keeps what is to be kept, changes what changes, and ends with
the postconditions true. -/
theorem runsAll_cmds_iff {σ τ : I.State} {c : Context I} : Cmd.RunsAll c s.cmds σ τ ↔
    ∃ σ', c.Assigns σ s.kept σ σ' ∧ c.Havocs s.changed σ' τ ∧
      ∀ r ∈ s.callee.ensures,
        c.Holds τ (r.condition.body.substituteOld s.parameters s.entryValues) := by
  -- A command is left out if it would have nothing to do, and then it would run without effect.
  have hkeep : ∀ τ, Cmd.RunsAll c (if s.kept.isEmpty then [] else [.assign s.kept]) σ τ ↔
      c.Assigns σ s.kept σ τ := by
    intro τ
    cases s.kept with
    | nil => rfl
    | cons p ps => simp [Cmd.RunsAll, Cmd.Runs]
  have hchange : ∀ σ' τ, Cmd.RunsAll c (if s.changed.isEmpty then [] else [.havoc s.changed]) σ' τ ↔
      c.Havocs s.changed σ' τ := by
    intro σ' τ
    cases s.changed with
    | nil => simp [Cmd.RunsAll, Context.Havocs, funext_iff]
    | cons x xs => simp [Cmd.RunsAll, Cmd.Runs]
  rw [cmds, Cmd.runsAll_append, checkCmds, guaranteeCmds]
  simp only [Cmd.runsAll_append, Cmd.runsAll_map_assert, Cmd.runsAll_map_assume, hchange]
  constructor
  · rintro ⟨τ', ⟨σ', ⟨_, rfl, hassign⟩, hhavoc⟩, hall, rfl⟩
    exact ⟨σ', (hkeep σ').1 hassign, hhavoc, hall⟩
  · rintro ⟨σ', hassign, hhavoc, hall⟩
    exact ⟨τ, ⟨σ', ⟨σ, rfl, (hkeep σ').2 hassign⟩, hhavoc⟩, hall, rfl⟩

/-- A state inside the scope, after the havoc, that stands for the end of a call: the locals keep
what they are to keep, and outside of them it is the state in which the call ends. -/
structure Represents (s : CallSite) (c : Context I) (σ γ : I.State) (as : List I.Carrier)
    (τ : I.State) : Prop where
  /-- The local for an input has the value of the argument. -/
  input : ∀ x a, s.arguments.find? x = some a → some (τ (s.inputKeeper x)) = c.value σ a
  /-- The local for a global has the value of the global before the call. -/
  global : ∀ g ∈ s.callee.modifies, τ (s.globalKeeper g) = σ g
  /-- The other variables are as after the results are stored. -/
  other : ∀ x, x ∉ s.temporaries → τ x = γ.store s.outputs as x

/-- The values of the outputs, seen through the variables that get them. -/
theorem find?_returned {γ : I.State} {as : List I.Carrier} (hlength : as.length = s.outputs.length)
    (hnodup : s.outputs.Nodup) (n : Name) :
    (NameMap.ofList (s.callee.outputs.zipWith (fun x a => (x.name, a)) as)).find? n =
      (s.results.find? n).map (γ.store s.outputs as) := by
  have hzip : s.callee.outputs.zipWith (fun x a => (x.name, a)) as =
      (s.callee.outputs.zipWith (fun x o => (x.name, o)) s.outputs).map
        fun e => (e.1, γ.store s.outputs as e.2) := by
    calc s.callee.outputs.zipWith (fun x a => (x.name, a)) as
        = s.callee.outputs.zipWith (fun x a => (x.name, a))
            (s.outputs.map (γ.store s.outputs as)) := by
          rw [Interpretation.State.map_store hnodup hlength]
      _ = s.callee.outputs.zipWith (fun x o => (x.name, γ.store s.outputs as o)) s.outputs :=
          List.zipWith_map_right
      _ = _ := by rw [List.map_zipWith]
  rw [hzip, NameMap.find?_ofList_map]
  rfl

/-- A name for which there is an output takes one of the variables that get results. -/
theorem mem_outputs_of_find?_results {n o : Name} (h : s.results.find? n = some o) :
    o ∈ s.outputs := by
  have hmem := NameMap.mem_of_find?_ofList h
  rw [← List.map_uncurry_zip_eq_zipWith] at hmem
  obtain ⟨⟨x, o'⟩, hzip, heq⟩ := List.mem_map.mp hmem
  cases heq
  exact (List.of_mem_zip hzip).2

/-- There is a variable for every output. -/
theorem find?_results_eq_none (hlength : s.outputs.length = s.callee.outputs.length) {n : Name} :
    s.results.find? n = none ↔ n ∉ s.callee.outputs.map (·.name) := by
  have hkeys : (s.callee.outputs.zipWith (fun x o => (x.name, o)) s.outputs).map (·.1) =
      s.callee.outputs.map (·.name) := by
    rw [List.map_zipWith, ← List.map_uncurry_zip_eq_zipWith]
    change ((s.callee.outputs.zip s.outputs).map ((·.name) ∘ Prod.fst)) = _
    rw [← List.map_map, List.map_fst_zip (Nat.le_of_eq hlength.symm)]
  unfold results
  rw [NameMap.find?_ofList_eq_none, hkeys]

/-- The postcondition that the scope assumes has the value that the postcondition has at the end of
the call. -/
theorem value_substituteOld_parameters (hargs : s.args.length = s.callee.inputs.length)
    (houtputs : s.outputs.length = s.callee.outputs.length) (hnodup : s.outputs.Nodup)
    (hfresh : s.IsFresh c.declarations) (hunread : s.ResultsUnread) {γ : I.State}
    {as : List I.Carrier} (has : as.length = s.outputs.length) (h : s.Represents c σ γ as τ)
    {r : Ensures} (hr : r ∈ s.callee.ensures) :
    (c.enter locals).value τ (r.condition.body.substituteOld s.parameters s.entryValues) =
      I.value (s.ensuresReading c σ γ as) r.condition.body := by
  -- What stands for a name, unless the name is a global that gets a result.
  have hparam : ∀ n ∈ r.condition.body.names, (n ∉ s.formals → n ∉ s.outputs) →
      I.value ((c.enter locals).reading τ) ((s.parameters n).getD (.symbol n)) =
        s.resultReading c σ γ as n := by
    intro n hn hout
    unfold resultReading
    rw [s.parameters_eq hargs]
    cases ha : s.arguments.find? n with
    | some a => exact h.input n a ha
    | none =>
      cases ho : s.results.find? n with
      | some o =>
        have hmem := mem_outputs_of_find?_results ho
        have hother := h.other o (hfresh.changed o (mem_changed.2 (.inl hmem)))
        change some (τ o) = some _
        rw [find?_returned has hnodup, ho, hother]
        rfl
      | none =>
        have hformal : n ∉ s.formals := by
          unfold formals
          rw [List.mem_append, not_or]
          exact ⟨(find?_arguments_eq_none hargs).1 ha, (find?_results_eq_none houtputs).1 ho⟩
        have hother := h.other n (hfresh.ensures r hr n hn hformal)
        change some (τ n) = some _
        rw [find?_returned (γ := γ) has hnodup, ho, hother,
          Interpretation.State.store_of_not_mem (hout hformal)]
        rfl
  -- Neither exception arises: what is read of such a global is read on entry.
  refine Interpretation.value_substituteOld (fun n hn => ?_) fun n hn => ?_
  · refine hparam n (Expr.mem_names_of_mem_readsAt hn) fun hformal hmem => ?_
    cases (hunread r hr _ n hn hformal hmem).1
  · rw [entryValues_eq, ensuresReading]
    split_ifs with hg
    · exact congrArg some (h.global n hg)
    · refine hparam n (Expr.mem_names_of_mem_readsAt hn) fun hformal hmem => ?_
      exact hg (hunread r hr _ n hn hformal hmem).2

/-- A local is kept under its name. -/
theorem not_mem_temporaries {x : Name} :
    x ∉ s.temporaries ↔ (NameMap.ofList s.kept).find? x = none :=
  NameMap.find?_ofList_eq_none.symm

/-- What the locals keep does not read them. -/
theorem not_mem_temporaries_of_kept (hfresh : s.IsFresh c.declarations) {p : Name × Expr}
    (hp : p ∈ s.kept) : ∀ n ∈ p.2.names, n ∉ s.temporaries := by
  intro n hn
  unfold kept at hp
  rcases List.mem_append.mp hp with hp | hp
  · rw [← List.map_uncurry_zip_eq_zipWith] at hp
    obtain ⟨⟨x, a⟩, hzip, rfl⟩ := List.mem_map.mp hp
    exact hfresh.args a (List.of_mem_zip hzip).2 n hn
  · obtain ⟨g, hg, rfl⟩ := List.mem_map.mp hp
    have heq : n = g := Expr.mem_names_symbol.1 hn
    rw [heq]
    exact hfresh.changed g (mem_changed.2 (.inr hg))

/-- Each argument has a value if everything that the locals keep has one. -/
theorem forall_args_iff (hargs : s.args.length = s.callee.inputs.length) {P : Expr → Prop}
    (hglobals : ∀ g ∈ s.callee.modifies, P (.symbol g)) :
    (∀ a ∈ s.args, P a) ↔ ∀ p ∈ s.kept, P p.2 := by
  -- The locals keep the arguments first and the globals after them.
  have hmap : s.kept.map (·.2) = s.args ++ s.callee.modifies.map .symbol := by
    have hinputs : (s.callee.inputs.zipWith (fun x a => (s.inputKeeper x.name, a)) s.args).map
        (·.2) = s.args := by
      rw [List.map_zipWith, ← List.map_uncurry_zip_eq_zipWith]
      exact List.map_snd_zip (Nat.le_of_eq hargs)
    rw [kept, List.map_append, hinputs, List.map_map]
    rfl
  constructor
  · intro h p hp
    have hp : p.2 ∈ s.args ++ s.callee.modifies.map .symbol := hmap ▸ List.mem_map_of_mem hp
    rcases List.mem_append.mp hp with hp | hp
    · exact h _ hp
    · obtain ⟨g, hg, heq⟩ := List.mem_map.mp hp
      exact heq ▸ hglobals g hg
  · intro h a ha
    have hmem : a ∈ s.kept.map (·.2) := hmap ▸ List.mem_append_left _ ha
    obtain ⟨p, hp, rfl⟩ := List.mem_map.mp hmem
    exact h p hp

/-- Every run of the scope ends where the contract says that the call can end. -/
theorem ends_of_runs (hnames : locals.map (·.name) = s.temporaries)
    (hwhere : ∀ v ∈ locals, v.whereClause = none) (h : s.IsRegular c.declarations)
    (hrun : (Cmd.scope locals s.cmds).Runs c σ τ) : s.Ends c σ τ := by
  obtain ⟨σ', τ', hopen, hcmds, rfl⟩ := hrun
  have hσ' : ∀ x, x ∉ s.temporaries → σ' x = σ x := (opens_iff hnames hwhere).1 hopen
  obtain ⟨σ₂, hassign, ⟨hsame, hconditions⟩, hensures⟩ := runsAll_cmds_iff.1 hcmds
  obtain ⟨hvalues, hσ₂⟩ := Context.assigns_iff.1 hassign
  have hkept : ∀ p ∈ s.kept, (c.enter locals).value σ' p.2 = c.value σ p.2 := fun p hp =>
    valueAt_enter hnames _ (not_mem_temporaries_of_kept h.fresh hp) hσ'
  -- A local has the value of what it keeps, for the havoc leaves it alone.
  have hholder : ∀ x e, (NameMap.ofList s.kept).find? x = some e → some (τ' x) = c.value σ e := by
    intro x e he
    have hp := NameMap.mem_of_find?_ofList he
    have hx : x ∉ s.changed := fun hx =>
      h.fresh.changed x hx (List.mem_map_of_mem hp)
    rw [hsame x hx, hσ₂ x, he]
    exact hkept _ hp
  have hother : ∀ x, x ∉ s.temporaries → x ∉ s.changed → τ' x = σ x := by
    intro x hx hchanged
    have hstay := hσ₂ x
    rw [not_mem_temporaries.1 hx] at hstay
    rw [hsame x hchanged, Option.some.inj hstay, hσ' x hx]
  -- The procedure ends with the globals that it may change as they are after the scope.
  let γ : I.State := fun x => if x ∈ s.callee.modifies then τ' x else σ x
  have hstore : ∀ x, x ∉ s.temporaries → τ' x = γ.store s.outputs (s.outputs.map τ') x := by
    intro x hx
    by_cases hout : x ∈ s.outputs
    · rw [Interpretation.State.store_map_of_mem hout]
    · rw [Interpretation.State.store_of_not_mem hout]
      by_cases hmod : x ∈ s.callee.modifies
      · exact (if_pos hmod).symm
      · have hx' : x ∉ s.changed := fun hmem => (mem_changed.1 hmem).elim hout hmod
        rw [hother x hx hx']
        exact (if_neg hmod).symm
  have hrep : s.Represents c σ γ (s.outputs.map τ') τ' := by
    refine ⟨fun x a ha => ?_, fun g hg => ?_, hstore⟩
    · exact hholder _ a ((s.find?_kept_inputKeeper x).trans ha)
    · exact Option.some.inj (hholder _ _ (find?_kept_globalKeeper hg))
  -- Closing the scope takes back the locals only.
  have hclose : ∀ x, x ∉ s.temporaries → τ' x = Context.close locals σ τ' x := by
    intro x hx
    unfold Context.close
    rw [hnames, if_neg hx]
  have hglobals : ∀ g ∈ s.callee.modifies, ∃ x, c.value σ (.symbol g) = some x :=
    fun g _ => ⟨σ g, rfl⟩
  refine ⟨(forall_args_iff h.args hglobals).2 fun p hp => hkept p hp ▸ hvalues p hp, γ,
    s.outputs.map τ', List.length_map _, fun x hx => if_neg hx, fun r hr => ?_, ?_, ?_⟩
  · have hvalue : (c.enter locals).value τ'
        (r.condition.body.substituteOld s.parameters s.entryValues) = _ :=
      value_substituteOld_parameters h.args h.outputs h.nodup h.fresh h.unread
        (List.length_map _) hrep hr
    exact hvalue.symm.trans (hensures r hr)
  · funext x
    by_cases hx : x ∈ s.temporaries
    · have hout : x ∉ s.outputs := fun hmem => h.fresh.changed x (mem_changed.2 (.inl hmem)) hx
      have hmod : x ∉ s.callee.modifies := fun hmem =>
        h.fresh.changed x (mem_changed.2 (.inr hmem)) hx
      rw [Interpretation.State.store_of_not_mem hout, Context.close, hnames, if_pos hx]
      exact (if_neg hmod).symm
    · rw [← hclose x hx, hstore x hx]
  · intro x hx w hw
    have hx' := mem_changed.2 hx
    have hw' : (c.enter locals).whereClause? x = some w := by
      rw [Context.whereClause?_enter (hnames ▸ h.fresh.changed x hx'), hw]
    have hvalue := valueAt_enter hnames .current (h.fresh.whereClauses x hx' w hw) hclose (c := c)
    exact hvalue.symm.trans (hconditions x hx' w hw')

/-- The scope runs to every state in which the contract says that the call can end. -/
theorem runs_of_ends (hnames : locals.map (·.name) = s.temporaries)
    (hwhere : ∀ v ∈ locals, v.whereClause = none) (h : s.IsRegular c.declarations)
    (hends : s.Ends c σ τ) : (Cmd.scope locals s.cmds).Runs c σ τ := by
  obtain ⟨hargs, γ, as, has, hγ, hensures, rfl, hconditions⟩ := hends
  have hglobals : ∀ g ∈ s.callee.modifies, ∃ x, c.value σ (.symbol g) = some x :=
    fun g _ => ⟨σ g, rfl⟩
  have hvalues := (forall_args_iff h.args hglobals).1 hargs
  have hkept : ∀ p ∈ s.kept, (c.enter locals).value σ p.2 = c.value σ p.2 := fun p hp =>
    valueAt_enter hnames _ (not_mem_temporaries_of_kept h.fresh hp) fun _ _ => rfl
  -- The locals keep what they are to keep, and then what changes gets the values that it ends with.
  let σ₂ : I.State := fun x =>
    (((NameMap.ofList s.kept).find? x).bind (c.value σ)).getD (σ x)
  let τ' : I.State := fun x => if x ∈ s.temporaries then σ₂ x else γ.store s.outputs as x
  have hσ₂ : ∀ x, some (σ₂ x) = ((NameMap.ofList s.kept).find? x).elim (some (σ x))
      ((c.enter locals).value σ) := by
    intro x
    cases he : (NameMap.ofList s.kept).find? x with
    | none => simp [σ₂, he]
    | some e =>
      have hp := NameMap.mem_of_find?_ofList he
      obtain ⟨a, ha⟩ := hvalues _ hp
      have ha' : (c.enter locals).value σ e = some a := (hkept _ hp).trans ha
      have hx : σ₂ x = a := by
        simp only [σ₂, he, Option.bind_some]
        rw [ha]
        rfl
      rw [hx]
      exact ha'.symm
  have hsame : ∀ x, x ∉ s.changed → γ.store s.outputs as x = σ x := by
    intro x hx
    rw [mem_changed, not_or] at hx
    rw [Interpretation.State.store_of_not_mem hx.1, hγ x hx.2]
  have hother : ∀ x, x ∉ s.temporaries → τ' x = γ.store s.outputs as x := fun x hx => if_neg hx
  have hholder : ∀ x e, (NameMap.ofList s.kept).find? x = some e → some (τ' x) = c.value σ e := by
    intro x e he
    have hp := NameMap.mem_of_find?_ofList he
    have hx : τ' x = σ₂ x := if_pos (List.mem_map_of_mem hp)
    rw [hx, hσ₂, he]
    exact hkept _ hp
  -- What the postconditions read is as in the state that the procedure ends in.
  have hrep : s.Represents c σ γ as τ' := by
    refine ⟨fun x a ha => ?_, fun g hg => ?_, hother⟩
    · exact hholder _ a ((s.find?_kept_inputKeeper x).trans ha)
    · exact Option.some.inj (hholder _ _ (find?_kept_globalKeeper hg))
  refine ⟨σ, τ', (opens_iff hnames hwhere).2 fun _ _ => rfl,
    runsAll_cmds_iff.2 ⟨σ₂, ?_, ⟨fun x hx => ?_, fun x hx w hw => ?_⟩, fun r hr => ?_⟩, ?_⟩
  · refine Context.assigns_iff.2 ⟨fun p hp => ?_, hσ₂⟩
    obtain ⟨a, ha⟩ := hvalues p hp
    exact ⟨a, (hkept p hp).trans ha⟩
  · by_cases hmem : x ∈ s.temporaries
    · exact if_pos hmem
    · have hstay := hσ₂ x
      rw [not_mem_temporaries.1 hmem] at hstay
      rw [hother x hmem, hsame x hx, Option.some.inj hstay]
  · rw [Context.whereClause?_enter (hnames ▸ h.fresh.changed x hx)] at hw
    have hvalue := valueAt_enter hnames .current (h.fresh.whereClauses x hx w hw) hother (c := c)
    exact hvalue.trans (hconditions x (mem_changed.1 hx) w hw)
  · have hvalue : (c.enter locals).value τ'
        (r.condition.body.substituteOld s.parameters s.entryValues) = _ :=
      value_substituteOld_parameters h.args h.outputs h.nodup h.fresh h.unread has hrep hr
    exact hvalue.trans (hensures r hr)
  · funext x
    unfold Context.close
    rw [hnames]
    by_cases hx : x ∈ s.temporaries
    · have hchanged : x ∉ s.changed := fun hmem => h.fresh.changed x hmem hx
      rw [if_pos hx, hsame x hchanged]
    · rw [if_neg hx, hother x hx]

/-- The call `r := Step(r)` of a procedure with an input `x`, an output `y`, the precondition `0 < x`
and the postconditions `g == old(g) + x` and `y == g`, where `g` is a global that the procedure may
change. -/
def steppingCall : CallSite where
  caller := ⟨"P"⟩
  callee :=
    { name := ⟨"Step"⟩, inputs := [⟨⟨"x"⟩, .int, none, .input⟩]
      outputs := [⟨⟨"y"⟩, .int, none, .output⟩]
      requires := [⟨.formula (.binary .lt (.int 0) (.symbol ⟨"x"⟩)), false⟩]
      ensures :=
        [⟨.formula (.binary .eq (.symbol ⟨"g"⟩)
          (.binary .add (.old (.symbol ⟨"g"⟩)) (.symbol ⟨"x"⟩))), false, [], none⟩,
         ⟨.formula (.binary .eq (.symbol ⟨"y"⟩) (.symbol ⟨"g"⟩)), true, [], none⟩]
      modifies := [⟨"g"⟩], attributes := [] }
  number := 0
  args := [.symbol ⟨"r"⟩]
  outputs := [⟨"r"⟩]

/-- The declarations of a caller with the local `r`, which is never negative. -/
def steppingDeclarations : Declarations :=
  .ofList [(⟨"g"⟩, ⟨⟨"g"⟩, .int, none, .global⟩),
    (⟨"r"⟩, ⟨⟨"r"⟩, .int, some (.binary .le (.int 0) (.symbol ⟨"r"⟩)), .local⟩)]

theorem steppingCall_isPlain : steppingCall.IsPlain := by
  constructor <;> simp [steppingCall]

theorem steppingCall_isRegular : steppingCall.IsRegular steppingDeclarations where
  args := rfl
  outputs := rfl
  nodup := by decide
  fresh :=
    { args := by decide
      requires := by decide
      ensures := by decide
      changed := by decide
      whereClauses := by
        have hall : ∀ x ∈ steppingCall.changed,
            ∀ w ∈ (steppingDeclarations.find? x).bind (·.whereClause),
              ∀ n ∈ w.names, n ∉ steppingCall.temporaries := by decide
        exact hall }
  unread := by
    have hall : ∀ r ∈ steppingCall.callee.ensures, ∀ p ∈ r.condition.body.readsAt .current,
        p.2 ∉ steppingCall.formals → p.2 ∈ steppingCall.outputs →
          p.1 = .entry ∧ p.2 ∈ steppingCall.callee.modifies := by decide
    exact fun r hr t n hn => hall r hr (t, n) hn

/-- The call `g := Next()` of a procedure with an output `y` and the postcondition `y == g + 1`, where
`g` is a global. -/
def storingCall : CallSite where
  caller := ⟨"P"⟩
  callee :=
    { name := ⟨"Next"⟩, inputs := [], outputs := [⟨⟨"y"⟩, .int, none, .output⟩], requires := []
      ensures := [⟨.formula (.binary .eq (.symbol ⟨"y"⟩) (.binary .add (.symbol ⟨"g"⟩) (.int 1))),
        false, [], none⟩]
      modifies := [], attributes := [] }
  number := 0
  args := []
  outputs := [⟨"g"⟩]

/-- The call `Test(1)` of a procedure with an input `x` and the postcondition `call0formalx == 0`,
where `call0formalx` is a global. -/
def hidingCall : CallSite where
  caller := ⟨"P"⟩
  callee :=
    { name := ⟨"Test"⟩, inputs := [⟨⟨"x"⟩, .int, none, .input⟩], outputs := [], requires := []
      ensures := [⟨.formula (.binary .eq (.symbol ⟨"call0formalx"⟩) (.int 0)), false, [], none⟩]
      modifies := [], attributes := [] }
  number := 0
  args := [.int 1]
  outputs := []

/-- The program of a call, with one global. -/
def programOf (s : CallSite) (g : Name) : Program where
  globals := [⟨g, .int, none, .global⟩]
  functions := []
  procedures := [s.callee]
  implementations := []

/-- The context of a caller without parameters and locals, in a program with one global. -/
def contextOf (g : Name) : Context (Interpretation.standard fun _ _ => none) where
  declarations := .ofList [(g, ⟨g, .int, none, .global⟩)]
  modified := []
  entry := fun _ => .value (.int 0)

theorem storingCall_isPlain : storingCall.IsPlain where
  requires r hr := by cases hr
  ensures r hr := by
    cases List.mem_singleton.mp hr
    exact ⟨_, rfl⟩

theorem hidingCall_isPlain : hidingCall.IsPlain where
  requires r hr := by cases hr
  ensures r hr := by
    cases List.mem_singleton.mp hr
    exact ⟨_, rfl⟩

theorem whereClause?_contextOf (g x : Name) : (contextOf g).whereClause? x = none := by
  unfold Context.whereClause? contextOf
  rw [NameMap.find?_ofList_cons, NameMap.find?_ofList_nil, Option.none_or]
  split <;> rfl

/-- No value of an integer variable is its own successor. -/
theorem not_holds_eq_succ (c : Context (Interpretation.standard fun _ _ => none))
    (σ : Interpretation.State (Interpretation.standard fun _ _ => none)) (n : Name) :
    ¬ c.Holds σ (.binary .eq (.symbol n) (.binary .add (.symbol n) (.int 1))) := by
  intro h
  obtain ⟨x, hx, hsucc⟩ := Interpretation.holds_eq_iff.1 h
  cases hx
  change Interpretation.standardBinary .add (σ n) (some (.value (.int 1))) = some (σ n) at hsucc
  rcases hn : σ n with (k | b) | ⟨width, k⟩
  · rw [hn] at hsucc
    have hk : some (Datum.value (.int (k + 1))) = some (Datum.value (.int k)) := hsucc
    simp only [Option.some.injEq, Datum.value.injEq, Value.int.injEq] at hk
    omega
  · rw [hn] at hsucc
    simp [Interpretation.standardBinary, BinaryOp.decidedBy?, Datum.asValue?, BinaryOp.apply,
      Except.toOption] at hsucc
  · rw [hn] at hsucc
    simp [Interpretation.standardBinary] at hsucc

end Obligations.CallSite
