import Obligations.Call.Expansion
import Obligations.Proofs.NameMap
import Obligations.Proofs.Outcome

/-!
# The scope of a call

Where the contract of the procedure consists of formulas, the expansion of a call succeeds exactly
if the procedure may change declared globals only, and `CallSite.expand_eq_ok` gives the scope: its
locals have the names of `CallSite.kept`, which pairs each local with what it keeps. Distinct inputs
and globals have distinct locals (`CallSite.inputKeeper_injective`,
`CallSite.globalKeeper_injective`, `CallSite.inputKeeper_ne_globalKeeper`).
-/

namespace Obligations

/-- The formula of a condition, `true` for a block graph. -/
def Condition.body (c : Condition) : Expr := c.asFormula?.getD (.bool true)

namespace CallSite

/-- All clauses of the contract are formulas. -/
structure IsPlain (s : CallSite) : Prop where
  /-- The preconditions are. -/
  requires : ∀ r ∈ s.callee.requires, ∃ e, r.condition = .formula e
  /-- The postconditions are. -/
  ensures : ∀ r ∈ s.callee.ensures, ∃ e, r.condition = .formula e

/-- The locals of the scope, with what they keep: the arguments, and the globals that the procedure
may change. -/
def kept (s : CallSite) : List (Name × Expr) :=
  s.callee.inputs.zipWith (fun x a => (s.inputKeeper x.name, a)) s.args ++
    s.callee.modifies.map fun g => (s.globalKeeper g, .symbol g)

/-- The names of the locals. -/
def temporaries (s : CallSite) : List Name := s.kept.map (·.1)

/-- The variable that gets each output. -/
def results (s : CallSite) : NameMap Name :=
  .ofList (s.callee.outputs.zipWith (fun x o => (x.name, o)) s.outputs)

/-- The preconditions to check, as commands. -/
def checkCmds (s : CallSite) : List Cmd :=
  (s.callee.requires.filter (!·.free)).map fun r =>
    .assert
      { condition := r.condition.body.substitute s.arguments.find?
        kind := .requires s.callee.name }

/-- The postconditions to assume, as commands. -/
def guaranteeCmds (s : CallSite) : List Cmd :=
  s.callee.ensures.map fun r => .assume (r.condition.body.substituteOld s.parameters s.entryValues)

/-- The commands of the scope. -/
def cmds (s : CallSite) : List Cmd :=
  s.checkCmds ++ (if s.kept.isEmpty then [] else [.assign s.kept]) ++
    (if s.changed.isEmpty then [] else [.havoc s.changed]) ++ s.guaranteeCmds

variable {s : CallSite}

/-! ## The locals -/

theorem inputKeeper_injective (x y : Name) (h : s.inputKeeper x = s.inputKeeper y) : x = y := by
  unfold inputKeeper at h
  have htext := congrArg (fun n : Name => n.text.toList) h
  simp only [String.toList_append, List.append_cancel_left_eq, String.toList_inj] at htext
  cases x
  cases y
  simpa using htext

theorem globalKeeper_injective (g h : Name) (heq : s.globalKeeper g = s.globalKeeper h) :
    g = h := by
  unfold globalKeeper at heq
  have htext := congrArg (fun n : Name => n.text.toList) heq
  simp only [String.toList_append, List.append_cancel_left_eq, String.toList_inj] at htext
  cases g
  cases h
  simpa using htext

/-- No local keeps both an argument and a global. -/
theorem inputKeeper_ne_globalKeeper (x g : Name) : s.inputKeeper x ≠ s.globalKeeper g := by
  intro h
  unfold inputKeeper globalKeeper at h
  have htext := congrArg (fun n : Name => n.text.toList) h
  simp [String.toList_append, List.append_assoc] at htext

/-- The local for an input keeps the argument for it. -/
theorem find?_kept_inputKeeper (s : CallSite) (x : Name) :
    (NameMap.ofList s.kept).find? (s.inputKeeper x) = s.arguments.find? x := by
  have hinputs : s.callee.inputs.zipWith (fun x a => (s.inputKeeper x.name, a)) s.args =
      (s.callee.inputs.zipWith (fun x a => (x.name, a)) s.args).map
        fun e => (s.inputKeeper e.1, e.2) := by
    rw [List.map_zipWith]
  have hglobals : (NameMap.ofList (s.callee.modifies.map fun g =>
      (s.globalKeeper g, Expr.symbol g))).find? (s.inputKeeper x) = none := by
    rw [NameMap.find?_ofList_eq_none, List.map_map]
    intro hmem
    obtain ⟨g, -, hg⟩ := List.mem_map.mp hmem
    exact inputKeeper_ne_globalKeeper x g hg.symm
  rw [kept, NameMap.find?_ofList_append, hglobals, Option.none_or, hinputs,
    NameMap.find?_ofList_rename fun _ _ => inputKeeper_injective _ _]
  rfl

/-- The local for a global that the procedure may change keeps the global. -/
theorem find?_kept_globalKeeper {g : Name} (h : g ∈ s.callee.modifies) :
    (NameMap.ofList s.kept).find? (s.globalKeeper g) = some (.symbol g) := by
  have hglobals : s.callee.modifies.map (fun g => (s.globalKeeper g, Expr.symbol g)) =
      (s.callee.modifies.map fun g => (g, Expr.symbol g)).map
        fun e => (s.globalKeeper e.1, e.2) := by
    rw [List.map_map]
    rfl
  rw [kept, NameMap.find?_ofList_append, hglobals,
    NameMap.find?_ofList_rename fun _ _ => globalKeeper_injective _ _,
    NameMap.find?_ofList_map_self, if_pos h]
  rfl

/-- Under `old`, a global that the procedure may change stands for its local. -/
theorem entryValues_eq (s : CallSite) (g : Name) : s.entryValues g =
    if g ∈ s.callee.modifies then some (.symbol (s.globalKeeper g)) else none := by
  unfold entryValues
  rw [NameMap.find?_ofList_map_self]

/-- An input for which there is an argument stands for its local, an output for the variable that
gets it. -/
theorem parameters_eq (s : CallSite) (h : s.args.length = s.callee.inputs.length) (n : Name) :
    s.parameters n = ((s.arguments.find? n).map fun _ => .symbol (s.inputKeeper n)).or
      ((s.results.find? n).map .symbol) := by
  have hinputs : ∀ (inputs : List Variable) (args : List Expr), args.length = inputs.length →
      (NameMap.ofList (inputs.map fun x => (x.name, Expr.symbol (s.inputKeeper x.name)))).find? n =
        ((NameMap.ofList (inputs.zipWith (fun x a => (x.name, a)) args)).find? n).map
          fun _ => .symbol (s.inputKeeper n) := by
    intro inputs
    induction inputs with
    | nil => intro args _; simp
    | cons x inputs ih =>
      intro args hlength
      cases args with
      | nil => simp at hlength
      | cons a args =>
        rw [List.map_cons, List.zipWith_cons_cons, NameMap.find?_ofList_cons,
          NameMap.find?_ofList_cons, ih args (by simpa using hlength)]
        cases (NameMap.ofList (inputs.zipWith (fun x a => (x.name, a)) args)).find? n with
        | some b => rfl
        | none =>
          -- The first input of a name counts only if no later one has the name.
          by_cases hn : n = x.name
          · simp [hn]
          · simp [hn]
  have houtputs : s.callee.outputs.zipWith (fun x o => (x.name, Expr.symbol o)) s.outputs =
      (s.callee.outputs.zipWith (fun x o => (x.name, o)) s.outputs).map
        fun e => (e.1, .symbol e.2) := by
    rw [List.map_zipWith]
  unfold parameters
  rw [hinputs _ _ h, houtputs, NameMap.find?_ofList_map]
  rfl

/-- The variables that change are the outputs and the globals that the procedure may change. -/
theorem mem_changed {x : Name} : x ∈ s.changed ↔ x ∈ s.outputs ∨ x ∈ s.callee.modifies := by
  -- The induction is over the list of globals, for any list that they are added to.
  have hfold : ∀ (gs xs : List Name),
      x ∈ gs.foldl (fun xs g => if g ∈ xs then xs else xs ++ [g]) xs ↔ x ∈ xs ∨ x ∈ gs := by
    intro gs
    induction gs with
    | nil => simp
    | cons g gs ih =>
      intro xs
      rw [List.foldl_cons, ih]
      by_cases hg : g ∈ xs
      · rw [if_pos hg, List.mem_cons]
        constructor
        · rintro (h | h)
          · exact .inl h
          · exact .inr (.inr h)
        · rintro (h | rfl | h)
          · exact .inl h
          · exact .inl hg
          · exact .inr h
      · rw [if_neg hg, List.mem_append, List.mem_singleton, List.mem_cons, or_assoc]
  exact hfold _ _

/-! ## The expansion -/

theorem formula_eq_ok {r : Condition} (h : ∃ e, r = .formula e) : s.formula r = .ok r.body := by
  obtain ⟨e, rfl⟩ := h
  rfl

/-- The preconditions of a plain contract can be checked. -/
theorem checks_eq_ok (h : s.IsPlain) : s.checks = .ok s.checkCmds := by
  refine mapM_eq_ok fun r hr => ?_
  rw [formula_eq_ok (h.requires r (List.mem_filter.mp hr).1)]
  rfl

/-- The postconditions of a plain contract can be assumed. -/
theorem guarantees_eq_ok (h : s.IsPlain) : s.guarantees = .ok s.guaranteeCmds := by
  refine mapM_eq_ok fun r hr => ?_
  rw [formula_eq_ok (h.ensures r hr)]
  rfl

/-- The globals are kept if all of them are declared. -/
theorem globalKeepers_cases (p : Program) (gs : List Name) :
    (∃ ks, (s.globalKeepers p gs).outcome = .ok ks ∧ (∀ g ∈ gs, (p.global? g).isSome = true) ∧
      ks.map (fun k => (k.holder.name, k.value)) = gs.map (fun g => (s.globalKeeper g, .symbol g)) ∧
      ∀ k ∈ ks, k.holder.whereClause = none) ∨
    ((∃ e, (s.globalKeepers p gs).outcome = .error e) ∧ ∃ g ∈ gs, p.global? g = none) := by
  induction gs with
  | nil => exact .inl ⟨[], rfl, by simp⟩
  | cons g gs ih =>
    rw [globalKeepers]
    cases hg : p.global? g with
    | none => exact .inr ⟨⟨_, rfl⟩, g, List.mem_cons_self, hg⟩
    | some d =>
      -- The global is declared, so it depends on the others whether all are.
      simp only [Minting.outcome_bind, Minting.outcome_mint]
      rcases ih with ⟨ks, hks, hall, hmap, hwhere⟩ | ⟨⟨e, he⟩, g', hg', hnone⟩
      · -- The local for this global is put before those of the others.
        refine .inl ⟨⟨⟨s.globalKeeper g, d.ty, none, .local⟩, .symbol g⟩ :: ks, ?_, ?_, ?_, ?_⟩
        · rw [hks]
          rfl
        · simpa [hg] using hall
        · simpa using hmap
        · simpa using hwhere
      · refine .inr ⟨⟨e, ?_⟩, g', List.mem_cons_of_mem _ hg', hnone⟩
        rw [he]
        rfl

/-- The call of a procedure with a plain contract has a scope exactly if all globals that the
procedure may change are declared. -/
theorem expand_eq_ok (h : s.IsPlain) (p : Program) :
    (∃ locals, (s.expand p).outcome = .ok (.scope locals s.cmds) ∧
      (∀ g ∈ s.callee.modifies, (p.global? g).isSome = true) ∧
      locals.map (·.name) = s.temporaries ∧ ∀ v ∈ locals, v.whereClause = none) ∨
    ((∃ e, (s.expand p).outcome = .error e) ∧ ∃ g ∈ s.callee.modifies, p.global? g = none) := by
  have hinputs : s.inputKeepers.map (fun k => (k.holder.name, k.value)) =
      s.callee.inputs.zipWith (fun x a => (s.inputKeeper x.name, a)) s.args := by
    unfold inputKeepers
    rw [List.map_zipWith]
  unfold expand
  simp only [Minting.outcome_bind]
  -- The three lists that can fail to be made, one after another.
  change (∃ locals, (s.checks >>= fun checks => _) = _ ∧ _) ∨ ((∃ e, (s.checks >>= _) = _) ∧ _)
  rw [checks_eq_ok h]
  change (∃ locals, ((s.globalKeepers p s.callee.modifies).outcome >>= _) = _ ∧ _) ∨
    ((∃ e, ((s.globalKeepers p s.callee.modifies).outcome >>= _) = _) ∧ _)
  rcases s.globalKeepers_cases p s.callee.modifies with
    ⟨ks, hks, hall, hmap, hwhere⟩ | ⟨⟨e, he⟩, hnone⟩
  · rw [hks]
    change (∃ locals, (s.guarantees >>= _) = _ ∧ _) ∨ ((∃ e, (s.guarantees >>= _) = _) ∧ _)
    rw [guarantees_eq_ok h]
    have hkept : (s.inputKeepers ++ ks).map (fun k => (k.holder.name, k.value)) = s.kept := by
      rw [List.map_append, hinputs, hmap]
      rfl
    have hempty : (s.inputKeepers ++ ks).isEmpty = s.kept.isEmpty := by
      rw [← hkept, List.isEmpty_map]
    refine .inl ⟨(s.inputKeepers ++ ks).map (·.holder), ?_, hall, ?_, ?_⟩
    · rw [cmds, ← hempty, ← hkept]
      rfl
    · rw [temporaries, ← hkept, List.map_map, List.map_map]
      rfl
    · -- A local for an argument has no condition, whatever the input has.
      intro v hv
      obtain ⟨k, hk, rfl⟩ := List.mem_map.mp hv
      rcases List.mem_append.mp hk with hk | hk
      · unfold inputKeepers at hk
        rw [← List.map_uncurry_zip_eq_zipWith] at hk
        obtain ⟨⟨x, a⟩, -, rfl⟩ := List.mem_map.mp hk
        rfl
      · exact hwhere k hk
  · rw [he]
    exact .inr ⟨⟨e, rfl⟩, hnone⟩

end CallSite

end Obligations
