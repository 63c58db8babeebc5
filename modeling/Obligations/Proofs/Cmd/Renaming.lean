import Mathlib.Logic.Equiv.Basic
import Obligations.Proofs.Cmd.Run

/-!
# Renaming variables

A permutation of names acts on expressions, on commands with the locals that they declare, and on
states. Runs and failures follow it: a renamed command leads from a renamed state to a renamed state
exactly if the command leads from the one state to the other, in contexts that agree up to the
renaming (`Cmd.runsAll_rename_iff`, `Cmd.failsAll_rename_iff`).
-/

namespace Obligations

/-- The expression with every variable renamed, also under `old`. -/
def Expr.rename (f : Name → Name) (e : Expr) : Expr := e.substitute fun n => some (.symbol (f n))

/-- The declaration of a variable under another name, which the condition on it uses too. -/
def Variable.rename (f : Name → Name) (v : Variable) : Variable :=
  { v with name := f v.name, whereClause := v.whereClause.map (·.rename f) }

namespace Cmd

/- Renaming in a command and in several commands. -/
mutual

/-- Renames the variables that a command reads, writes or declares. -/
def rename (f : Name → Name) : Cmd → Cmd
  | assert a => assert { a with condition := a.condition.rename f }
  | assume e => assume (e.rename f)
  | assign pairs => assign (pairs.map fun p => (f p.1, p.2.rename f))
  | havoc vars => havoc (vars.map f)
  | call callee args outputs => call callee (args.map (·.rename f)) (outputs.map f)
  | comment text => comment text
  | scope locals cmds => scope (locals.map (·.rename f)) (renameAll f cmds)

/-- Renames the variables of several commands. -/
def renameAll (f : Name → Name) : List Cmd → List Cmd
  | [] => []
  | c :: cs => c.rename f :: renameAll f cs

end

theorem renameAll_eq_map (f : Name → Name) (ds : List Cmd) : renameAll f ds = ds.map (rename f) := by
  induction ds with
  | nil => rfl
  | cons d ds ih => rw [renameAll, List.map_cons, ih]

end Cmd

variable {I : Interpretation} {π : Equiv.Perm Name}

/-- The state in which every name has the value that the name renamed to it had. -/
def Interpretation.State.rename (π : Equiv.Perm Name) (s : I.State) : I.State := s ∘ π.symm

namespace Interpretation.State

variable {s t : I.State}

@[simp] theorem rename_apply (x : Name) : s.rename π (π x) = s x := by
  simp [rename]

@[simp] theorem rename_inj : s.rename π = t.rename π ↔ s = t :=
  π.symm.surjective.injective_comp_right.eq_iff

/-- Every state is the renamed form of one. -/
theorem exists_rename (π : Equiv.Perm Name) {P : I.State → Prop} :
    (∃ s : I.State, P s) ↔ ∃ s : I.State, P (s.rename π) := by
  constructor
  · rintro ⟨s, hs⟩
    refine ⟨s ∘ π, ?_⟩
    have hback : State.rename π (s ∘ π : I.State) = s := by
      funext x
      simp [rename]
    rwa [hback]
  · rintro ⟨s, hs⟩
    exact ⟨_, hs⟩

end Interpretation.State

/-- Renamed variables are looked up under their new names. -/
theorem find?_ofList_rename (π : Equiv.Perm Name) (vs : List Variable) (x : Name) :
    (NameMap.ofList ((vs.map (·.rename π)).map fun v => (v.name, v))).find? (π x) =
      ((NameMap.ofList (vs.map fun v => (v.name, v))).find? x).map (Variable.rename π) := by
  have hlist : (vs.map (·.rename π)).map (fun v => (v.name, v)) =
      ((vs.map fun v => (v.name, v)).map fun e => (e.1, Variable.rename π e.2)).map
        fun e => (π e.1, e.2) := by
    simp [Variable.rename, Function.comp_def]
  rw [hlist, NameMap.find?_ofList_rename fun _ _ => π.injective.eq_iff.1, NameMap.find?_ofList_map]

/-- Two contexts agree up to a renaming: renamed variables have the conditions of the variables,
renamed, and the same of them were modified since the entry. -/
structure Context.Renames (π : Equiv.Perm Name) (c c' : Context I) : Prop where
  /-- The conditions on variables. -/
  whereClause : ∀ x, c'.whereClause? (π x) = (c.whereClause? x).map (·.rename π)
  /-- The names that denote their values on entry. -/
  modified : ∀ x, π x ∈ c'.modified ↔ x ∈ c.modified
  /-- The state on entry. -/
  entry : c'.entry = c.entry.rename π

namespace Context.Renames

variable {c c' : Context I} {s s₀ t : I.State} {locals : List Variable}

/-- A renamed expression has in a renamed state the value of the expression in the state. -/
theorem value (h : c.Renames π c') (e : Expr) :
    c'.value (s.rename π) (e.rename π) = c.value s e := by
  refine Interpretation.value_substitute fun p _ => ?_
  obtain ⟨m, x⟩ := p
  change c'.reading (s.rename π) m (π x) = c.reading s m x
  cases m with
  | current => simp [reading]
  | entry => simp [reading, h.modified, h.entry]

theorem holds (h : c.Renames π c') (e : Expr) :
    c'.Holds (s.rename π) (e.rename π) ↔ c.Holds s e := by
  unfold Holds
  rw [h.value]

theorem mem_map_name {x : Name} :
    π x ∈ (locals.map (·.rename π)).map (·.name) ↔ x ∈ locals.map (·.name) := by
  rw [List.map_map]
  simp only [List.mem_map, Function.comp_apply, Variable.rename]
  exact exists_congr fun v => and_congr_right fun _ => π.apply_eq_iff_eq

/-- Inside a scope with renamed locals the contexts still agree. -/
theorem enter (h : c.Renames π c') (locals : List Variable) :
    (c.enter locals).Renames π (c'.enter (locals.map (·.rename π))) where
  whereClause x := by
    by_cases hx : x ∈ locals.map (·.name)
    · have hlookup := find?_ofList_rename π locals x
      obtain ⟨v, hv⟩ : ∃ v, (NameMap.ofList (locals.map fun v => (v.name, v))).find? x = some v := by
        rw [← Option.ne_none_iff_exists', ne_eq, NameMap.find?_ofList_eq_none, List.map_map]
        exact fun hnot => hnot hx
      unfold whereClause? Context.enter
      rw [NameMap.find?_insertAll, NameMap.find?_insertAll, hlookup, hv]
      rfl
    · rw [whereClause?_enter hx, whereClause?_enter fun hmem => hx (mem_map_name.1 hmem),
        h.whereClause]
  modified x := by
    unfold Context.enter
    simp only [List.mem_filter, decide_eq_true_eq, h.modified, mem_map_name]
  entry := h.entry

/-- Assignments follow a renaming. -/
theorem assigns_iff (h : c.Renames π c') (pairs : List (Name × Expr)) :
    c'.Assigns (s.rename π) (pairs.map fun p => (π p.1, p.2.rename π)) (s₀.rename π) (t.rename π) ↔
      c.Assigns s pairs s₀ t := by
  induction pairs generalizing s₀ with
  | nil => exact Interpretation.State.rename_inj
  | cons p pairs ih =>
    obtain ⟨x, e⟩ := p
    simp only [List.map_cons, Assigns, h.value]
    refine exists_congr fun a => and_congr_right fun _ => ?_
    -- Storing under the new name is storing first and renaming then.
    have hupdate : Function.update (s₀.rename π) (π x) a =
        Interpretation.State.rename π (Function.update s₀ x a) := by
      funext y
      obtain ⟨y, rfl⟩ := π.surjective y
      rw [Interpretation.State.rename_apply]
      by_cases hy : y = x
      · subst hy
        simp
      · rw [Function.update_of_ne (π.injective.ne hy), Function.update_of_ne hy,
          Interpretation.State.rename_apply]
    rw [hupdate]
    exact ih

/-- Arbitrary values follow a renaming. -/
theorem havocs_iff (h : c.Renames π c') (xs : List Name) :
    c'.Havocs (xs.map π) (s.rename π) (t.rename π) ↔ c.Havocs xs s t := by
  unfold Havocs
  refine and_congr ?_ ?_
  · rw [π.surjective.forall]
    simp only [List.mem_map, π.apply_eq_iff_eq, exists_eq_right,
      Interpretation.State.rename_apply]
  · rw [List.forall_mem_map]
    refine forall₂_congr fun x _ => ?_
    rw [h.whereClause]
    simp only [Option.map_eq_some_iff, forall_exists_index, and_imp, forall_apply_eq_imp_iff₂,
      h.holds]

/-- The values with which locals start follow a renaming. -/
theorem opens_iff (h : c.Renames π c') (locals : List Variable) :
    c'.Opens (locals.map (·.rename π)) (s.rename π) (t.rename π) ↔ c.Opens locals s t := by
  unfold Opens
  refine and_congr ?_ ?_
  · rw [π.surjective.forall]
    simp only [mem_map_name, Interpretation.State.rename_apply]
  · rw [List.forall_mem_map]
    refine forall₂_congr fun v _ => ?_
    change (∀ w, v.whereClause.map (·.rename π) = some w → _) ↔ _
    simp only [Option.map_eq_some_iff, forall_exists_index, and_imp, forall_apply_eq_imp_iff₂,
      (h.enter locals).holds]

theorem close_rename (locals : List Variable) (s t : I.State) :
    close (locals.map (·.rename π)) (s.rename π) (t.rename π) =
      Interpretation.State.rename π (close locals s t) := by
  funext x
  obtain ⟨x, rfl⟩ := π.surjective x
  unfold close
  simp only [mem_map_name, Interpretation.State.rename_apply]

end Context.Renames

namespace Cmd

mutual

@[simp] theorem assertions_rename (f : Name → Name) :
    ∀ d : Cmd, (d.rename f).assertions = d.assertions
  | assert _ => rfl
  | assume _ => rfl
  | assign _ => rfl
  | havoc _ => rfl
  | call _ _ _ => rfl
  | comment _ => rfl
  | scope _ cmds => assertionsAll_renameAll f cmds

@[simp] theorem assertionsAll_renameAll (f : Name → Name) :
    ∀ ds : List Cmd, assertionsAll (renameAll f ds) = assertionsAll ds
  | [] => rfl
  | d :: ds => by
    rw [renameAll, assertionsAll, assertionsAll, assertions_rename f d, assertionsAll_renameAll f ds]

end

mutual

/-- A renamed command leads from a renamed state to a renamed state if the command leads from the one
state to the other. -/
theorem runs_rename_iff : ∀ (d : Cmd) {c c' : Context I} {s t : I.State}, c.Renames π c' →
    (Runs c' (d.rename π) (s.rename π) (t.rename π) ↔ Runs c d s t)
  | assert _, _, _, _, _, _ => Interpretation.State.rename_inj
  | assume e, _, _, _, _, h => and_congr (h.holds e) Interpretation.State.rename_inj
  | assign pairs, _, _, _, _, h => h.assigns_iff pairs
  | havoc xs, _, _, _, _, h => h.havocs_iff xs
  | call _ _ _, _, _, _, _, _ => Iff.rfl
  | comment _, _, _, _, _, _ => Interpretation.State.rename_inj
  | scope locals cmds, c, c', s, t, h => by
    rw [rename, Runs, Runs, Interpretation.State.exists_rename π]
    refine exists_congr fun s' => ?_
    rw [Interpretation.State.exists_rename π]
    refine exists_congr fun t' => ?_
    rw [h.opens_iff, runsAll_rename_iff cmds (h.enter locals), Context.Renames.close_rename,
      Interpretation.State.rename_inj]

/-- The same for several commands. -/
theorem runsAll_rename_iff : ∀ (ds : List Cmd) {c c' : Context I} {s t : I.State},
    c.Renames π c' →
      (RunsAll c' (renameAll π ds) (s.rename π) (t.rename π) ↔ RunsAll c ds s t)
  | [], _, _, _, _, _ => Interpretation.State.rename_inj
  | d :: ds, c, c', s, t, h => by
    rw [renameAll, RunsAll, RunsAll, Interpretation.State.exists_rename π]
    exact exists_congr fun s' => and_congr (runs_rename_iff d h) (runsAll_rename_iff ds h)

end

mutual

/-- A renamed command fails from a renamed state at an assertion if the command does from the
state. -/
theorem fails_rename_iff : ∀ (d : Cmd) {c c' : Context I} {n : Nat} {s : I.State},
    c.Renames π c' → (Fails c' (d.rename π) n (s.rename π) ↔ Fails c d n s)
  | assert a, _, _, _, _, h => by
    rw [rename, Fails, Fails, h.value]
  | assume _, _, _, _, _, _ => Iff.rfl
  | assign _, _, _, _, _, _ => Iff.rfl
  | havoc _, _, _, _, _, _ => Iff.rfl
  | call _ _ _, _, _, _, _, _ => Iff.rfl
  | comment _, _, _, _, _, _ => Iff.rfl
  | scope locals cmds, c, c', n, s, h => by
    rw [rename, Fails, Fails, Interpretation.State.exists_rename π]
    refine exists_congr fun s' => ?_
    rw [h.opens_iff, failsAll_rename_iff cmds (h.enter locals)]

/-- The same for several commands. -/
theorem failsAll_rename_iff : ∀ (ds : List Cmd) {c c' : Context I} {n : Nat} {s : I.State},
    c.Renames π c' → (FailsAll c' (renameAll π ds) n (s.rename π) ↔ FailsAll c ds n s)
  | [], _, _, _, _, _ => Iff.rfl
  | d :: ds, c, c', n, s, h => by
    rw [renameAll, FailsAll, FailsAll, fails_rename_iff d h]
    refine or_congr_right (exists_congr fun k => ?_)
    rw [Interpretation.State.exists_rename π]
    refine exists_congr fun s' => ?_
    rw [assertions_rename, runs_rename_iff d h, failsAll_rename_iff ds h]

end

end Cmd

end Obligations
