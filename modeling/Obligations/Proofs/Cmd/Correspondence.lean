import Mathlib.Data.Set.Function
import Obligations.Proofs.Cmd.Renaming

/-!
# Commands under other names

Commands over a set of names are renamed by a function that tells the names of the set apart. They
then do under the new names what they did under the old ones, whatever the other names denote: from
states that agree along the function a command and the renamed command lead to states that agree
(`Cmd.exists_runs_rename`), and they fail at the same assertions (`Cmd.Fails.rename`). An inverse of
the function renames everything back (`Cmd.rename_rename`), so that the converse statements need no
induction of their own (`Cmd.RunsAll.exists_of_renameAll`). Names that a command does not have keep
their values (`Cmd.Runs.eq_of_isOver`).
-/

namespace Obligations

variable {I : Interpretation} {V : Set Name} {f g : Name → Name}

/-! ## Names that occur -/

/-- An expression reads names of a set only. -/
def Expr.IsOver (V : Set Name) (e : Expr) : Prop := ∀ n ∈ e.names, n ∈ V

/-- A variable and the condition on it have names of a set only. -/
structure Variable.IsOver (V : Set Name) (v : Variable) : Prop where
  /-- The name of the variable. -/
  name : v.name ∈ V
  /-- The names in the condition on it. -/
  whereClause : ∀ w, v.whereClause = some w → w.IsOver V

namespace Cmd

/- Names that a command or several commands read, write or declare. -/
mutual

/-- A command reads, writes and declares names of a set only. -/
def IsOver (V : Set Name) : Cmd → Prop
  | assert a => a.condition.IsOver V
  | assume e => e.IsOver V
  | assign pairs => ∀ p ∈ pairs, p.1 ∈ V ∧ p.2.IsOver V
  | havoc vars => ∀ x ∈ vars, x ∈ V
  | call _ args outputs => (∀ a ∈ args, a.IsOver V) ∧ ∀ x ∈ outputs, x ∈ V
  | comment _ => True
  | scope locals cmds => (∀ v ∈ locals, v.IsOver V) ∧ AreOver V cmds

/-- Several commands read, write and declare names of a set only. -/
def AreOver (V : Set Name) : List Cmd → Prop
  | [] => True
  | c :: cs => c.IsOver V ∧ AreOver V cs

end

end Cmd

/-! ## Renaming back -/

section

variable {e : Expr} {v : Variable}

mutual

theorem Expr.substAt_substAt_symbol (f g : Name → Name) : ∀ (e : Expr) (t : Moment),
    (∀ n ∈ (e.readsAt t).map (·.2), g (f n) = n) →
      (e.substAt (fun _ n => some (.symbol (f n))) true t).substAt
        (fun _ n => some (.symbol (g n))) true t = e
  | .literal _, _, _ => rfl
  | .symbol n, t, h => congrArg Expr.symbol (h n (by simp [readsAt]))
  | .old a, _, h => congrArg Expr.old (substAt_substAt_symbol f g a .entry h)
  | .unary op a, t, h => congrArg (Expr.unary op) (substAt_substAt_symbol f g a t h)
  | .binary op a b, t, h => by
    rw [readsAt, List.map_append, List.forall_mem_append] at h
    exact congrArg₂ (Expr.binary op) (substAt_substAt_symbol f g a t h.1)
      (substAt_substAt_symbol f g b t h.2)
  | .apply k args, t, h => congrArg (Expr.apply k) (substAllAt_substAllAt_symbol f g args t h)

theorem Expr.substAllAt_substAllAt_symbol (f g : Name → Name) : ∀ (es : List Expr) (t : Moment),
    (∀ n ∈ (readsAllAt t es).map (·.2), g (f n) = n) →
      substAllAt (fun _ n => some (.symbol (g n))) true t
        (substAllAt (fun _ n => some (.symbol (f n))) true t es) = es
  | [], _, _ => rfl
  | a :: as, t, h => by
    rw [readsAllAt, List.map_append, List.forall_mem_append] at h
    exact congrArg₂ List.cons (substAt_substAt_symbol f g a t h.1)
      (substAllAt_substAllAt_symbol f g as t h.2)

end

theorem Expr.rename_rename (hback : ∀ n ∈ V, g (f n) = n) (he : e.IsOver V) :
    (e.rename f).rename g = e :=
  substAt_substAt_symbol f g e .current fun n hn => hback n (he n hn)

theorem Expr.IsOver.rename (he : e.IsOver V) : (e.rename f).IsOver (f '' V) := by
  intro n hn
  obtain ⟨p, hp, hn⟩ := exists_of_mem_names_substAt e .current hn
  rw [Option.getD_some, mem_names_symbol] at hn
  exact ⟨p.2, he _ (mem_names_of_mem_readsAt hp), hn.symm⟩

theorem Variable.rename_rename (hback : ∀ n ∈ V, g (f n) = n) (hv : v.IsOver V) :
    (v.rename f).rename g = v := by
  obtain ⟨x, ty, w, kind⟩ := v
  have hw : (w.map (·.rename f)).map (·.rename g) = w := by
    cases w with
    | none => rfl
    | some w => exact congrArg some (Expr.rename_rename hback (hv.whereClause w rfl))
  unfold rename
  dsimp only
  rw [hback x hv.name, hw]

theorem Variable.IsOver.rename (hv : v.IsOver V) : (v.rename f).IsOver (f '' V) where
  name := ⟨v.name, hv.name, rfl⟩
  whereClause w hw := by
    obtain ⟨w, hw', rfl⟩ := Option.map_eq_some_iff.1 hw
    exact (hv.whereClause w hw').rename

end

namespace Cmd

theorem map_map_eq {α β : Type} {as : List α} {h : α → β} {k : β → α}
    (hback : ∀ a ∈ as, k (h a) = a) : (as.map h).map k = as := by
  rw [List.map_map]
  exact (List.map_congr_left hback).trans (List.map_id' as)

mutual

/-- Names that are told apart can be renamed back. -/
theorem rename_rename (hback : ∀ n ∈ V, g (f n) = n) :
    ∀ d : Cmd, d.IsOver V → (d.rename f).rename g = d
  | assert a, h => by
    rw [rename, rename, Expr.rename_rename hback h]
  | assume e, h => congrArg assume (Expr.rename_rename hback h)
  | assign pairs, h => congrArg assign <| map_map_eq fun p hp =>
      Prod.ext (hback p.1 (h p hp).1) (Expr.rename_rename hback (h p hp).2)
  | havoc vars, h => congrArg havoc <| map_map_eq fun x hx => hback x (h x hx)
  | call callee args outputs, h => congrArg₂ (call callee)
      (map_map_eq fun a ha => Expr.rename_rename hback (h.1 a ha))
      (map_map_eq fun x hx => hback x (h.2 x hx))
  | comment _, _ => rfl
  | scope locals cmds, h => congrArg₂ scope
      (map_map_eq fun v hv => Variable.rename_rename hback (h.1 v hv))
      (renameAll_renameAll hback cmds h.2)

/-- The same for several commands. -/
theorem renameAll_renameAll (hback : ∀ n ∈ V, g (f n) = n) :
    ∀ ds : List Cmd, AreOver V ds → renameAll g (renameAll f ds) = ds
  | [], _ => rfl
  | d :: ds, h => congrArg₂ List.cons (rename_rename hback d h.1) (renameAll_renameAll hback ds h.2)

end

mutual

theorem IsOver.rename : ∀ {d : Cmd}, d.IsOver V → (d.rename f).IsOver (f '' V)
  | assert _, h => Expr.IsOver.rename h
  | assume _, h => Expr.IsOver.rename h
  | assign _, h => List.forall_mem_map.2 fun p hp => ⟨⟨p.1, (h p hp).1, rfl⟩, (h p hp).2.rename⟩
  | havoc _, h => List.forall_mem_map.2 fun x hx => ⟨x, h x hx, rfl⟩
  | call _ _ _, h => ⟨List.forall_mem_map.2 fun a ha => (h.1 a ha).rename,
      List.forall_mem_map.2 fun x hx => ⟨x, h.2 x hx, rfl⟩⟩
  | comment _, _ => trivial
  | scope _ _, h => ⟨List.forall_mem_map.2 fun v hv => (h.1 v hv).rename, AreOver.rename h.2⟩

theorem AreOver.rename : ∀ {ds : List Cmd}, AreOver V ds → AreOver (f '' V) (renameAll f ds)
  | [], _ => trivial
  | _ :: _, h => ⟨IsOver.rename h.1, AreOver.rename h.2⟩

end

/-! ## What commands leave alone -/

section

variable {c : Context I} {s s' t : I.State} {x : Name}

theorem eq_of_assigns {pairs : List (Name × Expr)} (h : ∀ p ∈ pairs, p.1 ∈ V ∧ p.2.IsOver V)
    (hx : x ∉ V) (hr : c.Assigns s pairs s' t) : t x = s' x := by
  induction pairs generalizing s' with
  | nil => rw [show t = s' from hr]
  | cons p pairs ih =>
    obtain ⟨a, -, hr⟩ := hr
    obtain ⟨hp, h⟩ := List.forall_mem_cons.1 h
    have hne : x ≠ p.1 := fun heq => hx (heq ▸ hp.1)
    rw [ih h hr, Function.update_of_ne hne]

theorem not_mem_map_name {locals : List Variable} (h : ∀ v ∈ locals, v.IsOver V) (hx : x ∉ V) :
    x ∉ locals.map (·.name) := fun hmem => by
  obtain ⟨v, hv, rfl⟩ := List.mem_map.1 hmem
  exact hx (h v hv).name

mutual

/-- A command leaves names that it does not have alone. -/
theorem Runs.eq_of_isOver (hx : x ∉ V) : ∀ {d : Cmd} {c : Context I} {s t : I.State},
    d.IsOver V → Runs c d s t → t x = s x
  | assert _, _, _, _, _, hr => congrFun hr x
  | assume _, _, _, _, _, hr => congrFun hr.2 x
  | assign _, _, _, _, h, hr => eq_of_assigns h hx hr
  | havoc _, _, _, _, h, hr => hr.1 x fun hmem => hx (h x hmem)
  | comment _, _, _, _, _, hr => congrFun hr x
  | scope _ _, _, _, _, h, ⟨s', t', hopens, hr, heq⟩ => by
    have hnot := not_mem_map_name h.1 hx
    rw [heq, Context.close, if_neg hnot, RunsAll.eq_of_areOver hx h.2 hr, hopens.1 x hnot]

/-- The same for several commands. -/
theorem RunsAll.eq_of_areOver (hx : x ∉ V) : ∀ {ds : List Cmd} {c : Context I} {s t : I.State},
    AreOver V ds → RunsAll c ds s t → t x = s x
  | [], _, _, _, _, hr => congrFun hr x
  | _ :: _, _, _, _, h, ⟨_, hd, hds⟩ =>
    (RunsAll.eq_of_areOver hx h.2 hds).trans (Runs.eq_of_isOver hx h.1 hd)

end

end

end Cmd

/-! ## Agreement along a renaming -/

/-- In one state the new names of a set have the values that the names have in another. -/
def Interpretation.State.Agrees (f : Name → Name) (V : Set Name) (s s' : I.State) : Prop :=
  ∀ x ∈ V, s' (f x) = s x

/-- In one context the new names of a set mean what the names mean in another. -/
structure Context.Agrees (f : Name → Name) (V : Set Name) (c c' : Context I) : Prop where
  /-- The conditions on variables are over the set. -/
  isOver : ∀ x ∈ V, ∀ w, c.whereClause? x = some w → w.IsOver V
  /-- They are renamed. -/
  whereClause : ∀ x ∈ V, c'.whereClause? (f x) = (c.whereClause? x).map (·.rename f)
  /-- The same names denote their values on entry under `old`. -/
  modified : ∀ x ∈ V, (f x ∈ c'.modified ↔ x ∈ c.modified)
  /-- The states on entry agree. -/
  entry : Interpretation.State.Agrees f V c.entry c'.entry

/-- Agreement is symmetric. -/
theorem Interpretation.State.Agrees.symm {s s' : I.State} (hback : ∀ n ∈ V, g (f n) = n)
    (h : Agrees f V s s') : Agrees g (f '' V) s' s := by
  rintro _ ⟨x, hx, rfl⟩
  rw [hback x hx, h x hx]

/-- For every state there is one that agrees with it and differs from a given one at the names that
have other values only. -/
theorem Interpretation.State.Agrees.exists_agrees (hinj : Set.InjOn f V) {s s' : I.State}
    (h : Agrees f V s s') {xs : List Name} {t : I.State} (ht : ∀ x, x ∉ xs → t x = s x) :
    ∃ t', Agrees f V t t' ∧ ∀ y, y ∉ xs.map f → t' y = s' y := by
  classical
  let t' : I.State := fun y => if hy : ∃ x ∈ V, f x = y then t hy.choose else s' y
  have ht' : Agrees f V t t' := by
    intro x hx
    have hex : ∃ z ∈ V, f z = f x := ⟨x, hx, rfl⟩
    have hx' : hex.choose = x := hinj hex.choose_spec.1 hx hex.choose_spec.2
    rw [show t' (f x) = t hex.choose from dif_pos hex, hx']
  refine ⟨t', ht', fun y hy => ?_⟩
  by_cases hex : ∃ x ∈ V, f x = y
  · obtain ⟨x, hx, rfl⟩ := hex
    rw [ht' x hx, h x hx, ht x fun hmem => hy (List.mem_map_of_mem hmem)]
  · exact dif_neg hex

/-- In a scope a variable has the condition on the local of its name, or else the one outside. -/
theorem Context.whereClause?_enter_eq {c : Context I} {locals : List Variable} {x : Name} :
    (c.enter locals).whereClause? x =
      (((NameMap.ofList (locals.map fun v => (v.name, v))).find? x).map (·.whereClause)).getD
        (c.whereClause? x) := by
  unfold whereClause? enter
  rw [NameMap.find?_insertAll]
  cases (NameMap.ofList (locals.map fun v => (v.name, v))).find? x <;> rfl

namespace Context.Agrees

variable {c c' : Context I} {s s' t s₀ s₀' : I.State} {locals : List Variable}

section

variable (hinj : Set.InjOn f V) (h : c.Agrees f V c')

include h

theorem value (hs : s.Agrees f V s') {e : Expr} (he : e.IsOver V) :
    c'.value s' (e.rename f) = c.value s e := by
  refine Interpretation.value_substitute fun p hp => ?_
  obtain ⟨m, x⟩ := p
  have hx : x ∈ V := he x (Expr.mem_names_of_mem_readsAt hp)
  change c'.reading s' m (f x) = c.reading s m x
  cases m with
  | current => rw [reading, reading, hs x hx]
  | entry =>
    rw [reading, reading, hs x hx, h.entry x hx]
    simp only [h.modified x hx]

theorem holds (hs : s.Agrees f V s') {e : Expr} (he : e.IsOver V) :
    c'.Holds s' (e.rename f) ↔ c.Holds s e := by
  unfold Holds
  rw [h.value hs he]

include hinj

omit h in
theorem mem_map_name_iff (hlocals : ∀ v ∈ locals, v.IsOver V) {x : Name} (hx : x ∈ V) :
    f x ∈ (locals.map (·.rename f)).map (·.name) ↔ x ∈ locals.map (·.name) := by
  rw [List.map_map]
  simp only [List.mem_map, Function.comp_apply, Variable.rename]
  refine exists_congr fun v => and_congr_right fun hv => ?_
  exact hinj.eq_iff (hlocals v hv).name hx

omit h in
/-- Renamed locals are looked up under their new names. -/
theorem find?_locals_rename (hlocals : ∀ v ∈ locals, v.IsOver V) {x : Name} (hx : x ∈ V) :
    (NameMap.ofList ((locals.map (·.rename f)).map fun v => (v.name, v))).find? (f x) =
      ((NameMap.ofList (locals.map fun v => (v.name, v))).find? x).map (Variable.rename f) := by
  have hlist : (locals.map (·.rename f)).map (fun v => (v.name, v)) =
      ((locals.map fun v => (v.name, v)).map fun e => (e.1, Variable.rename f e.2)).map
        fun e => (f e.1, e.2) := by
    simp [Variable.rename, Function.comp_def]
  rw [hlist, NameMap.find?_ofList_rename, NameMap.find?_ofList_map]
  intro e he heq
  rw [List.map_map] at he
  obtain ⟨v, hv, rfl⟩ := List.mem_map.1 he
  exact hinj hx (hlocals v hv).name heq

/-- Inside a scope the contexts still agree. -/
theorem enter (hlocals : ∀ v ∈ locals, v.IsOver V) :
    (c.enter locals).Agrees f V (c'.enter (locals.map (·.rename f))) where
  isOver x hx w hw := by
    rw [whereClause?_enter_eq] at hw
    -- A condition in force inside is that of a local, or that of a variable outside which no local
    -- hides.
    cases hv : (NameMap.ofList (locals.map fun v => (v.name, v))).find? x with
    | none =>
      rw [hv] at hw
      exact h.isOver x hx w hw
    | some v =>
      rw [hv] at hw
      obtain ⟨_, hmem, ⟨⟩⟩ := List.mem_map.1 (NameMap.mem_of_find?_ofList hv)
      exact (hlocals v hmem).whereClause w hw
  whereClause x hx := by
    rw [whereClause?_enter_eq, whereClause?_enter_eq, find?_locals_rename hinj hlocals hx,
      h.whereClause x hx]
    cases (NameMap.ofList (locals.map fun v => (v.name, v))).find? x <;> rfl
  modified x hx := by
    unfold Context.enter
    simp only [List.mem_filter, decide_eq_true_eq, h.modified x hx,
      mem_map_name_iff hinj hlocals hx]
  entry := h.entry

theorem exists_assigns (hs : s.Agrees f V s') (hs₀ : s₀.Agrees f V s₀') {pairs : List (Name × Expr)}
    (hover : ∀ p ∈ pairs, p.1 ∈ V ∧ p.2.IsOver V) (hr : c.Assigns s pairs s₀ t) :
    ∃ t', c'.Assigns s' (pairs.map fun p => (f p.1, p.2.rename f)) s₀' t' ∧ t.Agrees f V t' := by
  induction pairs generalizing s₀ s₀' with
  | nil =>
    cases (show t = s₀ from hr)
    exact ⟨s₀', rfl, hs₀⟩
  | cons p pairs ih =>
    obtain ⟨a, ha, hr⟩ := hr
    obtain ⟨hp, hover⟩ := List.forall_mem_cons.1 hover
    have hupdate : Interpretation.State.Agrees f V (Function.update s₀ p.1 a)
        (Function.update s₀' (f p.1) a) := by
      intro x hx
      by_cases heq : x = p.1
      · rw [heq, Function.update_self, Function.update_self]
      · have hne : f x ≠ f p.1 := fun hf => heq (hinj hx hp.1 hf)
        rw [Function.update_of_ne heq, Function.update_of_ne hne, hs₀ x hx]
    obtain ⟨t', ht', hagrees⟩ := ih hupdate hover hr
    exact ⟨t', ⟨a, (h.value hs hp.2).trans ha, ht'⟩, hagrees⟩

theorem exists_havocs (hs : s.Agrees f V s') {xs : List Name} (hover : ∀ x ∈ xs, x ∈ V)
    (hr : c.Havocs xs s t) : ∃ t', c'.Havocs (xs.map f) s' t' ∧ t.Agrees f V t' := by
  obtain ⟨t', ht', hframe⟩ := hs.exists_agrees hinj hr.1
  refine ⟨t', ⟨hframe, List.forall_mem_map.2 fun x hx w hw => ?_⟩, ht'⟩
  rw [h.whereClause x (hover x hx)] at hw
  obtain ⟨w, hw', rfl⟩ := Option.map_eq_some_iff.1 hw
  exact (h.holds ht' (h.isOver x (hover x hx) w hw')).2 (hr.2 x hx w hw')

theorem exists_opens (hs : s.Agrees f V s') (hlocals : ∀ v ∈ locals, v.IsOver V)
    (hr : c.Opens locals s t) :
    ∃ t', c'.Opens (locals.map (·.rename f)) s' t' ∧ t.Agrees f V t' := by
  obtain ⟨t', ht', hframe⟩ := hs.exists_agrees hinj hr.1
  have hnames : (locals.map (·.rename f)).map (·.name) = (locals.map (·.name)).map f := by
    rw [List.map_map, List.map_map]
    rfl
  refine ⟨t', ⟨fun y hy => hframe y (hnames ▸ hy), List.forall_mem_map.2 fun v hv w hw => ?_⟩, ht'⟩
  obtain ⟨w, hw', rfl⟩ := Option.map_eq_some_iff.1 hw
  exact ((h.enter hinj hlocals).holds ht' ((hlocals v hv).whereClause w hw')).2 (hr.2 v hv w hw')

omit h in
theorem close (hs : s.Agrees f V s') {t' : I.State} (ht : t.Agrees f V t')
    (hlocals : ∀ v ∈ locals, v.IsOver V) :
    Interpretation.State.Agrees f V (close locals s t) (close (locals.map (·.rename f)) s' t') := by
  intro x hx
  unfold Context.close
  simp only [mem_map_name_iff hinj hlocals hx, hs x hx, ht x hx]

end

/-- Agreement of contexts is symmetric. -/
theorem symm (hback : ∀ n ∈ V, g (f n) = n) (h : c.Agrees f V c') : c'.Agrees g (f '' V) c where
  isOver := by
    rintro _ ⟨x, hx, rfl⟩ w hw
    rw [h.whereClause x hx] at hw
    obtain ⟨w, hw', rfl⟩ := Option.map_eq_some_iff.1 hw
    exact (h.isOver x hx w hw').rename
  whereClause := by
    rintro _ ⟨x, hx, rfl⟩
    rw [hback x hx, h.whereClause x hx]
    cases hw : c.whereClause? x with
    | none => rfl
    | some w => exact congrArg some (Expr.rename_rename hback (h.isOver x hx w hw)).symm
  modified := by
    rintro _ ⟨x, hx, rfl⟩
    rw [hback x hx, h.modified x hx]
  entry := h.entry.symm hback

end Context.Agrees

namespace Cmd

variable {n : Nat}

mutual

/-- A renamed command leads to a state that agrees with the one to which the command leads. -/
theorem exists_runs_rename (hinj : Set.InjOn f V) : ∀ {d : Cmd} {c c' : Context I}
    {s s' t : I.State}, c.Agrees f V c' → d.IsOver V → s.Agrees f V s' → Runs c d s t →
      ∃ t', Runs c' (d.rename f) s' t' ∧ t.Agrees f V t'
  | assert _, _, _, _, s', _, _, _, hs, hr => ⟨s', rfl, hr ▸ hs⟩
  | assume _, _, _, _, s', _, h, hover, hs, hr => ⟨s', ⟨(h.holds hs hover).2 hr.1, rfl⟩, hr.2 ▸ hs⟩
  | assign _, _, _, _, _, _, h, hover, hs, hr => h.exists_assigns hinj hs hs hover hr
  | havoc _, _, _, _, _, _, h, hover, hs, hr => h.exists_havocs hinj hs hover hr
  | comment _, _, _, _, s', _, _, _, hs, hr => ⟨s', rfl, hr ▸ hs⟩
  | scope _ _, _, _, _, _, _, h, hover, hs, ⟨_, _, hopens, hr, heq⟩ => by
    obtain ⟨s₁', hopens', hs₁⟩ := h.exists_opens hinj hs hover.1 hopens
    obtain ⟨t₁', hr', ht₁⟩ := exists_runsAll_rename hinj (h.enter hinj hover.1) hover.2 hs₁ hr
    exact ⟨_, ⟨s₁', t₁', hopens', hr', rfl⟩, heq ▸ Context.Agrees.close hinj hs ht₁ hover.1⟩

/-- The same for several commands. -/
theorem exists_runsAll_rename (hinj : Set.InjOn f V) : ∀ {ds : List Cmd} {c c' : Context I}
    {s s' t : I.State}, c.Agrees f V c' → AreOver V ds → s.Agrees f V s' → RunsAll c ds s t →
      ∃ t', RunsAll c' (renameAll f ds) s' t' ∧ t.Agrees f V t'
  | [], _, _, _, s', _, _, _, hs, hr => ⟨s', rfl, hr ▸ hs⟩
  | _ :: _, _, _, _, _, _, h, hover, hs, ⟨_, hd, hds⟩ => by
    obtain ⟨s₁', hd', hs₁⟩ := exists_runs_rename hinj h hover.1 hs hd
    obtain ⟨t', hds', ht⟩ := exists_runsAll_rename hinj h hover.2 hs₁ hds
    exact ⟨t', ⟨s₁', hd', hds'⟩, ht⟩

end

mutual

/-- A renamed command fails where the command does. -/
theorem Fails.rename (hinj : Set.InjOn f V) : ∀ {d : Cmd} {c c' : Context I} {n : Nat}
    {s s' : I.State}, c.Agrees f V c' → d.IsOver V → s.Agrees f V s' → Fails c d n s →
      Fails c' (d.rename f) n s'
  | assert _, _, _, _, _, _, h, hover, hs, hf => ⟨hf.1, (h.value hs hover).trans hf.2⟩
  | scope _ _, _, _, _, _, _, h, hover, hs, ⟨_, hopens, hf⟩ => by
    obtain ⟨s₁', hopens', hs₁⟩ := h.exists_opens hinj hs hover.1 hopens
    exact ⟨s₁', hopens', FailsAll.rename hinj (h.enter hinj hover.1) hover.2 hs₁ hf⟩

/-- The same for several commands. -/
theorem FailsAll.rename (hinj : Set.InjOn f V) : ∀ {ds : List Cmd} {c c' : Context I} {n : Nat}
    {s s' : I.State}, c.Agrees f V c' → AreOver V ds → s.Agrees f V s' → FailsAll c ds n s →
      FailsAll c' (renameAll f ds) n s'
  | _ :: _, _, _, _, _, _, h, hover, hs, .inl hf => .inl (Fails.rename hinj h hover.1 hs hf)
  | d :: _, _, _, _, _, _, h, hover, hs, .inr ⟨k, _, hn, hd, hf⟩ => by
    obtain ⟨s₁', hd', hs₁⟩ := exists_runs_rename hinj h hover.1 hs hd
    refine .inr ⟨k, s₁', ?_, hd', FailsAll.rename hinj h hover.2 hs₁ hf⟩
    rw [assertions_rename, hn]

end

/-! ## Both directions -/

/-- Names that are told apart can be renamed back, and the new names are told apart then. -/
theorem exists_leftInverse (hinj : Set.InjOn f V) :
    ∃ g : Name → Name, (∀ n ∈ V, g (f n) = n) ∧ Set.InjOn g (f '' V) :=
  ⟨Function.invFunOn f V, hinj.leftInvOn_invFunOn, Function.invFunOn_injOn_image f V⟩

section

variable {c c' : Context I} {ds : List Cmd} {s s' t' : I.State}
variable (hinj : Set.InjOn f V) (h : c.Agrees f V c') (hover : AreOver V ds)
  (hs : s.Agrees f V s')

include hinj h hover hs

/-- What renamed commands do is done under the old names too. -/
theorem RunsAll.exists_of_renameAll (hr : RunsAll c' (renameAll f ds) s' t') :
    ∃ t, RunsAll c ds s t ∧ t.Agrees f V t' := by
  obtain ⟨g, hback, hinj'⟩ := exists_leftInverse hinj
  obtain ⟨t, ht, hagrees⟩ :=
    exists_runsAll_rename hinj' (h.symm hback) hover.rename (hs.symm hback) hr
  rw [renameAll_renameAll hback ds hover] at ht
  refine ⟨t, ht, fun x hx => ?_⟩
  rw [← hagrees (f x) ⟨x, hx, rfl⟩, hback x hx]

/-- Renamed commands lead from a state that agrees with another to those states that agree with a
state to which the commands lead from the other, and in which the other names keep their values. -/
theorem runsAll_renameAll_iff : RunsAll c' (renameAll f ds) s' t' ↔
    (∀ y, y ∉ f '' V → t' y = s' y) ∧ ∃ t, RunsAll c ds s t ∧ t.Agrees f V t' := by
  constructor
  · intro hr
    exact ⟨fun y hy => hr.eq_of_areOver hy hover.rename, hr.exists_of_renameAll hinj h hover hs⟩
  · rintro ⟨hframe, t, ht, hagrees⟩
    obtain ⟨t'', ht'', hagrees'⟩ := exists_runsAll_rename hinj h hover hs ht
    -- Both states give the new names the values of the old ones, and the others keep theirs.
    have heq : t'' = t' := by
      funext y
      by_cases hy : y ∈ f '' V
      · obtain ⟨x, hx, rfl⟩ := hy
        rw [hagrees x hx, hagrees' x hx]
      · rw [hframe y hy, ht''.eq_of_areOver hy hover.rename]
    exact heq ▸ ht''

theorem failsAll_renameAll_iff : FailsAll c' (renameAll f ds) n s' ↔ FailsAll c ds n s := by
  constructor
  · intro hf
    obtain ⟨g, hback, hinj'⟩ := exists_leftInverse hinj
    have hf' := hf.rename hinj' (h.symm hback) hover.rename (hs.symm hback)
    rwa [renameAll_renameAll hback ds hover] at hf'
  · exact fun hf => hf.rename hinj h hover hs

end

end Cmd

end Obligations
