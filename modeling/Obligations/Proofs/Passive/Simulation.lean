import Mathlib.Tactic.SplitIfs
import Obligations.Passive.Body
import Obligations.Proofs.Cmd.Run

/-!
# Commands and what they become

Passive commands are about one valuation that never changes. `Passive.Simulates` relates commands to
the passive commands that they become: every run of the commands is matched by an extension of the
valuation under which the passive assumptions are true, and every valuation under which they are
true by a run; the same holds of the runs that come to an assertion that is false. What is already
fixed of the valuation is a set of names, which grows. Simulations are put one after another by
`Passive.Simulates.append`.
-/

namespace Obligations

variable {I : Interpretation}

/-- What names denote in passive formulas: nothing is read on entry. -/
def Interpretation.State.passive (ν : I.State) : I.Reading
  | .current, x => some (ν x)
  | .entry, _ => none

namespace Passive

/-- All assumptions among the commands are true. -/
def Passes (ν : I.State) (ds : List Cmd) : Prop := ∀ e, .assume e ∈ ds → I.Holds ν.passive e

/-- The assertion of a number is false and all assumptions before it are true. -/
def Falsifies (ν : I.State) (ds : List Cmd) (n : Nat) : Prop :=
  ∃ before a after, ds = before ++ .assert a :: after ∧ Cmd.assertionsAll before = n ∧
    Passes ν before ∧ I.value ν.passive a.condition = some I.falsity

/-- Two valuations agree on a set of names. -/
def Agree (U : Name → Prop) (ν ν' : I.State) : Prop := ∀ x, U x → ν' x = ν x

/-- The commands read names of a set only. -/
def ReadsOnly (U : Name → Prop) (ds : List Cmd) : Prop :=
  ∀ d ∈ ds, ∀ e, d.condition? = some e → ∀ x ∈ e.names, U x

variable {ν ν' ν'' : I.State} {U U' U'' : Name → Prop} {ds es : List Cmd} {n : Nat}

theorem Agree.refl : Agree U ν ν := fun _ _ => rfl

theorem Agree.trans (h : Agree U ν ν') (h' : Agree U' ν' ν'') (hU : ∀ x, U x → U' x) :
    Agree U ν ν'' := fun x hx => (h' x (hU x hx)).trans (h x hx)

theorem Agree.mono (h : Agree U ν ν') (hU : ∀ x, U' x → U x) : Agree U' ν ν' :=
  fun x hx => h x (hU x hx)

/-- A passive formula has the same value under valuations that agree on what it reads. -/
theorem value_passive_congr {e : Expr} (h : Agree U ν ν') (he : ∀ x ∈ e.names, U x) :
    I.value ν'.passive e = I.value ν.passive e := by
  refine Interpretation.valueAt_congr_names fun x hx t => ?_
  cases t with
  | current => exact congrArg some (h x (he x hx))
  | entry => rfl

theorem passes_nil : Passes ν [] := fun _ h => by cases h

theorem passes_append : Passes ν (ds ++ es) ↔ Passes ν ds ∧ Passes ν es := by
  unfold Passes
  constructor
  · exact fun h => ⟨fun e he => h e (List.mem_append_left _ he),
      fun e he => h e (List.mem_append_right _ he)⟩
  · rintro ⟨hds, hes⟩ e he
    exact (List.mem_append.mp he).elim (hds e) (hes e)

/-- Several assumptions are true if each of them is. -/
theorem passes_map_assume {α : Type} {f : α → Expr} {as : List α} :
    Passes ν (as.map fun a => .assume (f a)) ↔ ∀ a ∈ as, I.Holds ν.passive (f a) := by
  constructor
  · exact fun h a ha => h (f a) (List.mem_map_of_mem ha)
  · intro h e he
    obtain ⟨a, ha, heq⟩ := List.mem_map.mp he
    cases heq
    exact h a ha

/-- Assumptions stay true under a valuation that agrees on what they read. -/
theorem Passes.of_agree (h : Passes ν ds) (hν : Agree U ν ν') (hds : ReadsOnly U ds) :
    Passes ν' ds := by
  intro e he
  unfold Interpretation.Holds
  rw [value_passive_congr hν (hds _ he e rfl)]
  exact h e he

theorem not_falsifies_nil : ¬ Falsifies ν [] n := by
  rintro ⟨before, a, after, h, -⟩
  simp at h

/-- A false assertion of commands in sequence is one of the first or one of the others. -/
theorem falsifies_append : Falsifies ν (ds ++ es) n ↔
    Falsifies ν ds n ∨ ∃ k, n = Cmd.assertionsAll ds + k ∧ Passes ν ds ∧ Falsifies ν es k := by
  constructor
  · rintro ⟨before, a, after, hsplit, hn, hpass, hfalse⟩
    -- The assertion is one of the second commands or one of the first.
    rcases List.append_eq_append_iff.mp hsplit with ⟨as, hbefore, hes⟩ | ⟨bs, hds, hrest⟩
    · subst hbefore
      rw [Cmd.assertionsAll_append] at hn
      obtain ⟨hds, has⟩ := passes_append.1 hpass
      exact .inr ⟨_, hn.symm, hds, as, a, after, hes, rfl, has, hfalse⟩
    · cases bs with
      | nil =>
        rw [List.append_nil] at hds
        subst hds
        exact .inr ⟨0, hn.symm, hpass, [], a, after, hrest.symm, rfl, passes_nil, hfalse⟩
      | cons b bs =>
        obtain ⟨rfl, hafter⟩ := List.cons.inj hrest
        exact .inl ⟨before, a, bs, hds, hn, hpass, hfalse⟩
  · rintro (⟨before, a, after, rfl, hn, hpass, hfalse⟩ |
      ⟨k, rfl, hds, before, a, after, rfl, rfl, hpass, hfalse⟩)
    · exact ⟨before, a, after ++ es, by simp, hn, hpass, hfalse⟩
    · exact ⟨ds ++ before, a, after, by simp, by simp, passes_append.2 ⟨hds, hpass⟩, hfalse⟩

/-- Commands without assertions falsify nothing. -/
theorem not_falsifies (h : Cmd.assertionsAll ds = 0) : ¬ Falsifies ν ds n := by
  rintro ⟨before, a, after, rfl, -⟩
  rw [Cmd.assertionsAll_append, Cmd.assertionsAll] at h
  simp [Cmd.assertions] at h

theorem readsOnly_append : ReadsOnly U (ds ++ es) ↔ ReadsOnly U ds ∧ ReadsOnly U es := by
  unfold ReadsOnly
  constructor
  · exact fun h => ⟨fun d hd => h d (List.mem_append_left _ hd),
      fun d hd => h d (List.mem_append_right _ hd)⟩
  · rintro ⟨hds, hes⟩ d hd
    exact (List.mem_append.mp hd).elim (hds d) (hes d)

/-- Assumptions read what their formulas read. -/
theorem readsOnly_map_assume {α : Type} {f : α → Expr} {as : List α}
    (h : ∀ a ∈ as, ∀ x ∈ (f a).names, U x) : ReadsOnly U (as.map fun a => .assume (f a)) := by
  intro d hd e he
  obtain ⟨a, ha, rfl⟩ := List.mem_map.mp hd
  cases he
  exact h a ha

theorem ReadsOnly.mono (h : ReadsOnly U ds) (hU : ∀ x, U x → U' x) : ReadsOnly U' ds :=
  fun d hd e he x hx => hU x (h d hd e he x hx)

/-! ## Scenes -/

/-- What stays the same along the paths through a body. -/
structure Scene (I : Interpretation) where
  /-- All declarations of the body, those of the locals of all scopes included. -/
  declarations : Declarations
  /-- The names declared. -/
  declared : List Name
  /-- The names in force outside of all scopes. -/
  outer : List Name
  /-- The names that denote their values on entry under `old`. -/
  modified : List Name
  /-- The state on entry. -/
  entry : I.State
  /-- The declared names have declarations, none of them that of a version. -/
  find?_declared : ∀ x ∈ declared, ∃ v, declarations.find? x = some v ∧ v.isIncarnation = false
  /-- No declared name is the name of a version of a declared name. -/
  ne_incarnation : ∀ x ∈ declared, ∀ y ∈ declared, ∀ n, x ≠ y.incarnation n
  /-- The names in force outside of all scopes are declared. -/
  declared_of_outer : ∀ x ∈ outer, x ∈ declared
  /-- Those of the names that denote values on entry that are declared are in force outside of all
  scopes. -/
  outer_of_modified : ∀ x ∈ modified, x ∈ declared → x ∈ outer

/-- A context gives the meaning that a scene says. -/
structure Scene.Fits (S : Scene I) (c : Context I) : Prop where
  /-- The declarations are those of the scene. -/
  declarations : ∀ x, c.declarations.find? x = S.declarations.find? x
  /-- The same names denote their values on entry. -/
  modified : c.modified = S.modified
  /-- The state on entry is the same. -/
  entry : c.entry = S.entry

/-- What stands for a name under an incarnation map. -/
def standsFor (map : NameMap Expr) (x : Name) : Expr := (map.find? x).getD (.symbol x)

/-- What stands for the values on entry. -/
def Scene.frame (S : Scene I) : NameMap Expr := .ofList (S.modified.map fun g => (g, .symbol g))

/-- A valuation represents a state: what stands for a name of a set has the value of the name. -/
structure Scene.Represents (S : Scene I) (map : NameMap Expr) (X : Name → Prop)
    (ν σ : I.State) : Prop where
  /-- The names that may be read on entry have their values on entry. -/
  starts : ∀ x ∈ S.modified, x ∈ S.outer → ν x = S.entry x
  /-- What stands for a name has the value of the name. -/
  stands : ∀ x, X x → I.value ν.passive (standsFor map x) = some (σ x)

variable {S : Scene I} {c : Context I} {map : NameMap Expr} {X Y : Name → Prop} {σ τ : I.State}

/-- An expression has the value that what stands for it has, if all that it reads is represented. -/
theorem Scene.Represents.value_standIn (h : S.Represents map X ν σ) (hc : S.Fits c) {e : Expr}
    (hdeclared : ∀ x ∈ e.names, x ∈ S.declared) (hX : ∀ x ∈ e.names, X x) :
    I.value ν.passive (standIn S.frame map e) = c.value σ e := by
  have hframe : ∀ x, S.frame.find? x = if x ∈ S.modified then some (.symbol x) else none :=
    fun x => NameMap.find?_ofList_map_self
  -- What is read now and what is read on entry.
  refine Interpretation.value_substituteOld (fun x hx => ?_) fun x hx => ?_
  · exact h.stands x (hX x (Expr.mem_names_of_mem_readsAt hx))
  · have hx := Expr.mem_names_of_mem_readsAt hx
    rw [hframe, Context.reading, hc.modified, hc.entry]
    split_ifs with hmod
    · exact congrArg some (h.starts x hmod (S.outer_of_modified x hmod (hdeclared x hx)))
    · exact h.stands x (hX x hx)

/-- A valuation represents a state on fewer names. -/
theorem Scene.Represents.mono (h : S.Represents map X ν σ) (hXY : ∀ x, Y x → X x) :
    S.Represents map Y ν σ :=
  ⟨h.starts, fun x hx => h.stands x (hXY x hx)⟩

/-! ## Simulations -/

/-- Commands become passive commands: from states that a valuation represents in one way, to states
that an extension of it represents in another way. -/
structure Simulates (S : Scene I) (U : Name → Prop) (R : I.State → I.State → Prop)
    (ms ds : List Cmd) (U' : Name → Prop) (R' : I.State → I.State → Prop) : Prop where
  /-- The names that are fixed stay fixed. -/
  grows : ∀ x, U x → U' x
  /-- The passive commands read names that are fixed after them. -/
  reads : ReadsOnly U' ds
  /-- There is one passive assertion for each assertion. -/
  assertions : Cmd.assertionsAll ds = Cmd.assertionsAll ms
  /-- A run has an extension of the valuation under which the assumptions are true. -/
  run : ∀ c, S.Fits c → ∀ ν σ τ, R ν σ → Cmd.RunsAll c ms σ τ →
    ∃ ν', Agree U ν ν' ∧ Passes ν' ds ∧ R' ν' τ
  /-- A valuation under which the assumptions are true has a run. -/
  back : ∀ c, S.Fits c → ∀ ν σ, R ν σ → Passes ν ds → ∃ τ, Cmd.RunsAll c ms σ τ ∧ R' ν τ
  /-- A run to a false assertion has an extension of the valuation that falsifies the assertion. -/
  fail : ∀ c, S.Fits c → ∀ ν σ n, R ν σ → Cmd.FailsAll c ms n σ →
    ∃ ν', Agree U ν ν' ∧ Falsifies ν' ds n
  /-- A valuation that falsifies an assertion has a run to the assertion. -/
  failBack : ∀ c, S.Fits c → ∀ ν σ n, R ν σ → Falsifies ν ds n → Cmd.FailsAll c ms n σ

namespace Simulates

variable {R R' R'' : I.State → I.State → Prop} {ms ms' : List Cmd}

/-- One simulation after another. -/
theorem append (h : Simulates S U R ms ds U' R') (h' : Simulates S U' R' ms' es U'' R'') :
    Simulates S U R (ms ++ ms') (ds ++ es) U'' R'' where
  grows x hx := h'.grows x (h.grows x hx)
  reads := readsOnly_append.2 ⟨h.reads.mono h'.grows, h'.reads⟩
  assertions := by
    rw [Cmd.assertionsAll_append, Cmd.assertionsAll_append, h.assertions, h'.assertions]
  run c hc ν σ τ hR hrun := by
    obtain ⟨σ', hms, hms'⟩ := Cmd.runsAll_append.1 hrun
    obtain ⟨ν', hν', hpass, hR'⟩ := h.run c hc ν σ σ' hR hms
    obtain ⟨ν'', hν'', hpass', hR''⟩ := h'.run c hc ν' σ' τ hR' hms'
    exact ⟨ν'', hν'.trans hν'' h.grows, passes_append.2 ⟨hpass.of_agree hν'' h.reads, hpass'⟩, hR''⟩
  back c hc ν σ hR hpass := by
    obtain ⟨hds, hes⟩ := passes_append.1 hpass
    obtain ⟨σ', hms, hR'⟩ := h.back c hc ν σ hR hds
    obtain ⟨τ, hms', hR''⟩ := h'.back c hc ν σ' hR' hes
    exact ⟨τ, Cmd.runsAll_append.2 ⟨σ', hms, hms'⟩, hR''⟩
  fail c hc ν σ n hR hfail := by
    rcases Cmd.failsAll_append.1 hfail with hms | ⟨k, σ', rfl, hms, hms'⟩
    · obtain ⟨ν', hν', hfalse⟩ := h.fail c hc ν σ n hR hms
      exact ⟨ν', hν', falsifies_append.2 (.inl hfalse)⟩
    · obtain ⟨ν', hν', hpass, hR'⟩ := h.run c hc ν σ σ' hR hms
      obtain ⟨ν'', hν'', hfalse⟩ := h'.fail c hc ν' σ' k hR' hms'
      -- Assertions are counted on both sides alike, so that the number stays that of the same one.
      refine ⟨ν'', hν'.trans hν'' h.grows, falsifies_append.2 (.inr ⟨k, ?_, ?_, hfalse⟩)⟩
      · rw [h.assertions]
      · exact hpass.of_agree hν'' h.reads
  failBack c hc ν σ n hR hfalse := by
    rcases falsifies_append.1 hfalse with hds | ⟨k, rfl, hds, hes⟩
    · exact Cmd.failsAll_append.2 (.inl (h.failBack c hc ν σ n hR hds))
    · obtain ⟨σ', hms, hR'⟩ := h.back c hc ν σ hR hds
      refine Cmd.failsAll_append.2 (.inr ⟨k, σ', ?_, hms, h'.failBack c hc ν σ' k hR' hes⟩)
      rw [h.assertions]

/-- More names may be fixed afterwards, and less may be asked before and said after. -/
theorem mono (h : Simulates S U R ms ds U' R') {Q Q' : I.State → I.State → Prop}
    (hQ : ∀ ν σ, Q ν σ → R ν σ) (hU : ∀ x, U' x → U'' x) (hQ' : ∀ ν σ, R' ν σ → Q' ν σ) :
    Simulates S U Q ms ds U'' Q' where
  grows x hx := hU x (h.grows x hx)
  reads := h.reads.mono hU
  assertions := h.assertions
  run c hc ν σ τ hR hrun := by
    obtain ⟨ν', hν', hpass, hR'⟩ := h.run c hc ν σ τ (hQ ν σ hR) hrun
    exact ⟨ν', hν', hpass, hQ' ν' τ hR'⟩
  back c hc ν σ hR hpass := by
    obtain ⟨τ, hrun, hR'⟩ := h.back c hc ν σ (hQ ν σ hR) hpass
    exact ⟨τ, hrun, hQ' ν τ hR'⟩
  fail c hc ν σ n hR := h.fail c hc ν σ n (hQ ν σ hR)
  failBack c hc ν σ n hR := h.failBack c hc ν σ n (hQ ν σ hR)

/-- No commands become no passive commands. -/
theorem nil (hU : ∀ x, U x → U' x) (hR : ∀ ν σ, R ν σ → R' ν σ) : Simulates S U R [] [] U' R' where
  grows := hU
  reads d hd := by cases hd
  assertions := rfl
  run c _ ν σ τ h hrun := by
    cases hrun
    exact ⟨ν, Agree.refl, passes_nil, hR ν σ h⟩
  back c _ ν σ h _ := ⟨σ, rfl, hR ν σ h⟩
  fail c _ ν σ n _ hfail := hfail.elim
  failBack c _ ν σ n _ hfalse := (not_falsifies_nil hfalse).elim

/-- A simulation of commands without assertions is about their runs only. -/
theorem of_runs (hU : ∀ x, U x → U' x) (hreads : ReadsOnly U' ds)
    (hms : Cmd.assertionsAll ms = 0) (hds : Cmd.assertionsAll ds = 0)
    (hrun : ∀ c, S.Fits c → ∀ ν σ τ, R ν σ → Cmd.RunsAll c ms σ τ →
      ∃ ν', Agree U ν ν' ∧ Passes ν' ds ∧ R' ν' τ)
    (hback : ∀ c, S.Fits c → ∀ ν σ, R ν σ → Passes ν ds → ∃ τ, Cmd.RunsAll c ms σ τ ∧ R' ν τ) :
    Simulates S U R ms ds U' R' where
  grows := hU
  reads := hreads
  assertions := by rw [hms, hds]
  run := hrun
  back := hback
  fail c _ ν σ n _ hfail := (Cmd.not_failsAll ms c n σ hms hfail).elim
  failBack c _ ν σ n _ hfalse := (not_falsifies hds hfalse).elim

/-- A scope is simulated by the conditions on its locals and what its commands become, if the names
fixed inside it contain those fixed outside, and opening and closing it keep to the relations. -/
theorem scope {locals : List Variable} {cmds ws : List Cmd} {U₁ : Name → Prop}
    {R₁ R₂ : I.State → I.State → Prop} (h : Simulates S U₁ R₁ cmds ds U' R₂)
    (hfits : ∀ c, S.Fits c → S.Fits (c.enter locals)) (hU : ∀ x, U x → U₁ x)
    (hws : ReadsOnly U₁ ws) (hassertions : Cmd.assertionsAll ws = 0)
    (hopen : ∀ c, S.Fits c → ∀ ν σ σ', R ν σ → c.Opens locals σ σ' →
      ∃ ν', Agree U ν ν' ∧ Passes ν' ws ∧ R₁ ν' σ')
    (hback : ∀ c, S.Fits c → ∀ ν σ, R ν σ → Passes ν ws → ∃ σ', c.Opens locals σ σ' ∧ R₁ ν σ')
    (hclose : ∀ ν σ τ, R₂ ν τ → R' ν (Context.close locals σ τ)) :
    Simulates S U R [.scope locals cmds] (ws ++ ds) U' R' where
  grows x hx := h.grows x (hU x hx)
  reads := readsOnly_append.2 ⟨hws.mono h.grows, h.reads⟩
  assertions := by
    rw [Cmd.assertionsAll_append, hassertions, h.assertions, Nat.zero_add]
    rfl
  run c hc ν σ τ hR hrun := by
    obtain ⟨τ', ⟨σ', τ'', hopens, hcmds, rfl⟩, rfl⟩ := hrun
    obtain ⟨ν', hν', hpass, hR₁⟩ := hopen c hc ν σ σ' hR hopens
    obtain ⟨ν'', hν'', hpass', hR₂⟩ := h.run _ (hfits c hc) ν' σ' τ'' hR₁ hcmds
    refine ⟨ν'', hν'.trans hν'' hU, passes_append.2 ⟨hpass.of_agree hν'' hws, hpass'⟩, ?_⟩
    exact hclose ν'' σ τ'' hR₂
  back c hc ν σ hR hpass := by
    obtain ⟨hpass, hpass'⟩ := passes_append.1 hpass
    obtain ⟨σ', hopens, hR₁⟩ := hback c hc ν σ hR hpass
    obtain ⟨τ'', hcmds, hR₂⟩ := h.back _ (hfits c hc) ν σ' hR₁ hpass'
    exact ⟨_, ⟨_, ⟨σ', τ'', hopens, hcmds, rfl⟩, rfl⟩, hclose ν σ τ'' hR₂⟩
  fail c hc ν σ n hR hfail := by
    -- The scope is a single command, so that the assertion is one inside it.
    rcases hfail with ⟨σ', hopens, hcmds⟩ | ⟨k, σ', -, -, hnil⟩
    · obtain ⟨ν', hν', hpass, hR₁⟩ := hopen c hc ν σ σ' hR hopens
      obtain ⟨ν'', hν'', hfalse⟩ := h.fail _ (hfits c hc) ν' σ' n hR₁ hcmds
      refine ⟨ν'', hν'.trans hν'' hU, falsifies_append.2 (.inr ⟨n, ?_, ?_, hfalse⟩)⟩
      · rw [hassertions, Nat.zero_add]
      · exact hpass.of_agree hν'' hws
    · exact hnil.elim
  failBack c hc ν σ n hR hfalse := by
    rcases falsifies_append.1 hfalse with hws' | ⟨k, hn, hpass, hds⟩
    · exact (not_falsifies hassertions hws').elim
    · rw [hassertions, Nat.zero_add] at hn
      subst hn
      obtain ⟨σ', hopens, hR₁⟩ := hback c hc ν σ hR hpass
      exact .inl ⟨σ', hopens, h.failBack _ (hfits c hc) ν σ' n hR₁ hds⟩

end Simulates

end Passive

end Obligations
