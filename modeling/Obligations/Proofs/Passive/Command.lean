import Obligations.Proofs.Passive.Assignment

/-!
# Passive commands

A command whose names are in force (`Cmd.Scoped`) becomes passive commands that simulate it
(`Passive.Becomes`). There is one lemma for each kind of command that has no commands inside. What a
valuation represents before a command is what is live there.
-/

namespace Obligations

/- Names in force, for a command and for several commands. -/
mutual

/-- A command reads and writes names in force only. The locals of a scope are in force inside the
scope, and the condition on a variable is read where the variable gets an arbitrary value. -/
def Cmd.Scoped (d : Declarations) (V : List Name) : Cmd → Prop
  | .assert a => ∀ x ∈ a.condition.names, x ∈ V
  | .assume e => ∀ x ∈ e.names, x ∈ V
  | .assign pairs => ∀ p ∈ pairs, p.1 ∈ V ∧ ∀ x ∈ p.2.names, x ∈ V
  | .havoc xs => ∀ x ∈ xs, x ∈ V ∧ ∀ w ∈ (d.find? x).bind (·.whereClause), ∀ y ∈ w.names, y ∈ V
  | .call _ args outputs => (∀ a ∈ args, ∀ x ∈ a.names, x ∈ V) ∧ ∀ x ∈ outputs, x ∈ V
  | .comment _ => True
  | .scope locals cmds =>
    (∀ v ∈ locals, ∀ w ∈ v.whereClause, ∀ x ∈ w.names, x ∈ locals.map (·.name) ++ V) ∧
      Cmd.ScopedAll d (locals.map (·.name) ++ V) cmds

/-- Several commands read and write names in force only. -/
def Cmd.ScopedAll (d : Declarations) (V : List Name) : List Cmd → Prop
  | [] => True
  | c :: cs => c.Scoped d V ∧ Cmd.ScopedAll d V cs

end

/- Whether names are in force can be computed. -/
mutual

/-- Whether the names of a command are in force can be computed. -/
def Cmd.decideScoped (d : Declarations) (V : List Name) : (c : Cmd) → Decidable (c.Scoped d V)
  | .assert a => inferInstanceAs (Decidable (∀ x ∈ a.condition.names, x ∈ V))
  | .assume e => inferInstanceAs (Decidable (∀ x ∈ e.names, x ∈ V))
  | .assign pairs =>
    inferInstanceAs (Decidable (∀ p ∈ pairs, p.1 ∈ V ∧ ∀ x ∈ p.2.names, x ∈ V))
  | .havoc xs => inferInstanceAs (Decidable (∀ x ∈ xs, x ∈ V ∧
      ∀ w ∈ (d.find? x).bind (·.whereClause), ∀ y ∈ w.names, y ∈ V))
  | .call _ args outputs => inferInstanceAs
      (Decidable ((∀ a ∈ args, ∀ x ∈ a.names, x ∈ V) ∧ ∀ x ∈ outputs, x ∈ V))
  | .comment _ => inferInstanceAs (Decidable True)
  | .scope locals cmds =>
    have := Cmd.decideScopedAll d (locals.map (·.name) ++ V) cmds
    inferInstanceAs (Decidable ((∀ v ∈ locals, ∀ w ∈ v.whereClause,
      ∀ x ∈ w.names, x ∈ locals.map (·.name) ++ V) ∧ _))

/-- Whether the names of several commands are in force can be computed. -/
def Cmd.decideScopedAll (d : Declarations) (V : List Name) :
    (cs : List Cmd) → Decidable (Cmd.ScopedAll d V cs)
  | [] => inferInstanceAs (Decidable True)
  | c :: cs =>
    have := Cmd.decideScoped d V c
    have := Cmd.decideScopedAll d V cs
    inferInstanceAs (Decidable (c.Scoped d V ∧ Cmd.ScopedAll d V cs))

end

instance (d : Declarations) (V : List Name) (cs : List Cmd) : Decidable (Cmd.ScopedAll d V cs) :=
  Cmd.decideScopedAll d V cs

/-- A conjunction reads what its conjuncts read. -/
theorem Expr.exists_of_mem_names_conjAll {es : List Expr} {x : Name} (h : x ∈ (conjAll es).names) :
    ∃ e ∈ es, x ∈ e.names := by
  -- A conjunction may be simplified to one of its sides, which reads less.
  have hconj : ∀ a b : Expr, x ∈ (a.conj b).names → x ∈ a.names ∨ x ∈ b.names := by
    intro a b hx
    unfold conj at hx
    split_ifs at hx
    · exact .inr hx
    · exact .inl hx
    · exact mem_names_binary.1 hx
  have hfold : ∀ (es : List Expr) (a : Expr), x ∈ (es.foldl conj a).names →
      x ∈ a.names ∨ ∃ e ∈ es, x ∈ e.names := by
    intro es
    induction es with
    | nil => exact fun a hx => .inl hx
    | cons e es ih =>
      intro a hx
      rcases ih _ hx with hx | ⟨e', he', hx⟩
      · rcases hconj a e hx with hx | hx
        · exact .inl hx
        · exact .inr ⟨e, List.mem_cons_self, hx⟩
      · exact .inr ⟨e', List.mem_cons_of_mem _ he', hx⟩
  rcases hfold es _ h with hx | hx
  · cases hx
  · exact hx

namespace Passive

variable {I : Interpretation} {S : Scene I} {E E' E'' V L L' L'' : List Name}
  {s s' s'' : Progress} {block : Name}

/-- Commands become passive commands that simulate them, from what is live before them to what is
live after them. -/
structure Becomes (S : Scene I) (V E : List Name) (s : Progress) (L : List Name) (ms : List Cmd)
    (E' : List Name) (s' : Progress) (L' : List Name) : Prop where
  /-- The map stays sound. -/
  sound : S.Sound E' V s'.versions s'.map
  /-- The passive commands that are added simulate the commands. -/
  simulates : ∃ ds, s'.cmds = s.cmds ++ ds ∧
    Simulates S (s.versions.Used E) (S.Represents s.map fun x => x ∈ L ∧ x ∈ V) ms ds
      (s'.versions.Used E') (S.Represents s'.map fun x => x ∈ L' ∧ x ∈ V)

/-- One command after another. -/
theorem Becomes.append {ms ms' : List Cmd} (h : Becomes S V E s L ms E' s' L')
    (h' : Becomes S V E' s' L' ms' E'' s'' L'') : Becomes S V E s L (ms ++ ms') E'' s'' L'' := by
  obtain ⟨ds, hds, hsim⟩ := h.simulates
  obtain ⟨es, hes, hsim'⟩ := h'.simulates
  exact ⟨h'.sound, ds ++ es, by rw [hes, hds, List.append_assoc], hsim.append hsim'⟩

/-! ## Assumptions about what stands for variables -/

/-- The assumptions that some conditions are true of what stands for the variables. -/
def assumptions (frame map : NameMap Expr) (ws : List Expr) : List Cmd :=
  ws.map fun w => .assume (standIn frame map w)

/-- The assumptions are true exactly if the conditions are true in the state represented. -/
theorem Scene.Represents.passes_assumptions_iff {map : NameMap Expr} {X : Name → Prop}
    {ν σ : I.State} (h : S.Represents map X ν σ) {c : Context I} (hc : S.Fits c) {ws : List Expr}
    (hdeclared : ∀ w ∈ ws, ∀ x ∈ w.names, x ∈ S.declared)
    (hX : ∀ w ∈ ws, ∀ x ∈ w.names, X x) :
    Passes ν (assumptions S.frame map ws) ↔ ∀ w ∈ ws, c.Holds σ w := by
  unfold assumptions
  rw [passes_map_assume]
  refine forall₂_congr fun w hw => ?_
  unfold Interpretation.Holds Context.Holds
  rw [h.value_standIn hc (hdeclared w hw) (hX w hw)]

/-- The assumptions read names in use. -/
theorem Scene.Sound.readsOnly_assumptions {versions : Versions} {map : NameMap Expr}
    (h : S.Sound E V versions map) {ws : List Expr} (hws : ∀ w ∈ ws, ∀ x ∈ w.names, x ∈ E) :
    ReadsOnly (versions.Used E) (assumptions S.frame map ws) :=
  readsOnly_map_assume fun w hw => h.used_standIn (hws w hw)

/-- What is live and not written to is live before a command. -/
theorem mem_without_or {xs live : List Name} {x : Name} (h : x ∈ live) :
    x ∈ Liveness.without xs live ∨ x ∈ xs := by
  by_cases hmem : x ∈ xs
  · exact .inr hmem
  · refine .inl (List.mem_filter.mpr ⟨h, ?_⟩)
    rw [decide_eq_true_eq]
    exact hmem

/-! ## Assertions and assumptions -/

/-- The only assertion there is is falsified if its condition is false. -/
theorem falsifies_assert {ν : I.State} {a : Assertion} {n : Nat} :
    Falsifies ν [.assert a] n ↔ n = 0 ∧ I.value ν.passive a.condition = some I.falsity := by
  constructor
  · rintro ⟨before, b, after, hsplit, hn, -, hfalse⟩
    cases before with
    | nil =>
      cases hsplit
      exact ⟨hn.symm, hfalse⟩
    | cons d before => simp at hsplit
  · rintro ⟨rfl, hfalse⟩
    exact ⟨[], a, [], rfl, rfl, passes_nil, hfalse⟩

/-- An assertion becomes the assertion of what stands for its condition. -/
theorem assert_becomes (hV : S.InForce E V) (hs : S.Sound E V s.versions s.map) (a : Assertion)
    (hscoped : (Cmd.assert a).Scoped S.declarations V) :
    ∃ s', (passifyCmd S.frame block (.assert a) s).outcome = .ok s' ∧
      Becomes S V E s (Liveness.before S.declarations (.assert a) L) [.assert a] E s' L := by
  let a' : Assertion :=
    ⟨standIn S.frame s.map a.condition, a.kind, some a.condition, some s.map⟩
  -- What the condition reads is live before the assertion, and so is what is live after it.
  have hvalue : ∀ c, S.Fits c → ∀ ν σ,
      S.Represents s.map (fun x => x ∈ a.condition.names ++ L ∧ x ∈ V) ν σ →
        I.value ν.passive a'.condition = c.value σ a.condition := fun c hc ν σ hrep =>
    hrep.value_standIn hc (fun x hx => hV.declared_of_mem (hscoped x hx))
      fun x hx => ⟨List.mem_append_left _ hx, hscoped x hx⟩
  have hweaken : ∀ ν σ, S.Represents s.map (fun x => x ∈ a.condition.names ++ L ∧ x ∈ V) ν σ →
      S.Represents s.map (fun x => x ∈ L ∧ x ∈ V) ν σ := fun ν σ hrep =>
    hrep.mono fun x hx => ⟨List.mem_append_right _ hx.1, hx.2⟩
  have hreads : ReadsOnly (s.versions.Used E) [.assert a'] := by
    intro d hd e he x hx
    rw [List.mem_singleton.mp hd] at he
    cases he
    exact hs.used_standIn (fun y hy => hV.used y (hscoped y hy)) x hx
  refine ⟨s.emit (.assert a'), rfl, hs, [.assert a'], rfl,
    fun _ hx => hx, hreads, rfl, ?_, ?_, ?_, ?_⟩
  · -- An assertion ends where it starts, whether it is true or not.
    rintro c hc ν σ τ hrep ⟨σ', rfl, rfl⟩
    exact ⟨ν, Agree.refl, fun e he => by simp at he, hweaken ν _ hrep⟩
  · intro c hc ν σ hrep _
    exact ⟨σ, ⟨σ, rfl, rfl⟩, hweaken ν σ hrep⟩
  · rintro c hc ν σ n hrep (⟨rfl, hfalse⟩ | ⟨k, σ', -, -, hnil⟩)
    · exact ⟨ν, Agree.refl, falsifies_assert.2 ⟨rfl, (hvalue c hc ν σ hrep).trans hfalse⟩⟩
    · exact hnil.elim
  · intro c hc ν σ n hrep hfalse
    obtain ⟨hn, hcondition⟩ := falsifies_assert.1 hfalse
    exact .inl ⟨hn, (hvalue c hc ν σ hrep).symm.trans hcondition⟩

/-- An assumption becomes the assumption of what stands for its condition. -/
theorem assume_becomes (hV : S.InForce E V) (hs : S.Sound E V s.versions s.map) (e : Expr)
    (hscoped : (Cmd.assume e).Scoped S.declarations V) :
    ∃ s', (passifyCmd S.frame block (.assume e) s).outcome = .ok s' ∧
      Becomes S V E s (Liveness.before S.declarations (.assume e) L) [.assume e] E s' L := by
  -- What the condition reads is live before the assumption, and so is what is live after it.
  have hholds : ∀ c, S.Fits c → ∀ ν σ,
      S.Represents s.map (fun x => x ∈ e.names ++ L ∧ x ∈ V) ν σ →
        (Passes ν (assumptions S.frame s.map [e]) ↔ c.Holds σ e) := by
    intro c hc ν σ hrep
    rw [hrep.passes_assumptions_iff hc
      (List.forall_mem_singleton.2 fun x hx => hV.declared_of_mem (hscoped x hx))
      (List.forall_mem_singleton.2 fun x hx => ⟨List.mem_append_left _ hx, hscoped x hx⟩),
      List.forall_mem_singleton]
  have hweaken : ∀ ν σ, S.Represents s.map (fun x => x ∈ e.names ++ L ∧ x ∈ V) ν σ →
      S.Represents s.map (fun x => x ∈ L ∧ x ∈ V) ν σ := fun ν σ hrep =>
    hrep.mono fun x hx => ⟨List.mem_append_right _ hx.1, hx.2⟩
  have hreads := hs.readsOnly_assumptions
    (List.forall_mem_singleton.2 fun x hx => hV.used x (hscoped x hx))
  refine ⟨s.emit (.assume (standIn S.frame s.map e)), rfl, hs, assumptions S.frame s.map [e], rfl,
    Simulates.of_runs (fun _ hx => hx) hreads rfl rfl ?_ ?_⟩
  · rintro c hc ν σ τ hrep ⟨σ', ⟨htrue, rfl⟩, rfl⟩
    exact ⟨ν, Agree.refl, (hholds c hc ν _ hrep).2 htrue, hweaken ν _ hrep⟩
  · intro c hc ν σ hrep hpass
    exact ⟨σ, ⟨σ, ⟨(hholds c hc ν σ hrep).1 hpass, rfl⟩, rfl⟩, hweaken ν σ hrep⟩

/-! ## Assignments -/

/-- The assumption that several equalities are true, none if there are no equalities. -/
def assumeAll (es : List Expr) : List Cmd := if es.isEmpty then [] else [.assume (.conjAll es)]

theorem passes_assumeAll {ν : I.State} {es : List Expr} :
    Passes ν (assumeAll es) ↔ ∀ e ∈ es, I.Holds ν.passive e := by
  unfold assumeAll
  split_ifs with hempty
  · rw [List.isEmpty_iff.mp hempty]
    exact iff_of_true passes_nil fun e he => by cases he
  · rw [← Interpretation.holds_conjAll_iff]
    constructor
    · exact fun h => h _ (List.mem_singleton_self _)
    · intro h e he
      cases List.mem_singleton.mp he
      exact h

theorem readsOnly_assumeAll {U : Name → Prop} {es : List Expr}
    (h : ∀ e ∈ es, ∀ x ∈ e.names, U x) : ReadsOnly U (assumeAll es) := by
  intro d hd e he x hx
  unfold assumeAll at hd
  split_ifs at hd
  · cases hd
  · cases List.mem_singleton.mp hd
    cases he
    obtain ⟨e', he', hx⟩ := Expr.exists_of_mem_names_conjAll hx
    exact h e' he' x hx

theorem assertionsAll_assumeAll (es : List Expr) : Cmd.assertionsAll (assumeAll es) = 0 := by
  unfold assumeAll
  split_ifs <;> rfl

/-- An assignment assumes the equalities that its steps leave. -/
theorem passifyCmd_assign_eq_ok {frame : NameMap Expr} {pairs : List (Name × Expr)}
    {es : List Expr} {s₁ : Progress}
    (h : (assignAll block s (pairs.map fun p => (p.1, standIn frame s.map p.2))).outcome =
      .ok (es, s₁)) :
    (passifyCmd frame block (.assign pairs) s).outcome =
      .ok { s₁ with cmds := s₁.cmds ++ assumeAll es } := by
  rw [passifyCmd, Minting.outcome_bind, h]
  change Except.ok (if es.isEmpty then s₁ else s₁.emit (.assume (.conjAll es))) = _
  unfold assumeAll
  split_ifs
  · rw [List.append_nil]
  · rfl

/-- An assignment becomes the assumption that the versions made for its values have them. -/
theorem assign_becomes (hV : S.InForce E V) (hs : S.Sound E V s.versions s.map)
    (pairs : List (Name × Expr)) (hscoped : (Cmd.assign pairs).Scoped S.declarations V) :
    ∃ s', (passifyCmd S.frame block (.assign pairs) s).outcome = .ok s' ∧
      Becomes S V E s (Liveness.before S.declarations (.assign pairs) L) [.assign pairs]
        E s' L := by
  have hreads : ∀ p ∈ pairs, ∀ y ∈ (standIn S.frame s.map p.2).names, s.versions.Used E y :=
    fun p hp => hs.used_standIn fun x hx => hV.used x ((hscoped p hp).2 x hx)
  obtain ⟨es, s₁, hout, h⟩ := assignAll_stores block (g := standIn S.frame s.map) hV hs
    (fun p hp => (hscoped p hp).1) hreads
  -- What is live before the assignment is what the right sides read and what is not assigned to.
  have hvalues : ∀ c, S.Fits c → ∀ ν σ,
      S.Represents s.map (fun x => x ∈ Liveness.before S.declarations (.assign pairs) L ∧ x ∈ V)
        ν σ → ∀ p ∈ pairs, I.value ν.passive (standIn S.frame s.map p.2) = c.value σ p.2 := by
    intro c hc ν σ hrep p hp
    have hscope := (hscoped p hp).2
    refine hrep.value_standIn hc (fun x hx => hV.declared_of_mem (hscope x hx)) fun x hx => ?_
    exact ⟨List.mem_append_left _ (List.mem_flatMap.mpr ⟨p, hp, hx⟩), hscope x hx⟩
  have hafter : ∀ x, x ∈ L ∧ x ∈ V →
      (x ∈ Liveness.before S.declarations (.assign pairs) L ∧ x ∈ V) ∨ x ∈ pairs.map (·.1) :=
    fun x hx => (mem_without_or hx.1).imp_left fun hmem => ⟨List.mem_append_right _ hmem, hx.2⟩
  refine ⟨_, passifyCmd_assign_eq_ok hout, h.sound, assumeAll es, ?_,
    Simulates.of_runs h.grows (readsOnly_assumeAll h.reads) rfl (assertionsAll_assumeAll es) ?_ ?_⟩
  · rw [← h.cmds]
  · rintro c hc ν σ τ hrep ⟨σ', hassign, rfl⟩
    obtain ⟨ν', hν', hall, hrep'⟩ := h.run c ν σ σ _ _ (hvalues c hc ν σ hrep)
      (fun x hx => hV.used x hx.2) hrep hassign
    exact ⟨ν', hν', passes_assumeAll.2 hall, hrep'.mono hafter⟩
  · intro c hc ν σ hrep hall
    obtain ⟨τ, hassign, hrep'⟩ :=
      h.back c ν σ σ _ (hvalues c hc ν σ hrep) hrep (passes_assumeAll.1 hall)
    exact ⟨τ, ⟨τ, hassign, rfl⟩, hrep'.mono hafter⟩

/-! ## Arbitrary values -/

/-- The names that the condition on a variable of a list reads are among the names that the
conditions on the variables of the list read. -/
theorem mem_whereReads {d : Declarations} {xs : List Name} {x y : Name} {w : Expr} (hx : x ∈ xs)
    (hw : (d.find? x).bind (·.whereClause) = some w) (hy : y ∈ w.names) :
    y ∈ Liveness.whereReads d xs := by
  refine List.mem_flatMap.mpr ⟨x, hx, ?_⟩
  rw [hw]
  exact hy

/-- The conditions on variables are assumed after the variables get their versions. -/
theorem passifyCmd_havoc_eq_ok {frame : NameMap Expr} {xs : List Name} {s₁ : Progress}
    (h : (renewAll block s xs).outcome = .ok s₁) :
    (passifyCmd frame block (.havoc xs) s).outcome = .ok { s₁ with
      cmds := s₁.cmds ++ assumptions frame s₁.map (xs.filterMap s₁.versions.whereClause?) } := by
  rw [passifyCmd, Minting.outcome_bind, h, assumptions, List.map_filterMap]
  exact congrArg Except.ok (foldl_assumeWhere frame Versions.whereClause? xs s₁)

/-- Variables that get arbitrary values get versions, about which the conditions on the variables
are assumed. -/
theorem havoc_becomes (hV : S.InForce E V) (hs : S.Sound E V s.versions s.map) (xs : List Name)
    (hscoped : (Cmd.havoc xs).Scoped S.declarations V) :
    ∃ s', (passifyCmd S.frame block (.havoc xs) s).outcome = .ok s' ∧
      Becomes S V E s (Liveness.before S.declarations (.havoc xs) L) [.havoc xs] E s' L := by
  obtain ⟨s₁, hout, h⟩ := renewAll_renews block hV hs fun x hx => (hscoped x hx).1
  let ws : List Expr := xs.filterMap s₁.versions.whereClause?
  have hws : ∀ w, w ∈ ws ↔ ∃ x ∈ xs, (S.declarations.find? x).bind (·.whereClause) = some w := by
    intro w
    rw [List.mem_filterMap]
    refine exists_congr fun x => and_congr_right fun hx => ?_
    rw [h.sound.tracks.whereClause?_eq (hV.declared_of_mem (hscoped x hx).1)]
  have hscope : ∀ w ∈ ws, ∀ y ∈ w.names, y ∈ V := by
    intro w hw y hy
    obtain ⟨x, hx, hw⟩ := (hws w).1 hw
    exact (hscoped x hx).2 w hw y hy
  -- Afterwards the variables are represented that changed, and those that were live before.
  let X : Name → Prop := fun x => x ∈ Liveness.before S.declarations (.havoc xs) L ∧ x ∈ V
  have hlive : ∀ x, x ∈ Liveness.whereReads S.declarations xs ++ L → x ∈ V → X x ∨ x ∈ xs :=
    fun x hx hxV => (mem_without_or hx).imp_left fun hmem => ⟨hmem, hxV⟩
  have hafter : ∀ x, x ∈ L ∧ x ∈ V → X x ∨ x ∈ xs := fun x hx =>
    hlive x (List.mem_append_right _ hx.1) hx.2
  have hpass : ∀ c, S.Fits c → ∀ ν τ, S.Represents s₁.map (fun x => X x ∨ x ∈ xs) ν τ →
      (Passes ν (assumptions S.frame s₁.map ws) ↔
        ∀ x ∈ xs, ∀ w, c.whereClause? x = some w → c.Holds τ w) := by
    intro c hc ν τ hrep
    have hread : ∀ w ∈ ws, ∀ y ∈ w.names, X y ∨ y ∈ xs := by
      intro w hw y hy
      obtain ⟨x, hx, hw'⟩ := (hws w).1 hw
      exact hlive y (List.mem_append_left _ (mem_whereReads hx hw' hy)) (hscope w hw y hy)
    rw [hrep.passes_assumptions_iff hc
      (fun w hw y hy => hV.declared_of_mem (hscope w hw y hy)) hread]
    unfold Context.whereClause?
    simp only [hc.declarations]
    constructor
    · exact fun hall x hx w hw => hall w ((hws w).2 ⟨x, hx, hw⟩)
    · intro hall w hw
      obtain ⟨x, hx, hw⟩ := (hws w).1 hw
      exact hall x hx w hw
  have hreads := h.sound.readsOnly_assumptions fun w hw y hy => hV.used y (hscope w hw y hy)
  refine ⟨_, passifyCmd_havoc_eq_ok hout, h.sound, assumptions S.frame s₁.map ws, ?_,
    Simulates.of_runs h.grows hreads rfl Cmd.assertionsAll_map_assume ?_ ?_⟩
  · rw [← h.cmds]
  · rintro c hc ν σ τ hrep ⟨τ', ⟨hsame, hall⟩, rfl⟩
    have hrep₁ : S.Represents s.map X ν τ := ⟨hrep.starts, fun x hx => by
      have hnot : x ∉ xs := by simpa using (List.mem_filter.mp hx.1).2
      rw [hsame x hnot]
      exact hrep.stands x hx⟩
    obtain ⟨ν', hν', hrep'⟩ := h.run ν τ X (fun x hx => hV.used x hx.2) hrep₁
    exact ⟨ν', hν', (hpass c hc ν' τ hrep').2 hall, hrep'.mono hafter⟩
  · intro c hc ν σ hrep hall
    obtain ⟨τ, hsame, hrep'⟩ := h.back ν σ X hrep
    exact ⟨τ, ⟨τ, ⟨hsame, (hpass c hc ν τ hrep').1 hall⟩, rfl⟩, hrep'.mono hafter⟩

/-! ## Comments -/

/-- A comment becomes nothing. -/
theorem comment_becomes (hs : S.Sound E V s.versions s.map) (text : String) :
    Becomes S V E s L [.comment text] E s L := by
  refine ⟨hs, [], (List.append_nil _).symm, Simulates.of_runs (fun _ hx => hx) ?_ rfl rfl ?_ ?_⟩
  · exact fun d hd => by cases hd
  · rintro c hc ν σ τ hrep ⟨σ', rfl, rfl⟩
    exact ⟨ν, Agree.refl, passes_nil, hrep⟩
  · exact fun c hc ν σ hrep _ => ⟨σ, ⟨σ, rfl, rfl⟩, hrep⟩

end Passive

end Obligations
