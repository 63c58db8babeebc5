import Obligations.Proofs.Passive.Command

/-!
# Scopes and sequences of commands

The locals of a scope come into use where it is opened and stand for themselves there; a valuation
gives them the values that they start with. Nothing stands for them after the scope is closed
(`Passive.scope_becomes`). With this the commands of a block become passive commands that simulate
them, whatever commands they are (`Passive.passifyCmds_becomes`).
-/

namespace Obligations.Passive

variable {I : Interpretation} {S : Scene I} {E E' V L : List Name} {s s' : Progress}

/-- Locals that can come into force: they are declared as they stand, and their names are distinct
and not in use. -/
structure Scene.Fresh (S : Scene I) (E : List Name) (locals : List Variable) : Prop where
  /-- Their names are distinct. -/
  nodup : (locals.map (·.name)).Nodup
  /-- Their names are not in use. -/
  new : ∀ v ∈ locals, v.name ∉ E
  /-- They are declared. -/
  declared : ∀ v ∈ locals, v.name ∈ S.declared
  /-- Their declarations are those of the scene. -/
  find?_eq : ∀ v ∈ locals, S.declarations.find? v.name = some v

/-- Of some locals the others can come into force after the first. -/
theorem Scene.Fresh.of_append {us vs : List Variable} (h : S.Fresh E (us ++ vs)) :
    S.Fresh E us ∧ S.Fresh (E ++ us.map (·.name)) vs := by
  have hnodup := h.nodup
  rw [List.map_append, List.nodup_append] at hnodup
  obtain ⟨hus, hvs, hdisjoint⟩ := hnodup
  refine ⟨⟨hus, fun v hv => h.new v (List.mem_append_left _ hv),
    fun v hv => h.declared v (List.mem_append_left _ hv),
    fun v hv => h.find?_eq v (List.mem_append_left _ hv)⟩,
    ⟨hvs, fun v hv hmem => ?_, fun v hv => h.declared v (List.mem_append_right _ hv),
      fun v hv => h.find?_eq v (List.mem_append_right _ hv)⟩⟩
  rcases List.mem_append.mp hmem with hmem | hmem
  · exact h.new v (List.mem_append_right _ hv) hmem
  · exact hdisjoint _ hmem _ (List.mem_map_of_mem hv) rfl

/-- With declared locals more names are in use. -/
theorem Scene.InForce.append (h : S.InForce E V) {locals : List Variable}
    (hdeclared : ∀ v ∈ locals, v.name ∈ S.declared) :
    S.InForce (E ++ locals.map (·.name)) V where
  declared x hx := by
    rcases List.mem_append.mp hx with hx | hx
    · exact h.declared x hx
    · obtain ⟨v, hv, rfl⟩ := List.mem_map.mp hx
      exact hdeclared v hv
  used x hx := List.mem_append_left _ (h.used x hx)
  outer x hx := List.mem_append_left _ (h.outer x hx)

/-- Inside a scope its locals are in force too. -/
theorem Scene.InForce.enter (h : S.InForce E V) {locals : List Variable}
    (hdeclared : ∀ v ∈ locals, v.name ∈ S.declared) :
    S.InForce (E ++ locals.map (·.name)) (locals.map (·.name) ++ V) where
  declared := (h.append hdeclared).declared
  used x hx := by
    rcases List.mem_append.mp hx with hx | hx
    · exact List.mem_append_right _ hx
    · exact List.mem_append_left _ (h.used x hx)
  outer := (h.append hdeclared).outer

section

variable {locals : List Variable}

/-- Locals declared as they stand do not change what is declared. -/
theorem find?_insertAll_locals (hfresh : S.Fresh E locals) (d : Declarations) {x : Name}
    (hx : d.find? x = S.declarations.find? x) :
    (d.insertAll (locals.map fun v => (v.name, v))).find? x = S.declarations.find? x := by
  rw [NameMap.find?_insertAll]
  cases hv : (NameMap.ofList (locals.map fun v => (v.name, v))).find? x with
  | none => rw [Option.none_or, hx]
  | some v =>
    obtain ⟨u, hu, heq⟩ := List.mem_map.mp (NameMap.mem_of_find?_ofList hv)
    cases heq
    exact (hfresh.find?_eq _ hu).symm

/-- Inside a scope a context still gives the meaning that the scene says. -/
theorem Scene.Fits.enter (hV : S.InForce E V) (hfresh : S.Fresh E locals) {c : Context I}
    (hc : S.Fits c) : S.Fits (c.enter locals) where
  declarations x := find?_insertAll_locals hfresh c.declarations (hc.declarations x)
  modified := by
    unfold Context.enter
    rw [hc.modified, List.filter_eq_self]
    intro x hx
    rw [decide_eq_true_eq]
    intro hmem
    obtain ⟨v, hv, rfl⟩ := List.mem_map.mp hmem
    exact hfresh.new v hv (hV.outer _ (S.outer_of_modified _ hx (hfresh.declared v hv)))
  entry := hc.entry

/-- Declaring locals that are declared keeps track of the versions. -/
theorem Scene.Tracks.declare (h : S.Tracks s.versions) (hfresh : S.Fresh E locals) :
    S.Tracks (s.versions.declare locals) where
  declarations x hx := find?_insertAll_locals hfresh _ (h.declarations x hx)
  counts := h.counts

/-- A declared name that is no base name in use is not in use. -/
theorem not_used_of_declared (h : S.Tracks s.versions) {x : Name} (hx : x ∈ S.declared)
    (hnot : x ∉ E) : ¬ s.versions.Used E x := by
  rintro (hmem | ⟨y, n, hn, heq⟩)
  · exact hnot hmem
  · cases hy : s.versions.counts.find? y with
    | none =>
      rw [hy] at hn
      exact Nat.not_lt_zero _ hn
    | some k => exact S.ne_incarnation x hx y (h.counts y k hy) n heq

/-- What a scope assumes about its locals where it is opened. -/
def opening (frame map : NameMap Expr) (locals : List Variable) : List Cmd :=
  assumptions frame map (locals.filterMap (·.whereClause))

/-- The conditions on the locals of a scope are assumed one after another. -/
theorem foldl_opening (frame : NameMap Expr) (s : Progress) :
    locals.foldl (fun s v => s.assumeWhere frame v.whereClause) s =
      { s with cmds := s.cmds ++ opening frame s.map locals } := by
  rw [opening, assumptions, List.map_filterMap]
  exact foldl_assumeWhere frame (fun _ v => v.whereClause) locals s

/-- What is represented where a scope is entered: what its commands and the conditions on its locals
read. -/
def Scene.Entering (S : Scene I) (V L : List Name) (locals : List Variable) (cmds : List Cmd)
    (x : Name) : Prop :=
  x ∈ Liveness.whereReads S.declarations (locals.map (·.name)) ++
      Liveness.beforeAll S.declarations cmds L ∧
    x ∈ locals.map (·.name) ++ V

/-- Where a scope is entered its locals stand for themselves, so that a valuation represents the
state if it gives them the values that they have. -/
theorem Scene.Represents.enter (hV : S.InForce E V) (hs : S.Sound E V s.versions s.map)
    (hfresh : S.Fresh E locals) {cmds : List Cmd} {ν ν' σ σ' : I.State}
    (hrep : S.Represents s.map
      (fun x => x ∈ Liveness.before S.declarations (.scope locals cmds) L ∧ x ∈ V) ν σ)
    (hν : Agree (s.versions.Used E) ν ν') (hσ : ∀ x, x ∉ locals.map (·.name) → σ' x = σ x)
    (hlocals : ∀ x ∈ locals.map (·.name), ν' x = σ' x) :
    S.Represents s.map (S.Entering V L locals cmds) ν' σ' := by
  have hrep' := hrep.of_agree hs hV.outer (fun x hx => hV.used x hx.2) hν
  refine ⟨hrep'.starts, fun x hx => ?_⟩
  by_cases hlocal : x ∈ locals.map (·.name)
  · -- Nothing stands for a local yet.
    obtain ⟨v, hv, rfl⟩ := List.mem_map.mp hlocal
    have hnone : s.map.find? v.name = none := by
      rw [Option.eq_none_iff_forall_ne_some]
      exact fun e he => hfresh.new v hv (hV.used _ (hs.keys _ e he))
    rw [standsFor, hnone]
    exact congrArg some (hlocals _ hlocal)
  · have hxV : x ∈ V := (List.mem_append.mp hx.2).resolve_left hlocal
    rw [hσ x hlocal]
    exact hrep'.stands x ⟨(mem_without_or hx.1).resolve_right hlocal, hxV⟩

/-- Inside a scope the conditions on its locals are assumed exactly if they are true. -/
theorem passes_opening_iff (hV : S.InForce E V) (hfresh : S.Fresh E locals) {cmds : List Cmd}
    (hscoped : (Cmd.scope locals cmds).Scoped S.declarations V) {c : Context I} (hc : S.Fits c)
    {ν σ' : I.State} (hrep : S.Represents s.map (S.Entering V L locals cmds) ν σ') :
    Passes ν (opening S.frame s.map locals) ↔
      ∀ v ∈ locals, ∀ w, v.whereClause = some w → (c.enter locals).Holds σ' w := by
  have hscope : ∀ w ∈ locals.filterMap (·.whereClause), ∀ x ∈ w.names,
      x ∈ locals.map (·.name) ++ V := by
    intro w hw
    obtain ⟨v, hv, hw⟩ := List.mem_filterMap.mp hw
    exact hscoped.1 v hv w hw
  -- The names that the conditions read are in force inside and live where the scope is entered.
  have hentering : ∀ w ∈ locals.filterMap (·.whereClause), ∀ x ∈ w.names,
      S.Entering V L locals cmds x := by
    intro w hw x hx
    obtain ⟨v, hv, hw'⟩ := List.mem_filterMap.mp hw
    have hwhere : (S.declarations.find? v.name).bind (·.whereClause) = some w := by
      rw [hfresh.find?_eq v hv]
      exact hw'
    exact ⟨List.mem_append_left _ (mem_whereReads (List.mem_map_of_mem hv) hwhere hx),
      hscope w hw x hx⟩
  unfold opening
  rw [hrep.passes_assumptions_iff (hc.enter hV hfresh) (fun w hw x hx =>
    (hV.enter hfresh.declared).declared_of_mem (hscope w hw x hx)) hentering]
  constructor
  · exact fun h v hv w hw => h w (List.mem_filterMap.mpr ⟨v, hv, hw⟩)
  · intro h w hw
    obtain ⟨v, hv, hw⟩ := List.mem_filterMap.mp hw
    exact h v hv w hw

/-- A scope becomes the conditions on its locals and what its commands become; afterwards nothing
stands for the locals any more. -/
theorem scope_becomes (hV : S.InForce E V) (hs : S.Sound E V s.versions s.map)
    (hfresh : S.Fresh E locals) {cmds : List Cmd}
    (hscoped : (Cmd.scope locals cmds).Scoped S.declarations V)
    (hcmds : Becomes S (locals.map (·.name) ++ V) (E ++ locals.map (·.name))
      ⟨s.versions.declare locals, s.map, s.cmds ++ opening S.frame s.map locals⟩
      (Liveness.beforeAll S.declarations cmds L) cmds E' s' L) :
    Becomes S V E s (Liveness.before S.declarations (.scope locals cmds) L) [.scope locals cmds] E'
      { s' with map := locals.foldl (fun m v => m.erase v.name) s'.map } L := by
  have hE : ∀ x, s.versions.Used E x →
      (s.versions.declare locals).Used (E ++ locals.map (·.name)) x := fun x hx =>
    Used.mono (s := s.versions.declare locals) hx fun y hy => List.mem_append_left _ hy
  -- The locals are new, so none of them is a variable in force outside.
  have hnot : ∀ x ∈ V, x ∉ locals.map (·.name) := by
    intro x hx hmem
    obtain ⟨v, hv, rfl⟩ := List.mem_map.mp hmem
    exact hfresh.new v hv (hV.used _ hx)
  obtain ⟨ds, hds, hsim⟩ := hcmds.simulates
  refine ⟨hcmds.sound.eraseAll locals fun x hx hlocal =>
    (List.mem_append.mp hx).resolve_left hlocal, opening S.frame s.map locals ++ ds, ?_, ?_⟩
  · rw [← List.append_assoc]
    exact hds
  have hinner : Simulates S ((s.versions.declare locals).Used (E ++ locals.map (·.name)))
      (S.Represents s.map (S.Entering V L locals cmds)) cmds ds (s'.versions.Used E')
      (S.Represents s'.map fun x => x ∈ L ∧ x ∈ locals.map (·.name) ++ V) :=
    hsim.mono (fun ν σ hrep => hrep.mono fun x hx => ⟨List.mem_append_right _ hx.1, hx.2⟩)
      (fun _ hx => hx) fun _ _ hrep => hrep
  have hs₁ : S.Sound (E ++ locals.map (·.name)) V (s.versions.declare locals) s.map :=
    hs.mono (hs.tracks.declare hfresh) hE fun _ hx => hx
  refine hinner.scope (fun c hc => hc.enter hV hfresh) hE (hs₁.readsOnly_assumptions fun w hw => ?_)
    Cmd.assertionsAll_map_assume ?_ ?_ ?_
  · obtain ⟨v, hv, hw⟩ := List.mem_filterMap.mp hw
    exact fun x hx => (hV.enter hfresh.declared).used x (hscoped.1 v hv w hw x hx)
  · -- The locals are not in use, so the valuation may give them the values that they start with.
    rintro c hc ν σ σ' hrep ⟨hσ, hwhere⟩
    let ν' : I.State := fun x => if x ∈ locals.map (·.name) then σ' x else ν x
    have hν : Agree (s.versions.Used E) ν ν' := by
      intro x hx
      refine if_neg fun hmem => ?_
      obtain ⟨v, hv, rfl⟩ := List.mem_map.mp hmem
      exact not_used_of_declared hs.tracks (hfresh.declared v hv) (hfresh.new v hv) hx
    have hrep' : S.Represents s.map (S.Entering V L locals cmds) ν' σ' :=
      hrep.enter hV hs hfresh hν hσ fun x hx => if_pos hx
    exact ⟨ν', hν, (passes_opening_iff hV hfresh hscoped hc hrep').2 hwhere, hrep'⟩
  · -- The locals start with the values that the valuation gives them.
    intro c hc ν σ hrep hpass
    let σ' : I.State := fun x => if x ∈ locals.map (·.name) then ν x else σ x
    have hσ : ∀ x, x ∉ locals.map (·.name) → σ' x = σ x := fun x hx => if_neg hx
    have hrep' : S.Represents s.map (S.Entering V L locals cmds) ν σ' :=
      hrep.enter hV hs hfresh Agree.refl hσ fun x hx => (if_pos hx).symm
    exact ⟨σ', ⟨hσ, (passes_opening_iff hV hfresh hscoped hc hrep').1 hpass⟩, hrep'⟩
  · -- What is represented afterwards are names outside of the scope only.
    intro ν σ τ hrep
    refine ⟨hrep.starts, fun x hx => ?_⟩
    rw [standsFor, NameMap.find?_eraseAll, if_neg (hnot x hx.2), Context.close,
      if_neg (hnot x hx.2)]
    exact hrep.stands x ⟨hx.1, List.mem_append_right _ hx.2⟩

end

/-! ## Several commands -/

mutual

/-- A command whose names are in force becomes passive commands that simulate it, if it is no call
and the locals of its scopes can come into force. -/
theorem passifyCmd_becomes (block : Name) : ∀ (d : Cmd) {E V L : List Name} {s : Progress},
    S.InForce E V → S.Sound E V s.versions s.map → d.Scoped S.declarations V →
    S.Fresh E (scopeLocals d) → d.callees = [] →
    ∃ s', (passifyCmd S.frame block d s).outcome = .ok s' ∧
      Becomes S V E s (Liveness.before S.declarations d L) [d]
        (E ++ (scopeLocals d).map (·.name)) s' L
  | .assert a, E, _, _, _, hV, hs, hscoped, _, _ => by
    simp only [scopeLocals, List.map_nil, List.append_nil]
    exact assert_becomes hV hs a hscoped
  | .assume e, E, _, _, _, hV, hs, hscoped, _, _ => by
    simp only [scopeLocals, List.map_nil, List.append_nil]
    exact assume_becomes hV hs e hscoped
  | .assign pairs, E, _, _, _, hV, hs, hscoped, _, _ => by
    simp only [scopeLocals, List.map_nil, List.append_nil]
    exact assign_becomes hV hs pairs hscoped
  | .havoc xs, E, _, _, _, hV, hs, hscoped, _, _ => by
    simp only [scopeLocals, List.map_nil, List.append_nil]
    exact havoc_becomes hV hs xs hscoped
  | .call callee args outputs, _, _, _, _, _, _, _, _, hcallees => by cases hcallees
  | .comment text, E, V, L, s, _, hs, _, _, _ => by
    simp only [scopeLocals, List.map_nil, List.append_nil]
    exact ⟨s, rfl, comment_becomes hs text⟩
  | .scope locals cmds, E, V, L, s, hV, hs, hscoped, hfresh, hcallees => by
    rw [scopeLocals] at hfresh ⊢
    rw [List.map_append, ← List.append_assoc]
    -- The locals come into force before the locals of the scopes inside.
    obtain ⟨hlocals, hrest⟩ := hfresh.of_append
    have hs₁ : S.Sound (E ++ locals.map (·.name)) (locals.map (·.name) ++ V)
        (s.versions.declare locals) s.map :=
      hs.mono (hs.tracks.declare hlocals)
        (fun x hx => Used.mono (s := s.versions.declare locals) hx fun y hy =>
          List.mem_append_left _ hy)
        fun x hx => List.mem_append_right _ hx
    obtain ⟨s', hout, hcmds⟩ := passifyCmds_becomes block cmds
      (s := ⟨s.versions.declare locals, s.map, s.cmds ++ opening S.frame s.map locals⟩) (L := L)
      (hV.enter hlocals.declared) hs₁ hscoped.2 hrest hcallees
    refine ⟨_, ?_, scope_becomes hV hs hlocals hscoped hcmds⟩
    rw [passifyCmd, foldl_opening, Minting.outcome_bind, hout]
    rfl

/-- Commands whose names are in force become passive commands that simulate them, if there is no
call among them and the locals of their scopes can come into force. -/
theorem passifyCmds_becomes (block : Name) : ∀ (ds : List Cmd) {E V L : List Name} {s : Progress},
    S.InForce E V → S.Sound E V s.versions s.map → Cmd.ScopedAll S.declarations V ds →
    S.Fresh E (scopeLocalsAll ds) → Cmd.calleesAll ds = [] →
    ∃ s', (passifyCmds S.frame block ds s).outcome = .ok s' ∧
      Becomes S V E s (Liveness.beforeAll S.declarations ds L) ds
        (E ++ (scopeLocalsAll ds).map (·.name)) s' L
  | [], E, _, _, s, _, hs, _, _, _ => by
    rw [scopeLocalsAll, List.map_nil, List.append_nil]
    exact ⟨s, rfl, hs, [], (List.append_nil _).symm,
      Simulates.nil (fun _ hx => hx) fun _ _ hrep => hrep⟩
  | d :: ds, E, V, L, s, hV, hs, hscoped, hfresh, hcallees => by
    rw [scopeLocalsAll] at hfresh ⊢
    rw [List.map_append, ← List.append_assoc]
    obtain ⟨hd, hds⟩ := hfresh.of_append
    obtain ⟨hcallee, hcallees⟩ := List.append_eq_nil_iff.mp hcallees
    obtain ⟨s₁, hout, hbecomes⟩ := passifyCmd_becomes block d
      (L := Liveness.beforeAll S.declarations ds L) hV hs hscoped.1 hd hcallee
    obtain ⟨s', hout', hbecomes'⟩ := passifyCmds_becomes block ds (L := L) (hV.append hd.declared)
      hbecomes.sound hscoped.2 hds hcallees
    refine ⟨s', ?_, hbecomes.append hbecomes'⟩
    rw [passifyCmds, Minting.outcome_bind, hout]
    exact hout'

end

end Obligations.Passive
