import Obligations.Proofs.Cmd.Leaving
import Obligations.Proofs.Implementation.Order
import Obligations.Proofs.Passive.Failure

/-!
# What is not live does not matter

Two states that agree on what is live before commands can be told apart by the other variables only,
and these are not read before they are written to. So a run from one of the states has a run from
the other one beside it, and at the ends of both the states agree on what is live there
(`Liveness.exists_runsBy_of_agree`); what fails from one of them fails from the other
(`Liveness.failsBy_of_agree`). The arbitrary values that variables get may be the same in both runs:
the conditions on them are true in both, since what these conditions read counts as live.

Along a path through a body the states agree on what is live at the start of each block
(`Liveness.failsAllBy_of_path`). So whether an assertion on a path from a block can fail depends on
what is live at the block only (`Liveness.fails_of_agree`).
-/

namespace Obligations

open Passive

variable {I : Interpretation} {c c' : Context I} {d : Declarations} {l : Leaving I}
  {live xs : List Name} {s s' t : I.State}

/-! ## States that agree -/

/-- Two contexts differ at most in values on entry that are never read. -/
structure Context.Matches (c c' : Context I) : Prop where
  /-- The declarations are the same. -/
  declarations : c'.declarations = c.declarations
  /-- The names that denote their values on entry under `old` are the same. -/
  modified : c'.modified = c.modified
  /-- These names have the same values on entry. -/
  entry : Agree (· ∈ c.modified) c.entry c'.entry

namespace Context.Matches

theorem enter (h : c.Matches c') (locals : List Variable) :
    (c.enter locals).Matches (c'.enter locals) where
  declarations := by rw [Context.enter, h.declarations, Context.enter]
  modified := by rw [Context.enter, h.modified, Context.enter]
  entry x hx := h.entry x (List.mem_filter.1 hx).1

theorem whereClause?_eq (h : c.Matches c') (x : Name) : c'.whereClause? x = c.whereClause? x := by
  rw [Context.whereClause?, h.declarations, Context.whereClause?]

/-- An expression has one value in states that agree on its names. -/
theorem value_eq (h : c.Matches c') (hs : Agree (· ∈ live) s s') {e : Expr}
    (he : ∀ x ∈ e.names, x ∈ live) : c'.value s' e = c.value s e := by
  refine Interpretation.valueAt_congr_names fun x hx m => ?_
  cases m with
  | current => exact congrArg some (hs x (he x hx))
  | entry =>
    simp only [Context.reading, h.modified]
    split_ifs with hmodified
    · exact congrArg some (h.entry x hmodified)
    · exact congrArg some (hs x (he x hx))

theorem holds_iff (h : c.Matches c') (hs : Agree (· ∈ live) s s') {e : Expr}
    (he : ∀ x ∈ e.names, x ∈ live) : c'.Holds s' e ↔ c.Holds s e := by
  rw [Context.Holds, Context.Holds, h.value_eq hs he]

end Context.Matches

/-- The state with some variables taken from another one. -/
def Interpretation.State.override (s : I.State) (xs : List Name) (t : I.State) : I.State := fun x =>
  if x ∈ xs then t x else s x

theorem Interpretation.State.override_of_mem {x : Name} (hx : x ∈ xs) :
    s.override xs t x = t x := if_pos hx

theorem Interpretation.State.override_of_notMem {x : Name} (hx : x ∉ xs) :
    s.override xs t x = s x := if_neg hx

/-- States that agree on what is live apart from some variables agree on all of it when these have
got new values, the same in both. -/
theorem Liveness.agree_override (hs : Agree (· ∈ without xs live) s s')
    (ht : ∀ x, x ∉ xs → t x = s x) : Agree (· ∈ live) t (s'.override xs t) := by
  intro x hx
  rcases mem_without_or hx with hlive | hmem
  · have hnot : x ∉ xs := of_decide_eq_true (List.mem_filter.1 hlive).2
    rw [Interpretation.State.override_of_notMem hnot, ht x hnot]
    exact hs x hlive
  · exact Interpretation.State.override_of_mem hmem

/-! ## Commands -/

/-- The conditions on variables are those of a table. -/
def Context.Conforms (c : Context I) (d : Declarations) : Prop :=
  ∀ x, c.whereClause? x = (d.find? x).bind (·.whereClause)

/-- Inside a scope whose locals are in the table the conditions are still those of the table. -/
theorem Context.Conforms.enter (h : c.Conforms d) {locals : List Variable}
    (hlocals : ∀ v ∈ locals, d.find? v.name = some v) : (c.enter locals).Conforms d := by
  intro x
  by_cases hx : x ∈ locals.map (·.name)
  · unfold whereClause? Context.enter
    rw [NameMap.find?_insertAll]
    cases hfound : (NameMap.ofList (locals.map fun v => (v.name, v))).find? x with
    | none =>
      rw [NameMap.find?_ofList_eq_none, List.map_map] at hfound
      exact absurd hx hfound
    | some v =>
      obtain ⟨v', hv', heq⟩ := List.mem_map.1 (NameMap.mem_of_find?_ofList hfound)
      cases heq
      rw [hlocals v hv', Option.some_or]
  · rw [whereClause?_enter hx]
    exact h x

/- What is live after a scope is as it was at the end of the scope, by a rule for leaving scopes. -/
mutual

/-- To leave the scopes in a command does not change what is live there. -/
def Cmd.Spares (l : Leaving I) (d : Declarations) : Cmd → List Name → Prop
  | .scope locals cmds, live =>
    (∀ s t : I.State, ∀ x ∈ live, l locals s t x = t x) ∧ Cmd.SparesAll l d cmds live
  | _, _ => True

/-- To leave the scopes in several commands does not change what is live there. -/
def Cmd.SparesAll (l : Leaving I) (d : Declarations) : List Cmd → List Name → Prop
  | [], _ => True
  | cmd :: cmds, live =>
    cmd.Spares l d (Liveness.beforeAll d cmds live) ∧ Cmd.SparesAll l d cmds live

end

namespace Liveness

theorem agree_before_assign {pairs : List (Name × Expr)} (hc : c.Matches c')
    (hs : Agree (· ∈ before d (.assign pairs) live) s s') (ht : c.Assigns s pairs s t) :
    ∃ t', c'.Assigns s' pairs s' t' ∧ Agree (· ∈ live) t t' := by
  obtain ⟨hvalues, hstored⟩ := Context.assigns_iff.1 ht
  have heq : ∀ p ∈ pairs, c'.value s' p.2 = c.value s p.2 := fun p hp =>
    hc.value_eq hs fun x hx => List.mem_append_left _ (List.mem_flatMap.2 ⟨p, hp, hx⟩)
  -- The second run stores what the first one does, and the variables that are not stored stay as
  -- they were.
  refine ⟨s'.override (pairs.map (·.1)) t, Context.assigns_iff.2 ⟨fun p hp => ?_, fun x => ?_⟩,
    agree_override (hs.mono fun x hx => List.mem_append_right _ hx) fun x hx => ?_⟩
  · rw [heq p hp]
    exact hvalues p hp
  · have hx := hstored x
    cases hfound : (NameMap.ofList pairs).find? x with
    | none =>
      rw [Interpretation.State.override_of_notMem (NameMap.find?_ofList_eq_none.1 hfound)]
      rfl
    | some e =>
      have hmem := NameMap.mem_of_find?_ofList hfound
      rw [hfound] at hx
      rw [Interpretation.State.override_of_mem (List.mem_map_of_mem hmem)]
      exact hx.trans (heq _ hmem).symm
  · have hx' := hstored x
    rw [NameMap.find?_ofList_eq_none.2 hx] at hx'
    exact Option.some.inj hx'

/-- Where variables get arbitrary values, the same values do in a state that agrees on what is
live. -/
theorem agree_before_havoc (hc : c.Matches c') (hd : c.Conforms d)
    (hs : Agree (· ∈ before d (.havoc xs) live) s s') (ht : c.Havocs xs s t) :
    ∃ t', c'.Havocs xs s' t' ∧ Agree (· ∈ live) t t' := by
  obtain ⟨hkept, hwhere⟩ := ht
  have hagree := agree_override (t := t) hs hkept
  refine ⟨s'.override xs t, ⟨fun x hx => Interpretation.State.override_of_notMem hx,
    fun x hx w hw => ?_⟩, hagree.mono fun x hx => List.mem_append_right _ hx⟩
  rw [hc.whereClause?_eq] at hw
  refine (hc.holds_iff hagree fun y hy => List.mem_append_left _ ?_).2 (hwhere x hx w hw)
  exact mem_whereReads hx (hd x ▸ hw) hy

/-- Where a scope is entered, its locals may get the same values in a state that agrees on what is
live. -/
theorem agree_before_scope {locals : List Variable} {cmds : List Cmd} (hc : c.Matches c')
    (hlocals : ∀ v ∈ locals, d.find? v.name = some v)
    (hs : Agree (· ∈ before d (.scope locals cmds) live) s s') (ht : c.Opens locals s t) :
    ∃ t', c'.Opens locals s' t' ∧ Agree (· ∈ beforeAll d cmds live) t t' := by
  obtain ⟨hkept, hwhere⟩ := ht
  have hagree := agree_override (t := t) hs hkept
  refine ⟨s'.override (locals.map (·.name)) t,
    ⟨fun x hx => Interpretation.State.override_of_notMem hx, fun v hv w hw => ?_⟩,
    hagree.mono fun x hx => List.mem_append_right _ hx⟩
  refine ((hc.enter locals).holds_iff hagree fun y hy => List.mem_append_left _ ?_).2
    (hwhere v hv w hw)
  refine mem_whereReads (List.mem_map_of_mem hv) ?_ hy
  rw [hlocals v hv]
  exact hw

mutual

/-- A run of a command from one of two states that agree on what is live before it has one from the
other beside it, and then the states agree on what is live after it. -/
theorem exists_runsBy_of_agree : ∀ {cmd : Cmd} {c c' : Context I} {live : List Name}
    {s s' t : I.State}, c.Matches c' → c.Conforms d →
    (∀ v ∈ scopeLocals cmd, d.find? v.name = some v) → cmd.Spares l d live →
    Agree (· ∈ before d cmd live) s s' → cmd.RunsBy l c s t →
      ∃ t', cmd.RunsBy l c' s' t' ∧ Agree (· ∈ live) t t'
  | .assert a, _, _, _, _, s', _, _, _, _, _, hs, ht => by
    cases ht
    exact ⟨s', rfl, hs.mono fun x hx => List.mem_append_right _ hx⟩
  | .assume e, _, _, _, _, s', _, hc, _, _, _, hs, ht => by
    obtain ⟨he, rfl⟩ := ht
    exact ⟨s', ⟨(hc.holds_iff hs fun x hx => List.mem_append_left _ hx).2 he, rfl⟩,
      hs.mono fun x hx => List.mem_append_right _ hx⟩
  | .assign _, _, _, _, _, _, _, hc, _, _, _, hs, ht => agree_before_assign hc hs ht
  | .havoc _, _, _, _, _, _, _, hc, hd, _, _, hs, ht => agree_before_havoc hc hd hs ht
  | .call _ _ _, _, _, _, _, _, _, _, _, _, _, _, ht => ht.elim
  | .comment _, _, _, _, _, s', _, _, _, _, _, hs, ht => by
    cases ht
    exact ⟨s', rfl, hs⟩
  | .scope locals cmds, _, _, _, _, s', _, hc, hd, hlocals, hspares, hs, ht => by
    obtain ⟨t, t₁, hopens, hcmds, rfl⟩ := ht
    obtain ⟨hlocals, hcmdsLocals⟩ := List.forall_mem_append.1 hlocals
    obtain ⟨t', hopens', hagree⟩ := agree_before_scope hc hlocals hs hopens
    obtain ⟨t₁', hcmds', hagree'⟩ := exists_runsAllBy_of_agree (hc.enter locals)
      (hd.enter hlocals) hcmdsLocals hspares.2 hagree hcmds
    -- How a run leaves the scope does not change what is live behind it, so the states agree there.
    refine ⟨_, ⟨t', t₁', hopens', hcmds', rfl⟩, fun x hx => ?_⟩
    rw [hspares.1 _ _ x hx, hspares.1 _ _ x hx]
    exact hagree' x hx

/-- The same for several commands. -/
theorem exists_runsAllBy_of_agree : ∀ {cmds : List Cmd} {c c' : Context I} {live : List Name}
    {s s' t : I.State}, c.Matches c' → c.Conforms d →
    (∀ v ∈ scopeLocalsAll cmds, d.find? v.name = some v) → Cmd.SparesAll l d cmds live →
    Agree (· ∈ beforeAll d cmds live) s s' → Cmd.RunsAllBy l c cmds s t →
      ∃ t', Cmd.RunsAllBy l c' cmds s' t' ∧ Agree (· ∈ live) t t'
  | [], _, _, _, _, s', _, _, _, _, _, hs, ht => by
    cases ht
    exact ⟨s', rfl, hs⟩
  | cmd :: cmds, _, _, _, _, _, _, hc, hd, hlocals, hspares, hs, ht => by
    obtain ⟨s₁, hcmd, hcmds⟩ := ht
    obtain ⟨hlocal, hlocals⟩ := List.forall_mem_append.1 hlocals
    obtain ⟨s₁', hcmd', hs₁⟩ := exists_runsBy_of_agree hc hd hlocal hspares.1 hs hcmd
    obtain ⟨t', hcmds', hagree⟩ := exists_runsAllBy_of_agree hc hd hlocals hspares.2 hs₁ hcmds
    exact ⟨t', ⟨s₁', hcmd', hcmds'⟩, hagree⟩

end

mutual

/-- An assertion in a command that can fail from one of two states that agree on what is live before
it can fail from the other. -/
theorem failsBy_of_agree : ∀ {cmd : Cmd} {c c' : Context I} {live : List Name} {n : Nat}
    {s s' : I.State}, c.Matches c' → c.Conforms d →
    (∀ v ∈ scopeLocals cmd, d.find? v.name = some v) → cmd.Spares l d live →
    Agree (· ∈ before d cmd live) s s' → cmd.FailsBy l c n s → cmd.FailsBy l c' n s'
  | .assert a, _, _, _, _, _, _, hc, _, _, _, hs, h =>
    ⟨h.1, (hc.value_eq hs fun x hx => List.mem_append_left _ hx).trans h.2⟩
  | .scope locals cmds, _, _, _, _, _, _, hc, hd, hlocals, hspares, hs, h => by
    obtain ⟨t, hopens, hcmds⟩ := h
    obtain ⟨hlocals, hcmdsLocals⟩ := List.forall_mem_append.1 hlocals
    obtain ⟨t', hopens', hagree⟩ := agree_before_scope hc hlocals hs hopens
    exact ⟨t', hopens', failsAllBy_of_agree (hc.enter locals) (hd.enter hlocals) hcmdsLocals
      hspares.2 hagree hcmds⟩
  | .assume _, _, _, _, _, _, _, _, _, _, _, _, h | .assign _, _, _, _, _, _, _, _, _, _, _, _, h
  | .havoc _, _, _, _, _, _, _, _, _, _, _, _, h | .call _ _ _, _, _, _, _, _, _, _, _, _, _, _, h
  | .comment _, _, _, _, _, _, _, _, _, _, _, _, h => h.elim

/-- The same for several commands. -/
theorem failsAllBy_of_agree : ∀ {cmds : List Cmd} {c c' : Context I} {live : List Name} {n : Nat}
    {s s' : I.State}, c.Matches c' → c.Conforms d →
    (∀ v ∈ scopeLocalsAll cmds, d.find? v.name = some v) → Cmd.SparesAll l d cmds live →
    Agree (· ∈ beforeAll d cmds live) s s' → Cmd.FailsAllBy l c cmds n s →
      Cmd.FailsAllBy l c' cmds n s'
  | [], _, _, _, _, _, _, _, _, _, _, _, h => h.elim
  | cmd :: cmds, _, _, _, _, _, _, hc, hd, hlocals, hspares, hs, h => by
    obtain ⟨hlocal, hlocals⟩ := List.forall_mem_append.1 hlocals
    rcases h with h | ⟨k, s₁, hn, hcmd, hcmds⟩
    · exact .inl (failsBy_of_agree hc hd hlocal hspares.1 hs h)
    · obtain ⟨s₁', hcmd', hs₁⟩ := exists_runsBy_of_agree hc hd hlocal hspares.1 hs hcmd
      exact .inr ⟨k, s₁', hn, hcmd', failsAllBy_of_agree hc hd hlocals hspares.2 hs₁ hcmds⟩

end

end Liveness

/-! ## Paths -/

namespace Liveness

variable {i : Implementation} {order : List Nat}

/-- What is live after a block. -/
abbrev after (d : Declarations) (i : Implementation) (order : List Nat) (id : Nat) : List Name :=
  (i.successors id).flatMap (ofOrder d i order).at

/-- An assertion on a path that can fail from one of two states that agree on what is live at the
start of the path can fail from the other. -/
theorem failsAllBy_of_path (h : i.IsTopologicalOrder order) (hc : c.Matches c')
    (hd : c.Conforms d)
    (hlocals : ∀ id, ∀ v ∈ scopeLocalsAll (i.cmdsAt id), d.find? v.name = some v)
    (hspares : ∀ id, Cmd.SparesAll l d (i.cmdsAt id) (after d i order id)) {id last : Nat}
    {ids : List Nat} (hid : i.Reachable id) (hpath : i.Path id ids last) {n : Nat}
    (hs : Agree (· ∈ (ofOrder d i order).at id) s s')
    (hfails : Cmd.FailsAllBy l c (i.cmdsAlong ids) n s) :
    Cmd.FailsAllBy l c' (i.cmdsAlong ids) n s' := by
  -- What is live at a block is what is live before its commands.
  have hbefore : ∀ {id : Nat} {s s' : I.State}, i.Reachable id →
      Agree (· ∈ (ofOrder d i order).at id) s s' →
        Agree (· ∈ beforeAll d (i.cmdsAt id) (after d i order id)) s s' := fun hid hs =>
    hs.mono fun x hx => (mem_at_ofOrder h ((h.mem_iff _).2 hid)).2 hx
  induction hpath generalizing s s' n with
  | single id =>
    rw [Implementation.cmdsAlong_singleton] at hfails ⊢
    exact failsAllBy_of_agree hc hd (hlocals id) (hspares id) (hbefore hid hs) hfails
  | @cons id next last ids edge _ ih =>
    rw [Implementation.cmdsAlong_cons] at hfails ⊢
    rcases Cmd.failsAllBy_append.1 hfails with hfails | ⟨k, t, hn, hruns, hfails⟩
    · exact Cmd.failsAllBy_append.2 (.inl
        (failsAllBy_of_agree hc hd (hlocals id) (hspares id) (hbefore hid hs) hfails))
    · obtain ⟨t', hruns', ht⟩ := exists_runsAllBy_of_agree hc hd (hlocals id) (hspares id)
        (hbefore hid hs) hruns
      have hnext : Agree (· ∈ (ofOrder d i order).at next) t t' :=
        ht.mono fun x hx => List.mem_flatMap.2 ⟨next, edge, hx⟩
      exact Cmd.failsAllBy_append.2 (.inr ⟨k, t', hn, hruns', ih (hid.tail edge) hnext hfails⟩)

end Liveness

/-! ## Rules for leaving scopes -/

mutual

/-- Where locals keep their values, nothing changes. -/
theorem Cmd.spares_keep : ∀ (cmd : Cmd) (live : List Name),
    cmd.Spares (Leaving.keep : Leaving I) d live
  | .scope _ cmds, live => ⟨fun _ _ _ _ => rfl, Cmd.sparesAll_keep cmds live⟩
  | .assert _, _ | .assume _, _ | .assign _, _ | .havoc _, _ | .call _ _ _, _ | .comment _, _ =>
    trivial

/-- The same for several commands. -/
theorem Cmd.sparesAll_keep : ∀ (cmds : List Cmd) (live : List Name),
    Cmd.SparesAll (Leaving.keep : Leaving I) d cmds live
  | [], _ => trivial
  | cmd :: cmds, live => ⟨Cmd.spares_keep cmd _, Cmd.sparesAll_keep cmds live⟩

end

/-- Locals of scopes that are in a table and whose names are distinct and not in force. -/
structure Liveness.Fresh (d : Declarations) (V : List Name) (locals : List Variable) : Prop where
  /-- Their names are distinct. -/
  nodup : (locals.map (·.name)).Nodup
  /-- They are not in force. -/
  new : ∀ v ∈ locals, v.name ∉ V
  /-- They are in the table. -/
  find?_eq : ∀ v ∈ locals, d.find? v.name = some v

namespace Liveness

variable {V : List Name} {vs ws : List Variable}

theorem Fresh.left (h : Fresh d V (vs ++ ws)) : Fresh d V vs where
  nodup := (List.nodup_append.1 (List.map_append ▸ h.nodup)).1
  new v hv := h.new v (List.mem_append_left _ hv)
  find?_eq v hv := h.find?_eq v (List.mem_append_left _ hv)

theorem Fresh.right (h : Fresh d V (vs ++ ws)) : Fresh d V ws where
  nodup := (List.nodup_append.1 (List.map_append ▸ h.nodup)).2.1
  new v hv := h.new v (List.mem_append_right _ hv)
  find?_eq v hv := h.find?_eq v (List.mem_append_right _ hv)

/-- When the first locals are in force, the others are not yet. -/
theorem Fresh.inside (h : Fresh d V (vs ++ ws)) : Fresh d (vs.map (·.name) ++ V) ws where
  nodup := h.right.nodup
  new v hv hmem := by
    rcases List.mem_append.1 hmem with hmem | hmem
    · have hnodup := h.nodup
      rw [List.map_append, List.nodup_append] at hnodup
      exact hnodup.2.2 v.name hmem v.name (List.mem_map_of_mem hv) rfl
    · exact h.right.new v hv hmem
  find?_eq := h.right.find?_eq

/-- What the conditions on variables of a list read, one of them reads. -/
theorem exists_of_mem_whereReads {y : Name} (hy : y ∈ whereReads d xs) :
    ∃ x ∈ xs, ∃ w, (d.find? x).bind (·.whereClause) = some w ∧ y ∈ w.names := by
  obtain ⟨x, hx, hy⟩ := List.mem_flatMap.1 hy
  cases hw : (d.find? x).bind (·.whereClause) with
  | none =>
    rw [hw] at hy
    cases hy
  | some w =>
    rw [hw] at hy
    exact ⟨x, hx, w, hw, hy⟩

mutual

/-- Before a command whose names are in force only such names are live. -/
theorem mem_of_mem_before : ∀ {cmd : Cmd} {V live : List Name}, cmd.Scoped d V →
    Fresh d V (scopeLocals cmd) → (∀ x ∈ live, x ∈ V) → ∀ x ∈ before d cmd live, x ∈ V
  | .assert _, _, _, h, _, hlive, x, hx | .assume _, _, _, h, _, hlive, x, hx =>
    (List.mem_append.1 hx).elim (h x) (hlive x)
  | .assign pairs, _, _, h, _, hlive, x, hx => by
    rcases List.mem_append.1 hx with hx | hx
    · obtain ⟨p, hp, hx⟩ := List.mem_flatMap.1 hx
      exact (h p hp).2 x hx
    · exact hlive x (List.mem_filter.1 hx).1
  | .havoc xs, _, _, h, _, hlive, x, hx => by
    rcases List.mem_append.1 (List.mem_filter.1 hx).1 with hx | hx
    · obtain ⟨y, hy, w, hw, hx⟩ := exists_of_mem_whereReads hx
      exact (h y hy).2 w hw x hx
    · exact hlive x hx
  | .call _ args outputs, _, _, h, _, hlive, x, hx => by
    rcases List.mem_append.1 hx with hx | hx
    · obtain ⟨a, ha, hx⟩ := List.mem_flatMap.1 hx
      exact h.1 a ha x hx
    · exact hlive x (List.mem_filter.1 hx).1
  | .comment _, _, _, _, _, hlive, x, hx => hlive x hx
  | .scope locals cmds, V, _, h, hfresh, hlive, x, hx => by
    obtain ⟨hx, hnot⟩ := List.mem_filter.1 hx
    -- Inside, the locals are in force too, and none of them is live before the scope.
    have hinside : x ∈ locals.map (·.name) ++ V := by
      rcases List.mem_append.1 hx with hx | hx
      · obtain ⟨y, hy, w, hw, hx⟩ := exists_of_mem_whereReads hx
        obtain ⟨v, hv, rfl⟩ := List.mem_map.1 hy
        rw [hfresh.left.find?_eq v hv] at hw
        exact h.1 v hv w hw x hx
      · exact mem_of_mem_beforeAll h.2 hfresh.inside
          (fun y hy => List.mem_append_right _ (hlive y hy)) x hx
    exact (List.mem_append.1 hinside).resolve_left (of_decide_eq_true hnot)

/-- The same for several commands. -/
theorem mem_of_mem_beforeAll : ∀ {cmds : List Cmd} {V live : List Name},
    Cmd.ScopedAll d V cmds → Fresh d V (scopeLocalsAll cmds) → (∀ x ∈ live, x ∈ V) →
      ∀ x ∈ beforeAll d cmds live, x ∈ V
  | [], _, _, _, _, hlive => hlive
  | _ :: _, _, _, h, hfresh, hlive =>
    mem_of_mem_before h.1 hfresh.left (mem_of_mem_beforeAll h.2 hfresh.right hlive)

end

mutual

/-- A local of a scope in a command whose names are in force is not live after the scope, so that it
may get back a value that it had before. -/
theorem spares_close : ∀ {cmd : Cmd} {V live : List Name}, cmd.Scoped d V →
    Fresh d V (scopeLocals cmd) → (∀ x ∈ live, x ∈ V) →
      cmd.Spares (Context.close : Leaving I) d live
  | .scope locals cmds, V, live, h, hfresh, hlive => by
    refine ⟨fun s t x hx => if_neg fun hmem => ?_, sparesAll_close h.2 hfresh.inside
      fun y hy => List.mem_append_right _ (hlive y hy)⟩
    obtain ⟨v, hv, rfl⟩ := List.mem_map.1 hmem
    exact hfresh.left.new v hv (hlive _ hx)
  | .assert _, _, _, _, _, _ | .assume _, _, _, _, _, _ | .assign _, _, _, _, _, _
  | .havoc _, _, _, _, _, _ | .call _ _ _, _, _, _, _, _ | .comment _, _, _, _, _, _ => trivial

/-- The same for several commands. -/
theorem sparesAll_close : ∀ {cmds : List Cmd} {V live : List Name},
    Cmd.ScopedAll d V cmds → Fresh d V (scopeLocalsAll cmds) → (∀ x ∈ live, x ∈ V) →
      Cmd.SparesAll (Context.close : Leaving I) d cmds live
  | [], _, _, _, _, _ => trivial
  | _ :: _, _, _, h, hfresh, hlive =>
    ⟨spares_close h.1 hfresh.left (mem_of_mem_beforeAll h.2 hfresh.right hlive),
      sparesAll_close h.2 hfresh.right hlive⟩

end

/-- At the start of a block of a body whose names are in force only such names are live. -/
theorem mem_of_mem_at {i : Implementation} (hcmds : ∀ id, Cmd.ScopedAll d V (i.cmdsAt id))
    (hfresh : ∀ id, Fresh d V (scopeLocalsAll (i.cmdsAt id))) {order : List Nat} {id : Nat} :
    ∀ x ∈ (ofOrder d i order).at id, x ∈ V := by
  induction order generalizing id with
  | nil => exact fun x hx => absurd hx List.not_mem_nil
  | cons first order ih =>
    intro x hx
    unfold Table.at at hx
    rw [ofOrder, List.lookup_cons] at hx
    split at hx
    · rw [Option.getD_some, List.mem_eraseDups] at hx
      refine mem_of_mem_beforeAll (hcmds first) (hfresh first) (fun y hy => ?_) x hx
      obtain ⟨next, -, hy⟩ := List.mem_flatMap.1 hy
      exact ih y hy
    · exact ih x hx

end Liveness

/-! ## Bodies -/

namespace Liveness

variable {p : Program} {i : Implementation}

/-- In a body with distinct names the locals of the scopes of a block are in the table, and no
variable in force outside of all scopes has the name of one. -/
theorem fresh_declarations (hnodup : ((outerVariables p i ++ scopeVariables i).map (·.name)).Nodup)
    (id : Nat) : Fresh (declarations p i) ((outerVariables p i).map (·.name))
      (scopeLocalsAll (i.cmdsAt id)) := by
  refine Implementation.forall_cmdsAt (P := fun cs => Fresh (declarations p i)
    ((outerVariables p i).map (·.name)) (scopeLocalsAll cs))
    ⟨List.nodup_nil, fun _ hv => (by cases hv), fun _ hv => (by cases hv)⟩ (fun b hb => ?_) id
  have hmem : ∀ v ∈ scopeLocalsAll b.cmds, v ∈ scopeVariables i :=
    fun v hv => List.mem_flatMap.2 ⟨b, hb, hv⟩
  have hsplit := hnodup
  rw [List.map_append, List.nodup_append] at hsplit
  obtain ⟨-, hscopes, hdisjoint⟩ := hsplit
  rw [scopeVariables, List.map_flatMap, List.nodup_flatMap] at hscopes
  exact ⟨hscopes.1 b hb,
    fun v hv houter => hdisjoint v.name houter v.name (List.mem_map_of_mem (hmem v hv)) rfl,
    fun v hv => find?_declarations_of_nodup hnodup (List.mem_append_right _ (hmem v hv))⟩

/-- If the entry does not exist, no block that can be reached does. -/
theorem not_lt_length_of_reachable (h : ¬ i.entry < i.blocks.length) {id : Nat}
    (hid : i.Reachable id) : ¬ id < i.blocks.length := by
  induction hid with
  | refl => exact h
  | tail _ edge ih => exact absurd (Implementation.lt_length_of_edge edge) ih

theorem cmdsAlong_eq_nil (h : ¬ i.entry < i.blocks.length) {id last : Nat} {ids : List Nat}
    (hid : i.Reachable id) (hpath : i.Path id ids last) : i.cmdsAlong ids = [] := by
  refine List.flatMap_eq_nil_iff.2 fun id' hid' => ?_
  have hnone := not_lt_length_of_reachable h (hpath.reachable hid id' hid')
  unfold Implementation.cmdsAt
  rw [List.getElem?_eq_none (Nat.le_of_not_lt hnone)]
  rfl

/-- With distinct names, and a rule for leaving scopes that spares what is live, an assertion on a
path that can fail from one of two states that agree on what is live at the start of the path can
fail from the other. -/
theorem failsAllBy_of_reachable
    (hnodup : ((outerVariables p i ++ scopeVariables i).map (·.name)).Nodup) {order : List Nat}
    (horder : i.topologicalOrder = .ok order)
    (hspares : ∀ id, Cmd.SparesAll l (declarations p i) (i.cmdsAt id)
      (after (declarations p i) i order id)) {modified : List Name} {σ σ' : I.State}
    {id last : Nat} {ids : List Nat} {n : Nat} (hid : i.Reachable id) (hpath : i.Path id ids last)
    (hσ : Agree (· ∈ modified) σ σ')
    (hs : Agree (· ∈ (ofOrder (declarations p i) i order).at id) s s')
    (hfails : Cmd.FailsAllBy l ⟨declarations p i, modified, σ⟩ (i.cmdsAlong ids) n s) :
    Cmd.FailsAllBy l ⟨declarations p i, modified, σ'⟩ (i.cmdsAlong ids) n s' := by
  have hmatches : Context.Matches ⟨declarations p i, modified, σ⟩
      ⟨declarations p i, modified, σ'⟩ := ⟨rfl, rfl, hσ⟩
  by_cases hentry : i.entry < i.blocks.length
  · exact failsAllBy_of_path (Implementation.isTopologicalOrder horder hentry) hmatches
      (fun _ => rfl) (fun id => (fresh_declarations hnodup id).find?_eq) hspares hid hpath hs hfails
  · rw [cmdsAlong_eq_nil hentry hid hpath] at hfails
    exact hfails.elim

/-- Which assertions on a path from a block can fail depends on what is live at the block only, and
on the values on entry that are read under `old`, if all names are distinct. The locals of scopes
are variables like others then, which get values where the scope is entered. If they are used inside
of their scopes only, the variables that they hide may also come back where the scope is left. -/
theorem fails_of_agree (hcheck : i.check = .ok ())
    (hnodup : ((outerVariables p i ++ scopeVariables i).map (·.name)).Nodup) :
    ∃ order, i.topologicalOrder = .ok order ∧
      ∀ (I : Interpretation) (modified : List Name) (σ σ' s s' : I.State) (id last : Nat)
        (ids : List Nat) (n : Nat), i.Reachable id → i.Path id ids last →
        Agree (· ∈ modified) σ σ' → Agree (· ∈ (ofOrder (declarations p i) i order).at id) s s' →
          (Cmd.FailsAllBy .keep ⟨declarations p i, modified, σ⟩ (i.cmdsAlong ids) n s →
            Cmd.FailsAllBy .keep ⟨declarations p i, modified, σ'⟩ (i.cmdsAlong ids) n s') ∧
          ((∀ b ∈ i.blocks,
              Cmd.ScopedAll (declarations p i) ((outerVariables p i).map (·.name)) b.cmds) →
            Cmd.FailsAll ⟨declarations p i, modified, σ⟩ (i.cmdsAlong ids) n s →
              Cmd.FailsAll ⟨declarations p i, modified, σ'⟩ (i.cmdsAlong ids) n s') := by
  obtain ⟨order, horder, -⟩ := Implementation.exists_order hcheck
  refine ⟨order, horder, fun I modified σ σ' s s' id last ids n hid hpath hσ hs =>
    ⟨fun hfails => ?_, fun hcmds hfails => ?_⟩⟩
  · exact failsAllBy_of_reachable hnodup horder (fun id => Cmd.sparesAll_keep _ _) hid hpath hσ hs
      hfails
  · have hscoped : ∀ id, Cmd.ScopedAll (declarations p i) ((outerVariables p i).map (·.name))
        (i.cmdsAt id) := Implementation.forall_cmdsAt trivial hcmds
    have hfresh := fresh_declarations hnodup
    -- Where each local is used inside of its scope only, the variable that it hides is not live
    -- there.
    have hspares : ∀ id, Cmd.SparesAll (Context.close : Leaving I) (declarations p i) (i.cmdsAt id)
        (after (declarations p i) i order id) := fun id =>
      sparesAll_close (hscoped id) (hfresh id) fun x hx =>
        have ⟨_, _, hx⟩ := List.mem_flatMap.1 hx
        mem_of_mem_at hscoped hfresh x hx
    exact (Cmd.failsAllBy_close _ _ _ _).1 (failsAllBy_of_reachable hnodup horder hspares hid hpath
      hσ hs ((Cmd.failsAllBy_close _ _ _ _).2 hfails))

/-- A state in which the local of a scope has a value and the other variables are zero. -/
def steppingState (t : Int) : (Interpretation.standard fun _ _ => none).State := fun x =>
  if x = ⟨"t"⟩ then .value (.int t) else .value (.int 0)

/-- The body is entered in a state in which all variables are one. -/
def steppingContext : Context (Interpretation.standard fun _ _ => none) :=
  ⟨declarations steppingProgram steppingBody, [⟨"g"⟩], fun _ => .value (.int 1)⟩

/-- The local of the scope. -/
def steppingLocal : Variable :=
  ⟨⟨"t"⟩, .int, some (.binary .ge (.symbol ⟨"t"⟩) (.int 0)), .local⟩

/-- The value of the local is not live before its scope. -/
theorem agree_steppingState (a b : Int) :
    Agree (· ∈ (ofOrder (declarations steppingProgram steppingBody) steppingBody [0, 1, 2, 3]).at 2)
      (steppingState a) (steppingState b) := by
  have hlive : (ofOrder (declarations steppingProgram steppingBody) steppingBody
      [0, 1, 2, 3]).at 2 = [⟨"g"⟩] := by cbv
  intro x hx
  rw [hlive, List.mem_singleton] at hx
  rw [hx]
  rfl

/-- Where the scope is entered, the local may get the value zero. -/
theorem opens_steppingState (a : Int) :
    steppingContext.Opens [steppingLocal] (steppingState a) (steppingState 0) := by
  refine ⟨fun x hx => ?_, fun v hv w hw => ?_⟩
  · have hne : x ≠ ⟨"t"⟩ := fun heq => hx (List.mem_singleton.2 heq)
    exact (if_neg hne).trans (if_neg hne).symm
  · cases List.mem_singleton.1 hv
    cases hw
    rfl

/-- Inside of the scope it may keep the value zero. -/
theorem havocs_steppingState :
    (steppingContext.enter [steppingLocal]).Havocs [⟨"t"⟩] (steppingState 0) (steppingState 0) := by
  refine ⟨fun _ _ => rfl, fun x hx w hw => ?_⟩
  cases List.mem_singleton.1 hx
  cases hw
  rfl

theorem fails_of_agree_stepping :
    steppingBody.check = .ok () ∧
      ((outerVariables steppingProgram steppingBody ++ scopeVariables steppingBody).map
        (·.name)).Nodup ∧
      (Cmd.FailsAllBy .keep steppingContext (steppingBody.cmdsAlong [2, 3]) 0 (steppingState 5) ∧
        Cmd.FailsAllBy .keep steppingContext (steppingBody.cmdsAlong [2, 3]) 0 (steppingState 7)) ∧
      Cmd.FailsAll steppingContext (steppingBody.cmdsAlong [2, 3]) 0 (steppingState 5) ∧
        Cmd.FailsAll steppingContext (steppingBody.cmdsAlong [2, 3]) 0 (steppingState 7) := by
  have hcheck : steppingBody.check = .ok () := by cbv
  obtain ⟨order, horder, h⟩ := fails_of_agree (p := steppingProgram) hcheck steppingBody_ready.nodup
  obtain rfl : order = [0, 1, 2, 3] := by
    have horder' : steppingBody.topologicalOrder = .ok [0, 1, 2, 3] := by cbv
    exact Except.ok.inj (horder.symm.trans horder')
  have hreach : steppingBody.Reachable 2 :=
    .tail .refl (by decide : 2 ∈ steppingBody.successors 0)
  have hpath : steppingBody.Path 2 [2, 3] 3 :=
    .cons (by decide : 3 ∈ steppingBody.successors 2) (.single 3)
  have hboth := h _ [⟨"g"⟩] steppingContext.entry steppingContext.entry _ _ 2 3 [2, 3] 0 hreach
    hpath .refl (agree_steppingState 5 7)
  -- The local gets the value zero in the scope, so that `g` stays less than its value on entry.
  have hopens := opens_steppingState 5
  have hkeep : Cmd.FailsAllBy .keep steppingContext (steppingBody.cmdsAlong [2, 3]) 0
      (steppingState 5) :=
    .inr ⟨0, _, rfl, ⟨_, _, hopens, ⟨_, havocs_steppingState, _, ⟨_, rfl, rfl⟩, rfl⟩, rfl⟩,
      .inl ⟨rfl, rfl⟩⟩
  have hclose : Cmd.FailsAll steppingContext (steppingBody.cmdsAlong [2, 3]) 0
      (steppingState 5) :=
    .inr ⟨0, _, rfl, ⟨_, _, hopens, ⟨_, havocs_steppingState, _, ⟨_, rfl, rfl⟩, rfl⟩, rfl⟩,
      .inl ⟨rfl, rfl⟩⟩
  exact ⟨hcheck, steppingBody_ready.nodup, ⟨hkeep, hboth.1 hkeep⟩, hclose,
    hboth.2 steppingBody_ready.cmds hclose⟩

end Liveness

end Obligations
