import Obligations.Proofs.Passive.Failure
import Obligations.Proofs.Passive.Trace

/-!
# Single assignment

A passive body is in single-assignment form (`Passive.SingleAssignment`): along a path from the entry
a version gets its value at most once, and it does so before it is read. Bodies become so if names of
versions are neither declared nor read nor written (`Implementation.passiveForm_singleAssignment`):
the versions defined along a path are among those made, in the order in which they are made, and a
join keeps what stands for variables at the end of every predecessor. A body may write to a name that
becomes that of a version, though; such an assignment is a second definition of the version
(`passiveForm_not_singleAssignment_rewriting`).
-/

namespace Obligations

/-! ## Paths -/

namespace Implementation

variable {i : Implementation} {order : List Nat}

/-- A path begins with its first block. -/
theorem Path.eq_cons {a b : Nat} {ids : List Nat} (h : i.Path a ids b) : ids = a :: ids.tail := by
  cases h <;> rfl

/-- A path visits blocks in their order. -/
theorem IsTopologicalOrder.sublist (h : i.IsTopologicalOrder order) {a b : Nat} {ids : List Nat}
    (hp : i.Path a ids b) : ∀ before after, order = before ++ a :: after →
      ids.Sublist (a :: after) := by
  induction hp with
  | single id => exact fun before after _ => List.singleton_sublist.2 List.mem_cons_self
  | @cons id next last ids edge _ ih =>
    intro before after horder
    -- The next block comes later in the order.
    obtain ⟨between, after', rfl⟩ :=
      List.append_of_mem (h.successors_after before id after horder next edge)
    have hrest := ih (before ++ id :: between) after' (by rw [horder, List.append_assoc]; rfl)
    exact (hrest.trans (List.sublist_append_right _ _)).cons_cons id

/-- A path from the entry visits blocks in their order. -/
theorem IsTopologicalOrder.sublist_of_entry (h : i.IsTopologicalOrder order) {b : Nat}
    {ids : List Nat} (hp : i.Path i.entry ids b) : ids.Sublist order := by
  obtain ⟨before, after, horder⟩ := List.append_of_mem h.entry_mem
  rw [horder]
  exact (h.sublist hp before after horder).trans (List.sublist_append_right _ _)

/-- Bodies whose blocks lead to the same blocks have the same paths. -/
theorem Path.congr {j : Implementation} (h : ∀ id, j.successors id = i.successors id) {a b : Nat}
    {ids : List Nat} (hp : j.Path a ids b) : i.Path a ids b := by
  induction hp with
  | single id => exact .single id
  | cons edge _ ih => exact .cons (h _ ▸ edge) ih

end Implementation

namespace Passive

section

variable {c : Setting} {i : Implementation} {T : Nat → BlockTrace} {order : List Nat} {s : Advance}
  {id p last : Nat} {ids : List Nat} {m : NameMap Expr}

/-! ## Steps along a path -/

/-- The steps that assume equalities one by one. -/
def equateEach (es : List Expr) : List Step := es.map fun e => .equate [e]

theorem conjAll_singleton (e : Expr) : Expr.conjAll [e] = e := by
  simp [Expr.conjAll, Expr.conj, Expr.isTrue]

theorem cmds_equateEach (es : List Expr) : (equateEach es).flatMap Step.cmds = es.map .assume := by
  unfold equateEach
  rw [List.flatMap_map, List.map_eq_flatMap]
  exact List.flatMap_congr fun e _ => congrArg (fun e => [Cmd.assume e]) (conjAll_singleton e)

theorem defines_equateEach (es : List Expr) :
    (equateEach es).flatMap Step.defines = es.filterMap leftSide? := by
  induction es with
  | nil => rfl
  | cons e es ih =>
    rw [← List.singleton_append (x := e), List.filterMap_append, ← ih]
    rfl

/-- The equalities at the end of a block define what they read first. -/
theorem Closing.definesFirst {es : List Expr} (h : Closing i T order id m es) {G : Name → Prop}
    (hG : ∀ n : Name, n.Versionless → G n) (hm : m.Over G) : DefinesFirst G (equateEach es) := by
  refine .of_forall fun t ht n hn => ?_
  obtain ⟨e, he, rfl⟩ := List.mem_map.1 ht
  have hread : n ∈ (Expr.conjAll [e]).names := by
    unfold Step.reads Step.cmds at hn
    rw [List.flatMap_singleton] at hn
    exact hn
  rw [conjAll_singleton] at hread
  exact (h.reads G hG hm e he n hread).imp_right fun heq => List.mem_filterMap.2
    ⟨e, List.mem_singleton_self e, heq⟩

/-- The steps of a block that is charted are its own and the equalities at its end. -/
theorem Charted.exists_closing (hs : Charted i T order s) (hm : s.exitMaps.lookup id = some m) :
    ∃ es, Closing i T order id m es ∧
      stepsAt s.body (T id).own id = (T id).own ++ equateEach es ∧
      s.body.cmdsAt id = (T id).own.flatMap Step.cmds ++ es.map .assume := by
  obtain ⟨es, hcmds, hes⟩ := hs.cmds id m hm
  refine ⟨es, hes, ?_, hcmds⟩
  unfold stepsAt
  rw [hcmds, List.drop_left, List.filterMap_map]
  exact congrArg (fun es => (T id).own ++ equateEach es) List.filterMap_some

/-- The steps of a block make its commands. -/
theorem Charted.cmds_stepsAt (hs : Charted i T order s) (hid : id ∈ order) :
    (stepsAt s.body (T id).own id).flatMap Step.cmds = s.body.cmdsAt id := by
  obtain ⟨m, hm⟩ := (hs.mem_iff id).1 hid
  obtain ⟨es, -, hsteps, hcmds⟩ := hs.exists_closing hm
  rw [hsteps, hcmds, List.flatMap_append, cmds_equateEach]

/-- The versions that a block defines are those of its own steps and those that are made for a
successor, if it has one. -/
theorem Charted.defines_stepsAt (hi : Layout c i order) (hs : Charted i T order s)
    (hid : id ∈ order) : ∃ ns, (stepsAt s.body (T id).own id).flatMap Step.defines =
      (T id).own.flatMap Step.defines ++ ns ∧
      (∀ next ∈ i.successors id, ns = (T next).joined) ∧ (i.successors id = [] → ns = []) := by
  obtain ⟨m, hm⟩ := (hs.mem_iff id).1 hid
  obtain ⟨es, hes, hsteps, -⟩ := hs.exists_closing hm
  refine ⟨es.filterMap leftSide?, ?_, fun next edge => ?_, fun hnone => ?_⟩
  · rw [hsteps, List.flatMap_append, defines_equateEach]
  · exact hes.defines next (hi.topological.successor_mem hid edge) edge
  · rw [hes.eq_nil fun next edge => by rw [hnone] at edge; cases edge]
    rfl

/-- The versions defined along a path are among those made for its blocks and for one that comes
after them, in this order. -/
theorem Charted.sublist_made (hi : Layout c i order) (hs : Charted i T order s) {a : Nat}
    (hp : i.Path a ids last) (hmem : ∀ id ∈ ids, id ∈ order) : ∃ more,
      (more = [] ∨ ∃ next ∈ i.successors last, more = [next]) ∧
      ((ids.flatMap fun id => stepsAt s.body (T id).own id).flatMap Step.defines).Sublist
        ((T a).own.flatMap Step.defines ++ (ids.tail ++ more).flatMap fun id => (T id).made) := by
  induction hp with
  | single id =>
    obtain ⟨ns, hdefines, hnext, hnone⟩ := hs.defines_stepsAt hi (hmem id List.mem_cons_self)
    rw [List.flatMap_singleton, hdefines]
    cases hsucc : i.successors id with
    | nil =>
      refine ⟨[], .inl rfl, ?_⟩
      rw [hnone hsucc]
      exact List.Sublist.refl _
    | cons next _ =>
      refine ⟨[next], .inr ⟨next, List.mem_cons_self, rfl⟩, ?_⟩
      rw [hnext next (hsucc ▸ List.mem_cons_self), List.tail_cons, List.nil_append,
        List.flatMap_singleton]
      exact (List.sublist_append_left _ _).append_left _
  | @cons id next last ids edge hp ih =>
    obtain ⟨hid, hmem⟩ := List.forall_mem_cons.1 hmem
    obtain ⟨more, hmore, hsub⟩ := ih hmem
    obtain ⟨ns, hdefines, hnext, -⟩ := hs.defines_stepsAt hi hid
    refine ⟨more, hmore, ?_⟩
    -- The block behind the first is the head of the rest of the path, so its versions come next.
    have htail : ids ++ more = next :: (ids.tail ++ more) := by
      rw [← List.cons_append, ← hp.eq_cons]
    rw [List.flatMap_cons, List.flatMap_append, hdefines, hnext next edge, List.tail_cons, htail,
      List.flatMap_cons, BlockTrace.made, List.append_assoc, List.append_assoc]
    exact (hsub.append_left _).append_left _

/-- Along a path from the entry no version is defined twice. -/
theorem Charted.nodup_defines (hi : Layout c i order) (hs : Charted i T order s)
    (hp : i.Path i.entry ids last) :
    ((ids.flatMap fun id => stepsAt s.body (T id).own id).flatMap Step.defines).Nodup := by
  obtain ⟨more, hmore, hsub⟩ := hs.sublist_made hi hp (hi.topological.mem_of_path hp)
  have hpath : (ids ++ more).Sublist order := by
    rcases hmore with rfl | ⟨next, edge, rfl⟩
    · rw [List.append_nil]
      exact hi.topological.sublist_of_entry hp
    · exact hi.topological.sublist_of_entry (hp.concat edge)
  have hmade := hs.versions.nodup
  rw [hs.made] at hmade
  refine hmade.sublist (hsub.trans (.trans ?_ (hpath.flatMap _)))
  rw [hp.eq_cons, List.cons_append, List.flatMap_cons, List.tail_cons, BlockTrace.made,
    List.append_assoc]
  exact List.sublist_append_right _ _

/-- Along a path from the entry versions are defined before they are read, and what stands for
variables at its end reads no others. -/
theorem Charted.definesFirst (hi : Layout c i order) (hs : Charted i T order s) (ids : List Nat) :
    ∀ last m, i.Path i.entry ids last → s.exitMaps.lookup last = some m →
      DefinesFirst Name.Versionless (ids.flatMap fun id => stepsAt s.body (T id).own id) ∧
      m.Over (Given Name.Versionless (ids.flatMap fun id => stepsAt s.body (T id).own id)) := by
  induction ids using List.reverseRecOn with
  | nil => exact fun last m hp => by cases hp
  | append_singleton before id ih =>
    intro last m hp hm
    let before' := before.flatMap fun id => stepsAt s.body (T id).own id
    -- What stands for variables at the start of the last block reads what is defined before it.
    have hstart : id = last ∧ DefinesFirst Name.Versionless before' ∧
        (T last).start.Over (Given Name.Versionless before') := by
      rcases hp.eq_single_or_concat with ⟨hids, rfl⟩ | ⟨ids, p, hids, hp, edge⟩
      · obtain ⟨rfl, hid⟩ := List.append_inj' (hids.trans (List.nil_append _).symm) rfl
        exact ⟨List.singleton_inj.1 hid, .of_forall fun t ht => absurd ht List.not_mem_nil,
          hs.start_entry hi.topological.entry_mem _⟩
      · obtain ⟨rfl, hid⟩ := List.append_inj' hids rfl
        have hp_order := hi.topological.mem_of_path hp p hp.last_mem
        obtain ⟨m', hm'⟩ := (hs.mem_iff p).1 hp_order
        obtain ⟨hbefore, hover⟩ := ih p m' hp hm'
        refine ⟨List.singleton_inj.1 hid, hbefore, ?_⟩
        refine (hs.start last (hi.topological.successor_mem hp_order edge) p m' hm' edge _
          hover).mono fun n hn => hn.elim (fun hn => hn) fun hn => .inr ?_
        -- The versions that are made for the block are defined at the end of its predecessor.
        obtain ⟨ns, hdefines, hnext, -⟩ := hs.defines_stepsAt hi hp_order
        rw [List.flatMap_assoc]
        refine List.mem_flatMap.2 ⟨p, hp.last_mem, ?_⟩
        rw [hdefines, hnext last edge]
        exact List.mem_append_right _ hn
    obtain ⟨rfl, hbefore, hstart⟩ := hstart
    have hgiven : ∀ n : Name, n.Versionless → Given Name.Versionless before' n := fun _ => .inl
    obtain ⟨hown, hover⟩ := hs.own id m hm _ hgiven hstart
    obtain ⟨es, hes, hsteps, -⟩ := hs.exists_closing hm
    rw [List.flatMap_append, List.flatMap_singleton, hsteps]
    refine ⟨hbefore.append (hown.append (hes.definesFirst (fun n hn => .inl (hgiven n hn)) hover)),
      hover.mono fun n hn => ?_⟩
    rw [given_append, given_append]
    exact .inl hn

end

/-! ## Passive bodies -/

/-- The steps of a block of a passive body are in single-assignment form. -/
structure SingleAssignment (b : PassiveImplementation) (steps : Nat → List Step) : Prop where
  /-- The steps of a block make its commands. -/
  cmds : ∀ id ∈ b.order, (steps id).flatMap Step.cmds = b.body.cmdsAt id
  /-- Along a path from the entry no version is defined twice. -/
  nodup : ∀ ids last, b.body.Path b.body.entry ids last →
    ((ids.flatMap steps).flatMap Step.defines).Nodup
  /-- A version that is read along a path from the entry is defined by then. -/
  definesFirst : ∀ ids last, b.body.Path b.body.entry ids last →
    DefinesFirst (· ∉ b.origins.keys) (ids.flatMap steps)

/-- The steps of the blocks of a passive body, from the body that was made ready for it. -/
def bodySteps (l : Lexicon) (prune : Bool) (p : Program) (q : Procedure) (i : Implementation)
    (b : PassiveImplementation) (id : Nat) : List Step :=
  let traces := traceBlocks (settingOf l prune p q i b.order) b.order ⟨i, initialVersions p i, []⟩
  stepsAt b.body ((traces.lookup id).map (·.own) |>.getD []) id

theorem numbered_initialVersions {p : Program} {i : Implementation}
    (hglobals : ∀ v ∈ p.globals, v.Within .versionless) (hi : i.Within .versionless) :
    (initialVersions p i).Numbered where
  made v hv := by cases hv
  nodup := List.nodup_nil
  origins x hx := by cases hx
  isIncarnation x hx := by
    unfold Versions.isIncarnation at hx
    cases hv : (initialVersions p i).declarations.find? x with
    | none =>
      rw [hv] at hx
      cases hx
    | some v =>
      rw [hv] at hx
      have hwithin := within_of_find?_declarations hglobals hi hv
      exact absurd hx (by simp [Versions.Numbered.isIncarnation_eq_false hwithin])
  whereClause x w hw := by
    obtain ⟨v, hv, hw⟩ := Option.bind_eq_some_iff.1 hw
    exact (within_of_find?_declarations hglobals hi hv).whereClause w hw

theorem over_frame {gs : List Name} (hgs : ∀ g ∈ gs, g.Versionless) :
    NameMap.Over Name.Versionless (.ofList (gs.map fun g => (g, .symbol g))) := by
  intro x e he
  obtain ⟨g, hg, heq⟩ := List.mem_map.1 (NameMap.mem_of_find?_ofList he)
  cases heq
  refine ⟨hgs x hg, fun n hn => ?_⟩
  rw [Expr.mem_names_symbol.1 hn]
  exact hgs x hg

theorem map_fst_traceBlocks (c : Setting) : ∀ (ids : List Nat) (s : Advance),
    ((traceBlocks c ids s).map (·.1)).Sublist ids
  | [], _ => .slnil
  | id :: ids, s => by
    rw [traceBlocks]
    cases (passifyBlock c id s).outcome with
    | error => exact List.nil_sublist _
    | ok s' => exact (map_fst_traceBlocks c ids s').cons_cons id

/-- What a list with distinct keys says of a key is found. -/
theorem lookup_eq_some_of_mem {α : Type} {l : List (Nat × α)} (hnodup : (l.map (·.1)).Nodup)
    {x : Nat × α} (hx : x ∈ l) : l.lookup x.1 = some x.2 := by
  obtain ⟨before, after, rfl⟩ := List.append_of_mem hx
  refine List.lookup_eq_some_iff.2 ⟨before, after, rfl, fun y hy => ?_⟩
  rw [List.map_append, List.nodup_append] at hnodup
  exact bne_iff_ne.2 fun heq => hnodup.2.2 y.1 (List.mem_map_of_mem hy) x.1 (by simp) heq.symm

section

variable {l : Lexicon} {prune : Bool} {p : Program} {q : Procedure} {e : SingleExit}
  {b : PassiveImplementation} (hglobals : ∀ v ∈ p.globals, v.Within .versionless)
  (he : e.body.Within .versionless) (hmodifies : ∀ g ∈ q.modifies, g.Versionless)
  (huncritical : ∀ id, e.body.Uncritical id) (h : (passify l prune p q e).outcome = .ok b)

include hglobals he hmodifies huncritical h

/-- The blocks of a passive body are charted, and its steps are those of their traces. -/
theorem exists_charted : ∃ c T s, Layout c e.body b.order ∧ Charted e.body T b.order s ∧
    b.body = declareVersions s.body s.versions ∧ b.origins = s.versions.origins ∧
    ∀ id, bodySteps l prune p q e.body b id = stepsAt s.body (T id).own id := by
  obtain ⟨order, s, htopological, hblocks, hexit, rfl⟩ := passify_eq_ok.1 h
  -- There is an exit in the order, so that the entry exists.
  have hmem : e.exit ∈ order := mem_of_filter_isReturn_eq hexit
  have hi : Layout (settingOf l prune p q e.body order) e.body order :=
    ⟨Implementation.isTopologicalOrder htopological
      (Implementation.entry_lt_length htopological hmem),
      (Implementation.topologicalOrder_cases htopological).2.1, huncritical, he.cmds,
      over_frame hmodifies⟩
  let start : Advance := ⟨e.body, initialVersions p e.body, []⟩
  let traces := traceBlocks (settingOf l prune p q e.body order) order start
  let T : Nat → BlockTrace := fun id => (traces.lookup id).getD ⟨.empty, [], []⟩
  have hnodup : (traces.map (·.1)).Nodup :=
    hi.topological.nodup.sublist (map_fst_traceBlocks _ order start)
  have hT : ∀ x ∈ traces, T x.1 = x.2 := fun x hx =>
    congrArg (fun t : Option BlockTrace => t.getD _) (lookup_eq_some_of_mem hnodup hx)
  have hs := charted_passifyBlocks hi order rfl
    (Charted.start_nil (numbered_initialVersions hglobals he) rfl) hT hblocks
  refine ⟨_, T, s, hi, hs, rfl, rfl, fun id => ?_⟩
  have hown : ((traces.lookup id).map (·.own)).getD [] = (T id).own := by
    change _ = ((traces.lookup id).getD _).own
    cases traces.lookup id <;> rfl
  change stepsAt _ (((traces.lookup id).map (·.own)).getD []) id = _
  rw [hown, stepsAt, cmdsAt_declareVersions]
  rfl

/-- The passive form of a body without critical edges is in single-assignment form if names of
versions are neither declared nor read nor written. -/
theorem passify_singleAssignment : SingleAssignment b (bodySteps l prune p q e.body b) := by
  obtain ⟨c, T, s, hi, hs, hbody, horigins, hsteps⟩ :=
    exists_charted hglobals he hmodifies huncritical h
  have hpath : ∀ ids last, b.body.Path b.body.entry ids last →
      e.body.Path e.body.entry ids last := by
    intro ids last hp
    rw [hbody, entry_declareVersions, hs.entry] at hp
    refine hp.congr fun id => ?_
    rw [← Implementation.successors_of_outline_eq hs.outline]
    unfold Implementation.successors
    rw [blocks_declareVersions]
  have hsteps : bodySteps l prune p q e.body b = fun id => stepsAt s.body (T id).own id :=
    funext hsteps
  rw [hsteps]
  refine ⟨fun id hid => ?_, fun ids last hp => hs.nodup_defines hi (hpath ids last hp),
    fun ids last hp => ?_⟩
  · rw [hs.cmds_stepsAt hid, hbody, cmdsAt_declareVersions]
  · have hp := hpath ids last hp
    obtain ⟨m, hm⟩ := (hs.mem_iff last).1 (hi.topological.mem_of_path hp last hp.last_mem)
    refine (hs.definesFirst hi ids last m hp hm).1.mono fun n hn hmem => ?_
    -- A version with an origin has been made, and has the name of a version.
    rw [horigins] at hmem
    obtain ⟨v, hv, rfl⟩ := List.mem_map.1 (hs.versions.origins n hmem)
    obtain ⟨x, k, -, hname⟩ := hs.versions.made v hv
    exact hn x k hname

end

end Passive

/-! ## Bodies of a program -/

/-- The steps of the blocks of the passive form of a body. -/
def Implementation.passiveSteps (i : Implementation) (p : Program) (o : GenerationOptions)
    (l : Lexicon) (b : PassiveImplementation) (id : Nat) : List Passive.Step :=
  match (i.prepare p).outcome with
  | .ok (q, e) =>
    Passive.bodySteps ((i.prepare p).names.foldl Lexicon.mention l) o.prune p q e.body b id
  | .error _ => []

theorem Implementation.passiveSteps_eq {i : Implementation} {p : Program} {q : Procedure}
    {e : SingleExit} (h : (i.prepare p).outcome = .ok (q, e)) (o : GenerationOptions) (l : Lexicon)
    (b : PassiveImplementation) : i.passiveSteps p o l b =
      Passive.bodySteps ((i.prepare p).names.foldl Lexicon.mention l) o.prune p q e.body b := by
  funext id
  rw [passiveSteps, h]

/-- A body that is made ready for passification has no critical edges. -/
theorem Implementation.uncritical_prepare {i : Implementation} {p : Program} {q : Procedure}
    {e : SingleExit} (h : (i.prepare p).outcome = .ok (q, e)) : ∀ id, e.body.Uncritical id := by
  unfold prepare at h
  split at h
  · cases h
  · obtain ⟨-, -, h⟩ := Minting.bind_eq_ok.1 h
    obtain ⟨j, -, h⟩ := Minting.bind_eq_ok.1 h
    obtain ⟨s, -, h⟩ := Minting.bind_eq_ok.1 h
    obtain ⟨⟨k, exit⟩, -, h⟩ := Minting.bind_eq_ok.1 h
    obtain ⟨k', -, h⟩ := Minting.bind_eq_ok.1 h
    obtain ⟨⟨⟩, hcheck, h⟩ := Minting.bind_eq_ok.1 h
    obtain ⟨k'', hsplit, h⟩ := Minting.bind_eq_ok.1 h
    cases h
    obtain ⟨order, horder, -⟩ := exists_order hcheck
    exact uncritical_splitCriticalEdges horder hsplit

/-- The passive form of a body is in single-assignment form, with definitions before uses, if names
of versions are neither declared nor read nor written in the body, in its contract, in the contracts
of the procedures that it calls and in the declarations of globals. -/
theorem Implementation.passiveForm_singleAssignment {i : Implementation} {p : Program}
    {o : GenerationOptions} {b : PassiveImplementation} {l l' : Lexicon}
    (hglobals : ∀ v ∈ p.globals, v.Within .versionless) (hi : i.Within .versionless)
    (hown : ∀ q, p.procedure? i.name = some q → q.Within .versionless)
    (hcallees : p.CalleesWithin .versionless (i.blocks.flatMap fun b => Cmd.calleesAll b.cmds))
    (h : (i.passiveForm p o).run l = (.ok b, l')) :
    Passive.SingleAssignment b (i.passiveSteps p o l b) := by
  obtain ⟨⟨q, e⟩, l₁, hprepare, h⟩ := NamingExcept.bind_eq_ok.1 h
  rw [Minting.run_record] at hprepare
  obtain rfl : (i.prepare p).names.foldl Lexicon.mention l = l₁ := (Prod.ext_iff.1 hprepare).2
  have hprepare : (i.prepare p).outcome = .ok (q, e) := (Prod.ext_iff.1 hprepare).1
  obtain ⟨l₂, l₃, hget, h⟩ := NamingExcept.bind_eq_ok.1 h
  cases hget
  rw [Minting.run_record] at h
  obtain ⟨hq, he⟩ := within_prepare hi hown hcallees hprepare
  rw [passiveSteps_eq hprepare]
  exact Passive.passify_singleAssignment hglobals he hq.modifies (uncritical_prepare hprepare)
    (Prod.ext_iff.1 h).1

/-! ### Examples -/

/-- A body that may skip an assignment, so that a critical edge leads to its join. -/
def skippingBody : Implementation where
  name := ⟨"P"⟩
  inputs := []
  outputs := []
  locals := []
  attributes := []
  entry := 0
  blocks :=
    [⟨⟨"entry"⟩, [.havoc [⟨"g"⟩]], [], .goto [1, 2]⟩,
     ⟨⟨"step"⟩, [.assign [(⟨"g"⟩, .binary .add (.symbol ⟨"g"⟩) (.int 1))]], [0], .goto [2]⟩,
     ⟨⟨"join"⟩, [.assert ⟨.binary .ge (.symbol ⟨"g"⟩) (.int 0), .plain, none, none⟩], [0, 1],
       .ret⟩]

/-- The procedure of the body. -/
def skippingProcedure : Procedure := ⟨⟨"P"⟩, [], [], [], [], [⟨"g"⟩], []⟩

/-- A program with the body. -/
def skippingProgram : Program where
  globals := [⟨⟨"g"⟩, .int, some (.binary .ge (.symbol ⟨"g"⟩) (.int 0)), .global⟩]
  functions := []
  procedures := [skippingProcedure]
  implementations := [skippingBody]

/-- The body with an entry for preconditions. -/
def skippingGuarded : Implementation := { skippingBody with
  blocks :=
    [⟨⟨"entry"⟩, [.havoc [⟨"g"⟩]], [3], .goto [1, 2]⟩,
     ⟨⟨"step"⟩, [.assign [(⟨"g"⟩, .binary .add (.symbol ⟨"g"⟩) (.int 1))]], [0], .goto [2]⟩,
     ⟨⟨"join"⟩, [.assert ⟨.binary .ge (.symbol ⟨"g"⟩) (.int 0), .plain, none, none⟩], [0, 1],
       .ret⟩,
     ⟨⟨"PreconditionGeneratedEntry0"⟩, [], [], .goto [0]⟩]
  entry := 3 }

/-- The body made ready: the critical edge is split. -/
def skippingReadied : Implementation := { skippingBody with
  blocks :=
    [⟨⟨"entry"⟩, [.havoc [⟨"g"⟩]], [3], .goto [1, 4]⟩,
     ⟨⟨"step"⟩, [.assign [(⟨"g"⟩, .binary .add (.symbol ⟨"g"⟩) (.int 1))]], [0], .goto [2]⟩,
     ⟨⟨"join"⟩, [.assert ⟨.binary .ge (.symbol ⟨"g"⟩) (.int 0), .plain, none, none⟩], [1, 4],
       .ret⟩,
     ⟨⟨"PreconditionGeneratedEntry0"⟩, [], [], .goto [0]⟩,
     ⟨⟨"entry_@2_join"⟩, [], [0], .goto [2]⟩]
  entry := 3 }

theorem splitCriticalEdges_skippingGuarded :
    (skippingGuarded.splitCriticalEdges : Minting ConditionError _).outcome =
      .ok skippingReadied := by
  have hjoins : skippingGuarded.joins = [2] := by decide
  have hpreds : skippingGuarded.predecessorSet 2 = [0, 1] := by cbv
  rw [Implementation.splitCriticalEdges, hjoins]
  refine Minting.bind_eq_ok.2 ⟨skippingReadied, ?_, rfl⟩
  rw [Implementation.splitEdgesInto, hpreds]
  rfl

theorem prepare_skippingBody : (skippingBody.prepare skippingProgram).outcome =
    .ok (skippingProcedure, ⟨skippingReadied, 2, []⟩) := by
  have hcheck : skippingBody.check = .ok () := by cbv
  have hcheck' : skippingGuarded.check = .ok () := by cbv
  exact Implementation.prepare_eq_ok.2 ⟨rfl, hcheck, _, _, _, _, rfl, rfl, rfl, rfl,
    hcheck', splitCriticalEdges_skippingGuarded, rfl⟩

theorem exists_passify_skippingReadied : ∃ b, ∀ l, (Passive.passify l true skippingProgram
    skippingProcedure ⟨skippingReadied, 2, []⟩).outcome = .ok b :=
  ⟨_, fun l => by cbv⟩

theorem versionless_g : Name.Versionless ⟨"g"⟩ := Name.ne_incarnation (by decide)

theorem skippingProgram_within : skippingProgram.Within .versionless where
  globals := by
    refine List.forall_mem_singleton.2 ⟨versionless_g, fun w hw => ?_, fun x n h => by cases h⟩
    cases hw
    exact List.forall_mem_singleton.2 versionless_g
  procedures := by
    refine List.forall_mem_singleton.2 ⟨?_, ?_, ?_, ?_, List.forall_mem_singleton.2 versionless_g⟩ <;>
      exact fun _ h => by cases h
  implementations := by
    refine List.forall_mem_singleton.2 ⟨fun _ h => (by cases h), fun _ h => (by cases h),
      fun _ h => (by cases h), Implementation.forall_cmdsAt Cmd.withinAll_nil ?_⟩
    simp [skippingBody, Cmd.WithinAll, Cmd.Within, Vocabulary.versionless, Expr.names, Expr.readsAt,
      Expr.int, versionless_g]

theorem passiveForm_singleAssignment_skipping :
    ∃ b l, (skippingBody.passiveForm skippingProgram {}).run .initial = (.ok b, l) ∧
      Passive.SingleAssignment b (skippingBody.passiveSteps skippingProgram {} .initial b) := by
  obtain ⟨b, hb⟩ := exists_passify_skippingReadied
  obtain ⟨l, hl⟩ := Implementation.exists_passiveForm (o := {}) .initial prepare_skippingBody hb
  have hp := skippingProgram_within
  have hprocedure : ∀ n q, skippingProgram.procedure? n = some q → q.Within .versionless :=
    fun n q hq => hp.procedures q (List.mem_of_find?_eq_some hq)
  exact ⟨b, l, hl, Implementation.passiveForm_singleAssignment hp.globals
    (hp.implementations _ List.mem_cons_self) (hprocedure _) (fun n _ => hprocedure n) hl⟩

/-- A body that writes to a name that becomes that of a version. -/
def rewritingBody : Implementation where
  name := ⟨"P"⟩
  inputs := [⟨⟨"x"⟩, .int, none, .input⟩]
  outputs := []
  locals := [⟨⟨"y"⟩, .int, none, .local⟩]
  attributes := []
  entry := 0
  blocks :=
    [⟨⟨"entry"⟩,
      [.assign [(⟨"y"⟩, .binary .add (.symbol ⟨"x"⟩) (.int 1))],
       .assign [(⟨"y@0"⟩, .binary .add (.symbol ⟨"x"⟩) (.int 2))]],
      [], .ret⟩]

/-- The procedure of the body. -/
def rewritingProcedure : Procedure :=
  ⟨⟨"P"⟩, [⟨⟨"x"⟩, .int, none, .input⟩], [], [], [], [], []⟩

/-- A program with the body. -/
def rewritingProgram : Program where
  globals := []
  functions := []
  procedures := [rewritingProcedure]
  implementations := [rewritingBody]

/-- The body made ready. -/
def rewritingReadied : Implementation := { rewritingBody with
  blocks :=
    [⟨⟨"entry"⟩,
      [.assign [(⟨"y"⟩, .binary .add (.symbol ⟨"x"⟩) (.int 1))],
       .assign [(⟨"y@0"⟩, .binary .add (.symbol ⟨"x"⟩) (.int 2))]],
      [1], .ret⟩,
     ⟨⟨"PreconditionGeneratedEntry0"⟩, [], [], .goto [0]⟩]
  entry := 1 }

theorem prepare_rewritingBody : (rewritingBody.prepare rewritingProgram).outcome =
    .ok (rewritingProcedure, ⟨rewritingReadied, 0, []⟩) := by
  have hcheck : rewritingBody.check = .ok () := by cbv
  have hcheck' : rewritingReadied.check = .ok () := by cbv
  exact Implementation.prepare_eq_ok.2 ⟨rfl, hcheck, _, _, _, _, rfl, rfl, rfl, rfl,
    hcheck', rfl, rfl⟩

/-- The assignment to the name of a version is a second definition of the version. -/
theorem exists_passify_rewritingReadied : ∃ b, (∀ l, (Passive.passify l true rewritingProgram
    rewritingProcedure ⟨rewritingReadied, 0, []⟩).outcome = .ok b) ∧ b.body.entry = 1 ∧
    b.body.successors 1 = [0] ∧ ∀ l, ([1, 0].flatMap (Passive.bodySteps l true rewritingProgram
      rewritingProcedure rewritingReadied b)).flatMap Passive.Step.defines =
        [⟨"y@0"⟩, ⟨"y@0"⟩] :=
  ⟨_, fun l => by cbv, by cbv, by cbv, fun l => by cbv⟩

/-- A body that declares distinct names that are none of versions, and reads declared names only, may
still define a version twice along a path. -/
theorem passiveForm_not_singleAssignment_rewriting :
    let vs := Passive.outerVariables rewritingProgram rewritingBody ++
      Passive.scopeVariables rewritingBody
    (vs.map (·.name)).Nodup ∧ (∀ v ∈ vs, v.isIncarnation = false ∧ v.name.Versionless) ∧
      (∀ id, ∀ c ∈ rewritingBody.cmdsAt id, ∀ n ∈ Liveness.before .empty c [],
        n ∈ vs.map (·.name)) ∧
      ∃ b l, (rewritingBody.passiveForm rewritingProgram {}).run .initial = (.ok b, l) ∧
        ∃ ids last, b.body.Path b.body.entry ids last ∧
          ¬ ((ids.flatMap (rewritingBody.passiveSteps rewritingProgram {} .initial b)).flatMap
            Passive.Step.defines).Nodup := by
  refine ⟨by decide, ?_, ?_, ?_⟩
  · have hall : ∀ v ∈ Passive.outerVariables rewritingProgram rewritingBody ++
        Passive.scopeVariables rewritingBody,
        v.isIncarnation = false ∧ '@' ∉ v.name.text.toList := by decide
    exact fun v hv => ⟨(hall v hv).1, Name.ne_incarnation (hall v hv).2⟩
  · refine Implementation.forall_cmdsAt (P := fun cs => ∀ c ∈ cs, ∀ n ∈ Liveness.before .empty c [],
      n ∈ _) (fun c hc => absurd hc List.not_mem_nil) ?_
    decide
  · obtain ⟨b, hb, hentry, hsucc, hdefines⟩ := exists_passify_rewritingReadied
    obtain ⟨l, hl⟩ := Implementation.exists_passiveForm (o := {}) .initial prepare_rewritingBody hb
    -- The entry goes on to the exit, and along this path a version is defined again.
    refine ⟨b, l, hl, [1, 0], 0, ?_, ?_⟩
    · rw [hentry]
      exact .cons (hsucc ▸ List.mem_singleton_self 0) (.single 0)
    · rw [Implementation.passiveSteps_eq prepare_rewritingBody, hdefines]
      decide

end Obligations
