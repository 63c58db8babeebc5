import Mathlib
import Obligations.Condition.Generation
import Obligations.Proofs.Expr.Standard
import Obligations.Proofs.Outcome
import Obligations.Proofs.Passive.Body

/-!
# Passification preserves the failures of a body

An assertion of a body can fail along a path exactly if some valuation of the names of the passive
body makes the passive assertion false and all assumptions before it on the path true
(`Passive.passify_fails_iff`). The valuation gives the variables the values that they have on entry,
so that a failure from a state is a failure from the state in which it is found. It does not matter
whether dead variables get versions.
-/

namespace Obligations.Passive

/-- The variables in force outside of all scopes. -/
def outerVariables (p : Program) (i : Implementation) : List Variable :=
  p.globals ++ i.inputs ++ i.outputs ++ i.locals

/-- The locals of all scopes. -/
def scopeVariables (i : Implementation) : List Variable :=
  i.blocks.flatMap fun b => scopeLocalsAll b.cmds

/-- A body that is ready to be passified: all names are declared once and are no versions, names are
read and written where they are in force, and there are no calls and no critical edges. -/
structure Ready (p : Program) (q : Procedure) (i : Implementation) : Prop where
  /-- The names declared are distinct. -/
  nodup : ((outerVariables p i ++ scopeVariables i).map (·.name)).Nodup
  /-- They are not declared as versions. -/
  not_isIncarnation : ∀ v ∈ outerVariables p i ++ scopeVariables i, v.isIncarnation = false
  /-- They are not the names of versions of one another. -/
  ne_incarnation : ∀ v ∈ outerVariables p i ++ scopeVariables i,
    ∀ w ∈ outerVariables p i ++ scopeVariables i, ∀ n, v.name ≠ w.name.incarnation n
  /-- Names are read and written where they are in force. -/
  cmds : ∀ b ∈ i.blocks,
    Cmd.ScopedAll (declarations p i) ((outerVariables p i).map (·.name)) b.cmds
  /-- The names that denote their values on entry under `old` are not locals of scopes. -/
  modifies : ∀ g ∈ q.modifies, g ∉ (scopeVariables i).map (·.name)
  /-- There are no calls. -/
  callees : ∀ b ∈ i.blocks, Cmd.calleesAll b.cmds = []
  /-- An edge leads from a block with one successor or to a block with one predecessor. -/
  edges : ∀ a b, b ∈ i.successors a →
    (∀ next ∈ i.successors a, next = b) ∨ ∀ a', b ∈ i.successors a' → a' = a

/-- Of distinct names each has the one declaration for it. -/
theorem find?_declarations_of_nodup {p : Program} {i : Implementation}
    (hnodup : ((outerVariables p i ++ scopeVariables i).map (·.name)).Nodup) {v : Variable}
    (hv : v ∈ outerVariables p i ++ scopeVariables i) :
    (declarations p i).find? v.name = some v := by
  refine NameMap.find?_ofList_of_mem ?_ (List.mem_map_of_mem hv)
  rw [List.map_map]
  exact hnodup

namespace Ready

variable {p : Program} {q : Procedure} {i : Implementation}

/-- A declared name has the declaration that stands. -/
theorem find?_declarations (h : Ready p q i) {v : Variable}
    (hv : v ∈ outerVariables p i ++ scopeVariables i) :
    (declarations p i).find? v.name = some v :=
  find?_declarations_of_nodup h.nodup hv

/-- The scene of a body that is entered in a state. -/
def scene {I : Interpretation} (h : Ready p q i) (σ : I.State) : Scene I where
  declarations := Passive.declarations p i
  declared := (outerVariables p i ++ scopeVariables i).map (·.name)
  outer := (outerVariables p i).map (·.name)
  modified := q.modifies
  entry := σ
  find?_declared x hx := by
    obtain ⟨v, hv, rfl⟩ := List.mem_map.mp hx
    exact ⟨v, h.find?_declarations hv, h.not_isIncarnation v hv⟩
  ne_incarnation x hx y hy n := by
    obtain ⟨v, hv, rfl⟩ := List.mem_map.mp hx
    obtain ⟨w, hw, rfl⟩ := List.mem_map.mp hy
    exact h.ne_incarnation v hv w hw n
  declared_of_outer x hx := by
    rw [List.map_append]
    exact List.mem_append_left _ hx
  outer_of_modified x hx hdeclared := by
    rw [List.map_append] at hdeclared
    exact (List.mem_append.mp hdeclared).resolve_right (h.modifies x hx)

/-- The locals of the scopes of a block are among the locals of all scopes. -/
theorem mem_scopeVariables {b : Block} (hb : b ∈ i.blocks) {v : Variable}
    (hv : v ∈ scopeLocalsAll b.cmds) : v ∈ scopeVariables i :=
  List.mem_flatMap.mpr ⟨b, hb, hv⟩

/-- The names of the locals of scopes are distinct, within a block and across blocks. -/
theorem nodup_scopeVariables (h : Ready p q i) :
    (∀ b ∈ i.blocks, ((scopeLocalsAll b.cmds).map (·.name)).Nodup) ∧
      i.blocks.Pairwise fun b b' =>
        List.Disjoint ((scopeLocalsAll b.cmds).map (·.name))
          ((scopeLocalsAll b'.cmds).map (·.name)) := by
  have hnodup := h.nodup
  rw [List.map_append, List.nodup_append] at hnodup
  have hscopes := hnodup.2.1
  rw [scopeVariables, List.map_flatMap, List.nodup_flatMap] at hscopes
  exact hscopes

/-- A body that is ready can be passified in the scene of a state. -/
theorem hosts {I : Interpretation} (h : Ready p q i) {order : List Nat}
    (horder : i.topologicalOrder = .ok order) (htopological : i.IsTopologicalOrder order)
    (σ : I.State) {l : Lexicon} {prune : Bool} {live : Nat → List Name}
    (hlive : (settingOf l prune p q i order).Covers (Passive.declarations p i) i order
      ((outerVariables p i).map (·.name)) live) :
    (h.scene σ).Hosts (settingOf l prune p q i order) i order live where
  topological := htopological
  preds id b hb p :=
    Implementation.mem_preds_iff (Implementation.topologicalOrder_cases horder).2.1 hb
  edges a b edge := h.edges a b edge
  cmds := Implementation.forall_cmdsAt trivial h.cmds
  callees := Implementation.forall_cmdsAt (P := fun cs => Cmd.calleesAll cs = []) rfl h.callees
  fresh := by
    refine Implementation.forall_cmdsAt
      (P := fun cs => (h.scene σ).Fresh (h.scene σ).outer (scopeLocalsAll cs))
      ⟨List.nodup_nil, ?_, ?_, ?_⟩ fun b hb => ?_
    · exact fun v hv => by cases hv
    · exact fun v hv => by cases hv
    · exact fun v hv => by cases hv
    · -- No local of a scope is a variable in force outside of all scopes.
      have hmem : ∀ v ∈ scopeLocalsAll b.cmds, v ∈ outerVariables p i ++ scopeVariables i :=
        fun v hv => List.mem_append_right _ (mem_scopeVariables hb hv)
      refine ⟨h.nodup_scopeVariables.1 b hb, fun v hv hmem' => ?_,
        fun v hv => List.mem_map_of_mem (hmem v hv), fun v hv => h.find?_declarations (hmem v hv)⟩
      have hnodup := h.nodup
      rw [List.map_append, List.nodup_append] at hnodup
      exact hnodup.2.2 v.name hmem' v.name (List.mem_map_of_mem (mem_scopeVariables hb hv)) rfl
  disjoint id id' hne v hv v' hv' heq := by
    have hpairwise := List.pairwise_iff_getElem.1 h.nodup_scopeVariables.2
    have hblock : ∀ {id : Nat} {v : Variable}, v ∈ scopeLocalsAll (i.cmdsAt id) →
        ∃ hlt : id < i.blocks.length, v ∈ scopeLocalsAll (i.blocks[id]).cmds := by
      intro id v hv
      unfold Implementation.cmdsAt at hv
      by_cases hlt : id < i.blocks.length
      · rw [List.getElem?_eq_getElem hlt] at hv
        exact ⟨hlt, hv⟩
      · rw [List.getElem?_eq_none (by omega)] at hv
        cases hv
    -- Locals of different blocks have different names, whichever of the blocks comes first.
    obtain ⟨hlt, hv⟩ := hblock hv
    obtain ⟨hlt', hv'⟩ := hblock hv'
    rcases Nat.lt_or_gt_of_ne hne with hlt₁ | hlt₁
    · exact hpairwise id id' hlt hlt' hlt₁ (List.mem_map_of_mem hv)
        (heq ▸ List.mem_map_of_mem hv')
    · exact hpairwise id' id hlt' hlt hlt₁ (List.mem_map_of_mem hv')
        (heq ▸ List.mem_map_of_mem hv)
  frame := rfl
  live := hlive

end Ready

/-- A well-formed body with one exit that is ready is passified. In every scene all paths are then
simulated by their passive commands. -/
theorem passify_simulates (l : Lexicon) (prune : Bool) {p : Program} {q : Procedure}
    {e : SingleExit} (hcheck : e.body.check = .ok ()) (hexit : e.body.returning = [e.exit])
    (h : Ready p q e.body) {I : Interpretation} (σ : I.State) :
    ∃ b, (passify l prune p q e).outcome = .ok b ∧
      ∀ ids last, e.body.Path e.body.entry ids last → ∃ U R,
        Simulates (h.scene σ) (· ∈ (h.scene σ).outer)
          ((h.scene σ).Represents .empty (· ∈ (h.scene σ).outer)) (e.body.cmdsAlong ids)
          (b.body.cmdsAlong ids) U R := by
  obtain ⟨order, htopological, -⟩ := Implementation.exists_order hcheck
  have ho := Implementation.isTopologicalOrder_of_returning htopological hexit
  obtain ⟨live, hlive⟩ := exists_covers (d := declarations p e.body) ho l (h.scene σ).frame prune
    ((outerVariables p e.body).map (·.name))
  change (settingOf l prune p q e.body order).Covers _ _ _ _ _ at hlive
  -- At the start there are no versions, and all blocks of the order are still to be passified.
  have htracks : (h.scene σ).Tracks (initialVersions p e.body) :=
    ⟨fun _ _ => rfl, fun _ _ hn => by cases hn⟩
  obtain ⟨s, hblocks, hs⟩ := passifyBlocks_reached (h.hosts htopological ho σ hlive) order rfl
    (Scene.Reached.start htracks)
  -- The blocks that return are those of the body.
  have hreturn : ∀ id ∈ order, (s.body.blocks[id]?.map (·.transfer.isReturn)).getD false =
      (e.body.blocks[id]?.map (·.transfer.isReturn)).getD false := by
    intro id hid
    obtain ⟨b, hb⟩ := ho.exists_block hid
    rw [Implementation.getElem?_of_outline_eq hs.outline hb, hb]
    rfl
  refine ⟨_, passify_eq_ok.2 ⟨order, s, htopological, hblocks, ?_, rfl⟩, fun ids last hp => ?_⟩
  · rw [List.filter_congr hreturn]
    exact Implementation.filter_isReturn_eq htopological hexit
  · obtain ⟨m, hm⟩ := (hs.mem_iff last).1 (ho.mem_of_path hp last hp.last_mem)
    rw [Implementation.cmdsAlong_congr fun id _ => cmdsAt_declareVersions s.body s.versions id]
    exact ⟨_, _, hs.simulates ids last m hp hm⟩

/-- What simulates commands from the start has their failures: a run from a state fails at an
assertion exactly if a valuation that gives the variables their values in the state falsifies it. -/
theorem Ready.failsAll_iff {p : Program} {q : Procedure} {i : Implementation} (h : Ready p q i)
    {I : Interpretation} {σ : I.State} {ms ds : List Cmd} {U : Name → Prop}
    {R : I.State → I.State → Prop} (hsim : Simulates (h.scene σ) (· ∈ (h.scene σ).outer)
      ((h.scene σ).Represents .empty (· ∈ (h.scene σ).outer)) ms ds U R) (n : Nat) :
    Cmd.FailsAll ⟨declarations p i, q.modifies, σ⟩ ms n σ ↔
      ∃ ν : I.State, (∀ v ∈ outerVariables p i, ν v.name = σ v.name) ∧ Falsifies ν ds n := by
  have hfits : (h.scene σ).Fits ⟨declarations p i, q.modifies, σ⟩ := ⟨fun _ => rfl, rfl, rfl⟩
  -- At the start a valuation represents the state if it gives the variables their values.
  have hrepresents : ∀ ν : I.State, (∀ v ∈ outerVariables p i, ν v.name = σ v.name) →
      (h.scene σ).Represents .empty (· ∈ (h.scene σ).outer) ν σ := by
    intro ν hν
    have hν : ∀ x ∈ (outerVariables p i).map (·.name), ν x = σ x := by
      intro x hx
      obtain ⟨v, hv, rfl⟩ := List.mem_map.mp hx
      exact hν v hv
    exact ⟨fun x _ hx => hν x hx, fun x hx => congrArg some (hν x hx)⟩
  constructor
  · intro hfail
    obtain ⟨ν, hν, hfalse⟩ := hsim.fail _ hfits σ σ n (hrepresents σ fun _ _ => rfl) hfail
    exact ⟨ν, fun v hv => hν v.name (List.mem_map_of_mem hv), hfalse⟩
  · rintro ⟨ν, hν, hfalse⟩
    exact hsim.failBack _ hfits ν σ n (hrepresents ν hν) hfalse

/-- A well-formed body with one exit that is ready is passified, and its passive body has the same
failures: along a path from the entry, a run that starts in a state can come to an assertion with
the condition false exactly if a valuation that gives the variables their values in the state makes
all passive assumptions before the assertion true and its passive condition false. -/
theorem passify_fails_iff (l : Lexicon) (prune : Bool) {p : Program} {q : Procedure}
    {e : SingleExit} (hcheck : e.body.check = .ok ()) (hexit : e.body.returning = [e.exit])
    (h : Ready p q e.body) :
    ∃ b, (passify l prune p q e).outcome = .ok b ∧
      ∀ (I : Interpretation) (ids : List Nat) (last : Nat),
        e.body.Path e.body.entry ids last → ∀ (σ : I.State) (n : Nat),
          (Cmd.FailsAll ⟨declarations p e.body, q.modifies, σ⟩ (e.body.cmdsAlong ids) n σ ↔
            ∃ ν : I.State, (∀ v ∈ outerVariables p e.body, ν v.name = σ v.name) ∧
              Falsifies ν (b.body.cmdsAlong ids) n) := by
  -- What becomes of the body does not depend on the meaning of the operators.
  obtain ⟨b, hout, -⟩ := passify_simulates l prune hcheck hexit h
    (I := Interpretation.standard fun _ _ => none) fun _ => .value (.bool true)
  refine ⟨b, hout, fun I ids last hp σ n => ?_⟩
  obtain ⟨b', hout', hsim⟩ := passify_simulates l prune hcheck hexit h σ
  rw [hout] at hout'
  cases hout'
  obtain ⟨U, R, hsim⟩ := hsim ids last hp
  exact h.failsAll_iff hsim n

/-- A program with a global `g`. -/
def steppingProgram : Program where
  globals := [⟨⟨"g"⟩, .int, none, .global⟩]
  functions := []
  procedures := []
  implementations := []

/-- A procedure that declares nothing but what it may change. -/
def changing (modifies : List Name) : Procedure where
  name := ⟨"P"⟩
  inputs := []
  outputs := []
  requires := []
  ensures := []
  modifies
  attributes := []

/-- A body that adds to `g`, in one branch, one and, in the other, the value of a local that is not
negative. In the end it claims that `g` is at least its value on entry. -/
def steppingBody : Implementation where
  name := ⟨"P"⟩
  inputs := []
  outputs := []
  locals := []
  attributes := []
  entry := 0
  blocks :=
    [⟨⟨"entry"⟩, [.comment "Branches."], [], .goto [1, 2]⟩,
     ⟨⟨"left"⟩, [.assign [(⟨"g"⟩, .binary .add (.symbol ⟨"g"⟩) (.int 1))]], [0], .goto [3]⟩,
     ⟨⟨"right"⟩,
       [.scope [⟨⟨"t"⟩, .int, some (.binary .ge (.symbol ⟨"t"⟩) (.int 0)), .local⟩]
         [.havoc [⟨"t"⟩],
          .assign [(⟨"g"⟩, .binary .add (.symbol ⟨"g"⟩) (.symbol ⟨"t"⟩))]]],
       [0], .goto [3]⟩,
     ⟨⟨"join"⟩,
       [.assert ⟨.binary .ge (.symbol ⟨"g"⟩) (.old (.symbol ⟨"g"⟩)), .plain, none, none⟩],
       [1, 2], .ret⟩]

theorem steppingBody_ready : Ready steppingProgram (changing [⟨"g"⟩]) steppingBody where
  nodup := by decide
  not_isIncarnation := by
    have hall : ∀ v ∈ outerVariables steppingProgram steppingBody ++ scopeVariables steppingBody,
        v.isIncarnation = false := by decide
    exact hall
  ne_incarnation v hv w _ n := by
    have hall : ∀ v ∈ outerVariables steppingProgram steppingBody ++ scopeVariables steppingBody,
        '@' ∉ v.name.text.toList := by decide
    exact Name.ne_incarnation (hall v hv) _ n
  cmds := by decide
  modifies := by decide
  callees := by decide
  edges a b edge := by
    have hall : ∀ a < 4, ∀ b ∈ steppingBody.successors a,
        (∀ next ∈ steppingBody.successors a, next = b) ∨
          ∀ a' < 4, b ∈ steppingBody.successors a' → a' = a := by decide
    have ha : a < 4 := Implementation.lt_length_of_edge edge
    refine (hall a ha b edge).imp_right fun honly a' edge' => ?_
    exact honly a' (Implementation.lt_length_of_edge edge') edge'

theorem passify_fails_iff_stepping :
    steppingBody.check = .ok () ∧ steppingBody.returning = [3] ∧
      Ready steppingProgram (changing [⟨"g"⟩]) steppingBody ∧
      ∃ b, (passify .initial true steppingProgram (changing [⟨"g"⟩])
          ⟨steppingBody, 3, []⟩).outcome = .ok b ∧
        ∀ (I : Interpretation) (ids : List Nat) (last : Nat),
          steppingBody.Path steppingBody.entry ids last → ∀ (σ : I.State) (n : Nat),
            (Cmd.FailsAll ⟨declarations steppingProgram steppingBody, [⟨"g"⟩], σ⟩
                (steppingBody.cmdsAlong ids) n σ ↔
              ∃ ν : I.State, (∀ v ∈ outerVariables steppingProgram steppingBody,
                ν v.name = σ v.name) ∧ Falsifies ν (b.body.cmdsAlong ids) n) :=
  ⟨by cbv, by decide, steppingBody_ready,
    passify_fails_iff .initial true (e := ⟨steppingBody, 3, []⟩) (by cbv) (by decide)
      steppingBody_ready⟩

/-- A body that assigns to the local of a scope before the scope, and reads a local under `old`. -/
def leakingBody : Implementation where
  name := ⟨"P"⟩
  inputs := []
  outputs := []
  locals := [⟨⟨"y"⟩, .int, none, .local⟩]
  attributes := []
  entry := 0
  blocks :=
    [⟨⟨"entry"⟩,
      [.assign [(⟨"l"⟩, .int 5), (⟨"y"⟩, .int 5)],
       .scope [⟨⟨"l"⟩, .int, none, .local⟩]
         [.assert ⟨.binary .eq (.symbol ⟨"l"⟩) (.int 5), .plain, none, none⟩],
       .assert ⟨.binary .eq (.old (.symbol ⟨"y"⟩)) (.int 5), .plain, none, none⟩],
      [], .ret⟩]

/-- It is not enough that all names are declared somewhere. The assignment before the scope hides
that the local starts with an arbitrary value, so that a failure is lost; and a local that is listed
among what may be changed denotes its value on entry under `old`, so that there is a failure that no
run has in which it denotes its current value. -/
theorem passify_fails_iff_leaking :
    leakingBody.check = .ok () ∧ leakingBody.returning = [0] ∧
      ((outerVariables .empty leakingBody ++ scopeVariables leakingBody).map (·.name)).Nodup ∧
      (∀ b ∈ leakingBody.blocks, Cmd.calleesAll b.cmds = [] ∧
        Cmd.ScopedAll (declarations .empty leakingBody)
          ((outerVariables .empty leakingBody ++ scopeVariables leakingBody).map (·.name)) b.cmds) ∧
      ∃ b, (passify .initial false .empty (changing [⟨"y"⟩]) ⟨leakingBody, 0, []⟩).outcome = .ok b ∧
        ((∃ σ : (Interpretation.standard fun _ _ => none).State,
            Cmd.FailsAll ⟨declarations .empty leakingBody, [], σ⟩ (leakingBody.cmdsAlong [0]) 0 σ) ∧
          ∀ ν : (Interpretation.standard fun _ _ => none).State,
            ¬ Falsifies ν (b.body.cmdsAlong [0]) 0) ∧
        (∀ σ : (Interpretation.standard fun _ _ => none).State,
          ¬ Cmd.FailsAll ⟨declarations .empty leakingBody, [], σ⟩ (leakingBody.cmdsAlong [0]) 1 σ) ∧
          ∃ ν : (Interpretation.standard fun _ _ => none).State,
            Falsifies ν (b.body.cmdsAlong [0]) 1 := by
  let map : NameMap Expr := (NameMap.empty.insert ⟨"l"⟩ (.int 5)).insert ⟨"y"⟩ (.int 5)
  let first : Assertion := ⟨.binary .eq (.int 5) (.int 5), .plain,
    some (.binary .eq (.symbol ⟨"l"⟩) (.int 5)), some map⟩
  let second : Assertion := ⟨.binary .eq (.symbol ⟨"y"⟩) (.int 5), .plain,
    some (.binary .eq (.old (.symbol ⟨"y"⟩)) (.int 5)), some (map.erase ⟨"l"⟩)⟩
  -- Without pruning the passive body is two assertions, with the maps that they keep.
  have hout : ((passify .initial false .empty (changing [⟨"y"⟩]) ⟨leakingBody, 0, []⟩).outcome.map
      fun b => b.body.cmdsAlong [0]) = .ok [.assert first, .assert second] := by
    cbv
  obtain ⟨b, hb, hcmds⟩ : ∃ b, (passify .initial false .empty (changing [⟨"y"⟩])
      ⟨leakingBody, 0, []⟩).outcome = .ok b ∧
        b.body.cmdsAlong [0] = [.assert first, .assert second] := by
    cases hb : (passify .initial false .empty (changing [⟨"y"⟩]) ⟨leakingBody, 0, []⟩).outcome with
    | error => rw [hb] at hout; cases hout
    | ok b => rw [hb] at hout; exact ⟨b, rfl, Except.ok.inj hout⟩
  refine ⟨by cbv, by decide, by decide, by decide, b, hb, ⟨⟨fun _ => .value (.int 4), ?_⟩, ?_⟩, ?_,
    fun _ => .value (.int 4), ?_⟩
  · -- The local starts with another value than the one assigned before the scope.
    let σ : (Interpretation.standard fun _ _ => none).State :=
      Function.update (Function.update (fun _ => .value (.int 4)) ⟨"l"⟩ (.value (.int 5))) ⟨"y"⟩
        (.value (.int 5))
    refine .inr ⟨0, σ, rfl, ⟨_, rfl, _, rfl, rfl⟩, .inl ⟨Function.update σ ⟨"l"⟩ (.value (.int 4)),
      ⟨fun x hx => ?_, ?_⟩, .inl ⟨rfl, rfl⟩⟩⟩
    · rw [List.map_singleton, List.mem_singleton] at hx
      exact Function.update_of_ne hx _ _
    · intro v hv w hw
      cases List.mem_singleton.mp hv
      cases hw
  · rw [hcmds]
    rintro ν ⟨before, a, after, hsplit, hn, -, hfalse⟩
    cases before with
    | nil =>
      cases hsplit
      cases hfalse
    | cons d before =>
      obtain ⟨rfl, -⟩ := List.cons.inj hsplit
      simp [Cmd.assertionsAll, Cmd.assertions] at hn
  · -- After the assignment the current value is the one that the assertion asks for.
    rintro σ (hfail | ⟨k, σ₁, hk, hassign, hfail | ⟨k', σ₂, -, hscope, hfail |
      ⟨_, _, _, _, hfail⟩⟩⟩)
    · exact hfail
    · obtain ⟨σ', -, ⟨rfl, -⟩ | ⟨_, _, _, _, hfail⟩⟩ := hfail
      · cases hk
      · exact hfail
    · obtain ⟨_, -, a, ha, rfl⟩ := hassign
      obtain ⟨σ', τ, ⟨hσ', -⟩, ⟨_, rfl, rfl⟩, rfl⟩ := hscope
      have hy : τ ⟨"y"⟩ = a := (hσ' ⟨"y"⟩ (by decide)).trans (Function.update_self _ _ _)
      have ha : some (Datum.value (.int 5)) = some a := ha
      have hfalse : Interpretation.standardBinary .eq (τ ⟨"y"⟩) (some (.value (.int 5))) =
          some (.value (.bool false)) := hfail.2
      rw [hy, ← Option.some.inj ha] at hfalse
      cases hfalse
    · exact hfail
  · rw [hcmds]
    exact ⟨[.assert first], second, [], rfl, rfl, fun e he => by simp at he, rfl⟩

end Obligations.Passive

namespace Obligations

/-- A body that can be made ready and then be passified has a passive form. -/
theorem Implementation.exists_passiveForm {i : Implementation} {p : Program}
    {o : GenerationOptions} {q : Procedure} {e : SingleExit} {b : PassiveImplementation}
    (l : Lexicon) (hprepare : (i.prepare p).outcome = .ok (q, e))
    (hpassify : ∀ l, (Passive.passify l o.prune p q e).outcome = .ok b) :
    ∃ l', (i.passiveForm p o).run l = (.ok b, l') :=
  ⟨_, NamingExcept.bind_eq_ok.2 ⟨(q, e), _, Minting.run_record_eq_ok hprepare l,
    NamingExcept.bind_eq_ok.2 ⟨_, _, rfl, Minting.run_record_eq_ok (hpassify _) _⟩⟩⟩

/-- A body that has a passive form was made ready, and was passified with the names made up for that
in the lexicon. -/
theorem Implementation.passiveForm_cases {i : Implementation} {p : Program}
    {o : GenerationOptions} {b : PassiveImplementation} {l l' : Lexicon}
    (h : (i.passiveForm p o).run l = (.ok b, l')) :
    ∃ q e, (i.prepare p).outcome = .ok (q, e) ∧ (Passive.passify
      ((i.prepare p).names.foldl Lexicon.mention l) o.prune p q e).outcome = .ok b := by
  obtain ⟨⟨q, e⟩, l₁, hprepare, h⟩ := NamingExcept.bind_eq_ok.1 h
  rw [Minting.run_record] at hprepare
  obtain rfl : (i.prepare p).names.foldl Lexicon.mention l = l₁ := (Prod.ext_iff.1 hprepare).2
  obtain ⟨l₂, l₃, hget, h⟩ := NamingExcept.bind_eq_ok.1 h
  cases hget
  rw [Minting.run_record] at h
  exact ⟨q, e, (Prod.ext_iff.1 hprepare).1, (Prod.ext_iff.1 h).1⟩

end Obligations
