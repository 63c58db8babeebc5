import Obligations.Proofs.Cmd.Renaming
import Obligations.Proofs.Implementation.Normal
import Obligations.Proofs.Passive.Pruning

/-!
# Scopes are lexical where names are declared once

The locals of scopes can be renamed in a body without a change of the verdict
(`Passive.unfalsified_rename_iff`): runs and failures follow a renaming, and the passive body has the
failures of the body that it comes from. This takes names that are declared once. The locals of two
scopes that have one name share it in the passive body, so that what one scope assumes about its
local is assumed about the local of the other (`Passive.renaming_changes_verdict`).
-/

namespace Obligations

/-- The body with the variables of its commands renamed, the locals of scopes among them. -/
def Implementation.rename (f : Name → Name) (i : Implementation) : Implementation :=
  { i with blocks := i.blocks.map fun b => { b with cmds := Cmd.renameAll f b.cmds } }

namespace Implementation

variable (f : Name → Name) (i : Implementation)

theorem outline_rename : (i.rename f).outline = i.outline := by
  unfold rename outline
  rw [List.map_map]
  rfl

@[simp] theorem cmdsAt_rename (id : Nat) : (i.rename f).cmdsAt id = Cmd.renameAll f (i.cmdsAt id) := by
  unfold cmdsAt rename
  rw [List.getElem?_map]
  cases i.blocks[id]? <;> rfl

theorem cmdsAlong_rename (ids : List Nat) :
    (i.rename f).cmdsAlong ids = Cmd.renameAll f (i.cmdsAlong ids) := by
  induction ids with
  | nil => rfl
  | cons id ids ih =>
    rw [cmdsAlong_cons, cmdsAlong_cons, ih, cmdsAt_rename]
    simp only [Cmd.renameAll_eq_map, List.map_append]

variable {f i}

theorem path_rename_iff {a b : Nat} {ids : List Nat} : (i.rename f).Path a ids b ↔ i.Path a ids b := by
  have hsuccessors := successors_of_outline_eq (outline_rename f i)
  constructor <;>
  · intro h
    induction h with
    | single id => exact .single id
    | cons edge _ ih => exact .cons (by simpa [hsuccessors] using edge) ih

theorem check_rename (h : i.check = .ok ()) : (i.rename f).check = .ok () := by
  unfold check order at h ⊢
  cases horder : i.topologicalOrder with
  | error e =>
    rw [horder] at h
    cases h
  | ok order =>
    rw [topologicalOrder_of_outline_eq (outline_rename f i) rfl horder]
    rfl

end Implementation

namespace Passive

mutual

/-- Renamed commands declare the locals that the commands declare, renamed. -/
theorem scopeLocals_rename (f : Name → Name) :
    ∀ d : Cmd, scopeLocals (d.rename f) = (scopeLocals d).map (·.rename f)
  | .assert _ => rfl
  | .assume _ => rfl
  | .assign _ => rfl
  | .havoc _ => rfl
  | .call _ _ _ => rfl
  | .comment _ => rfl
  | .scope locals cmds => by
    rw [Cmd.rename, scopeLocals, scopeLocals, List.map_append, scopeLocalsAll_rename f cmds]

/-- The same for several commands. -/
theorem scopeLocalsAll_rename (f : Name → Name) :
    ∀ ds : List Cmd, scopeLocalsAll (Cmd.renameAll f ds) = (scopeLocalsAll ds).map (·.rename f)
  | [] => rfl
  | d :: ds => by
    rw [Cmd.renameAll, scopeLocalsAll, scopeLocalsAll, List.map_append, scopeLocals_rename f d,
      scopeLocalsAll_rename f ds]

end

variable {p : Program} {q : Procedure} {e : SingleExit} {π : Equiv.Perm Name}

/-- The variables of a renamed body are those of the body, renamed. -/
theorem scopeVariables_rename (f : Name → Name) (i : Implementation) :
    scopeVariables (i.rename f) = (scopeVariables i).map (·.rename f) := by
  unfold scopeVariables Implementation.rename
  rw [List.flatMap_map, List.map_flatMap]
  simp only [scopeLocalsAll_rename]

/-- A renaming that leaves the variables in force outside of all scopes alone takes the context of a
body to that of the renamed body. -/
theorem renames_context {I : Interpretation} (σ : I.State) {i : Implementation}
    (hfix : ∀ v ∈ outerVariables p i, v.rename π = v) (hmodifies : ∀ g ∈ q.modifies, π g = g) :
    Context.Renames π ⟨declarations p i, q.modifies, σ⟩
      ⟨declarations p (i.rename π), q.modifies, σ.rename π⟩ where
  whereClause x := by
    -- The variables outside of scopes keep their names and their conditions, and the locals of
    -- scopes are renamed.
    have houter : (outerVariables p i).map (·.rename π) = outerVariables p i :=
      (List.map_congr_left hfix).trans (List.map_id' _)
    have hdeclarations : (declarations p (i.rename π)).find? (π x) =
        ((declarations p i).find? x).map (Variable.rename π) := by
      have hrenamed : declarations p (i.rename π) =
          .ofList (((outerVariables p i ++ scopeVariables i).map (·.rename π)).map
            fun v => (v.name, v)) := by
        rw [List.map_append, houter, ← scopeVariables_rename]
        rfl
      rw [hrenamed, find?_ofList_rename]
      rfl
    unfold Context.whereClause?
    rw [hdeclarations]
    cases (declarations p i).find? x <;> rfl
  modified x := by
    constructor
    · intro hx
      rwa [π.injective (hmodifies _ hx)] at hx
    · intro hx
      rwa [hmodifies x hx]
  entry := rfl

/-- Renaming the locals of scopes does not change the verdict on a body in which names are declared
once and used where they are in force: no valuation falsifies the passive body exactly if none
falsifies the passive body of the renamed body. -/
theorem unfalsified_rename_iff (l : Lexicon) (prune : Bool) (π : Equiv.Perm Name)
    (hcheck : e.body.check = .ok ()) (hexit : e.body.returning = [e.exit])
    (h : Ready p q e.body) (h' : Ready p q (e.body.rename π))
    (hfix : ∀ v ∈ outerVariables p e.body, v.rename π = v) (hmodifies : ∀ g ∈ q.modifies, π g = g) :
    ∃ b b', (passify l prune p q e).outcome = .ok b ∧
      (passify l prune p q { e with body := e.body.rename π }).outcome = .ok b' ∧
      ∀ I, Unfalsified I e.body b ↔ Unfalsified I (e.body.rename π) b' := by
  have hexit' : (e.body.rename π).returning = [e.exit] :=
    (Implementation.returning_of_outline_eq (Implementation.outline_rename π e.body)).trans hexit
  obtain ⟨b, hb, hiff⟩ := unfalsified_iff_not_fails l prune hcheck hexit h
  obtain ⟨b', hb', hiff'⟩ := unfalsified_iff_not_fails l prune
    (e := { e with body := e.body.rename π }) (Implementation.check_rename hcheck) hexit' h'
  refine ⟨b, b', hb, hb', fun I => ?_⟩
  rw [hiff, hiff']
  refine forall_congr' fun ids => forall_congr' fun last => ?_
  refine imp_congr (Implementation.path_rename_iff).symm ?_
  rw [Implementation.cmdsAlong_rename]
  -- Every state is the renamed form of one.
  have hfails : (∃ (σ : I.State) (n : Nat),
      Cmd.FailsAll ⟨declarations p e.body, q.modifies, σ⟩ (e.body.cmdsAlong ids) n σ) ↔
      ∃ (σ : I.State) (n : Nat), Cmd.FailsAll ⟨declarations p (e.body.rename π), q.modifies, σ⟩
        (Cmd.renameAll π (e.body.cmdsAlong ids)) n σ := by
    refine Iff.trans ?_ (Interpretation.State.exists_rename π).symm
    exact exists_congr fun σ => exists_congr fun n =>
      (Cmd.failsAll_rename_iff _ (renames_context σ hfix hmodifies)).symm
  simpa only [not_exists] using not_congr hfails

/-- The renaming that exchanges `t` and `u`. -/
def exchange : Equiv.Perm Name := Equiv.swap ⟨"t"⟩ ⟨"u"⟩

theorem steppingBody_rename_ready :
    Ready steppingProgram (changing [⟨"g"⟩]) (steppingBody.rename exchange) where
  nodup := by decide
  not_isIncarnation := by
    have hall : ∀ v ∈ outerVariables steppingProgram (steppingBody.rename exchange) ++
        scopeVariables (steppingBody.rename exchange), v.isIncarnation = false := by decide
    exact hall
  ne_incarnation v hv w _ n := by
    have hall : ∀ v ∈ outerVariables steppingProgram (steppingBody.rename exchange) ++
        scopeVariables (steppingBody.rename exchange), '@' ∉ v.name.text.toList := by decide
    exact Name.ne_incarnation (hall v hv) _ n
  cmds := by decide
  modifies := by decide
  callees := by decide
  edges a b edge := by
    have hsuccessors := Implementation.successors_of_outline_eq
      (Implementation.outline_rename exchange steppingBody)
    simp only [hsuccessors] at edge ⊢
    exact steppingBody_ready.edges a b edge

theorem unfalsified_rename_iff_stepping :
    steppingBody.check = .ok () ∧ steppingBody.returning = [3] ∧
      Ready steppingProgram (changing [⟨"g"⟩]) steppingBody ∧
      Ready steppingProgram (changing [⟨"g"⟩]) (steppingBody.rename exchange) ∧
      (∀ v ∈ outerVariables steppingProgram steppingBody, v.rename exchange = v) ∧
      (∀ g ∈ (changing [⟨"g"⟩]).modifies, exchange g = g) ∧
      ∃ b b',
        (passify .initial true steppingProgram (changing [⟨"g"⟩]) ⟨steppingBody, 3, []⟩).outcome =
          .ok b ∧
        (passify .initial true steppingProgram (changing [⟨"g"⟩])
          ⟨steppingBody.rename exchange, 3, []⟩).outcome = .ok b' ∧
        ∀ I, Unfalsified I steppingBody b ↔ Unfalsified I (steppingBody.rename exchange) b' := by
  have hcheck : steppingBody.check = .ok () := by cbv
  have hexit : steppingBody.returning = [3] := by decide
  -- The one variable outside of scopes is the global, which is not exchanged.
  have hfix : ∀ v ∈ outerVariables steppingProgram steppingBody, v.rename exchange = v := by
    intro v hv
    cases List.mem_singleton.1 hv
    rfl
  have hmodifies : ∀ g ∈ (changing [⟨"g"⟩]).modifies, exchange g = g := by decide
  exact ⟨hcheck, hexit, steppingBody_ready, steppingBody_rename_ready, hfix, hmodifies,
    unfalsified_rename_iff .initial true exchange (e := ⟨steppingBody, 3, []⟩) hcheck hexit
      steppingBody_ready steppingBody_rename_ready hfix hmodifies⟩

/-- A scope whose local is claimed to be one. -/
def claimingScope (x : Name) : Cmd :=
  .scope [⟨x, .int, none, .local⟩]
    [.assert ⟨.binary .eq (.symbol x) (.int 1), .plain, none, none⟩]

/-- A body with a scope whose local `t` is assumed to be one, and another one whose local is claimed
to be one. -/
def siblingBody (x : Name) : Implementation where
  name := ⟨"P"⟩
  inputs := []
  outputs := []
  locals := []
  attributes := []
  entry := 0
  blocks :=
    [⟨⟨"entry"⟩,
      [.scope [⟨⟨"t"⟩, .int, none, .local⟩] [.assume (.binary .eq (.symbol ⟨"t"⟩) (.int 1))],
       claimingScope x],
      [], .ret⟩]

/-- A program with a body and a procedure without a contract. -/
def siblingProgram (x : Name) : Program where
  globals := []
  functions := []
  procedures := [changing []]
  implementations := [siblingBody x]

/-- The body made ready. -/
def siblingReadied (x : Name) : Implementation := { siblingBody x with
  blocks := ((siblingBody x).blocks.map fun b => { b with preds := [1] }) ++
    [⟨⟨"PreconditionGeneratedEntry0"⟩, [], [], .goto [0]⟩]
  entry := 1 }

theorem prepare_siblingBody (x : Name) : ((siblingBody x).prepare (siblingProgram x)).outcome =
    .ok (changing [], ⟨siblingReadied x, 0, []⟩) := by
  have hcheck : (siblingBody x).check = .ok () := by cbv
  have hcheck' : (siblingReadied x).check = .ok () := by cbv
  have hsplit : ((siblingReadied x).splitCriticalEdges : Minting ConditionError _).outcome =
      .ok (siblingReadied x) := by cbv
  exact Implementation.prepare_eq_ok.2 ⟨rfl, hcheck, _, _, _, _, rfl, rfl, rfl, rfl,
    hcheck', hsplit, rfl⟩

/-- Exchanging `t`, the local of a scope, for `u`, which occurs nowhere, changes the verdict if
another scope has a local `t`. With the two scopes sharing `t` in the passive body, what the first
assumes about its local proves what the second claims about its own. -/
theorem renaming_changes_verdict :
    (claimingScope ⟨"t"⟩).rename exchange = claimingScope ⟨"u"⟩ ∧
      (∀ x, ((siblingBody x).prepare (siblingProgram x)).outcome =
        .ok (changing [], ⟨siblingReadied x, 0, []⟩)) ∧
      ∃ f g,
        (∀ l prune, inlineFormula l prune (siblingProgram ⟨"t"⟩) (changing [])
          ⟨siblingReadied ⟨"t"⟩, 0, []⟩ = .ok f) ∧
        (∀ l prune, inlineFormula l prune (siblingProgram ⟨"u"⟩) (changing [])
          ⟨siblingReadied ⟨"u"⟩, 0, []⟩ = .ok g) ∧
        (∀ v : Valuation, (∀ n ∈ f.names, ∃ k, v.symbol n = some (.int k)) → f.Holds v) ∧
        ∃ v : Valuation, (∀ n ∈ g.names, ∃ k, v.symbol n = some (.int k)) ∧ ¬ g.Holds v := by
  let one (x : Name) : Expr := .binary .eq (.symbol x) (.int 1)
  refine ⟨rfl, prepare_siblingBody, .binary .implies (one ⟨"t"⟩) (one ⟨"t"⟩),
    .binary .implies (one ⟨"t"⟩) (one ⟨"u"⟩), fun l prune => by cases prune <;> cbv,
    fun l prune => by cases prune <;> cbv, ?_, ?_⟩
  · intro v hv
    obtain ⟨k, hk⟩ := hv ⟨"t"⟩ (by decide)
    have ht : (Expr.symbol ⟨"t"⟩).eval v = .ok (.int k) := by
      rw [Expr.eval, Expr.evalAt, Valuation.read, hk]
      rfl
    have hone := eval_eq_int ht (b := Expr.int 1) rfl
    exact (Expr.eval_implies hone hone).trans (by simp)
  -- With names of their own the two locals may have different values.
  · refine ⟨⟨fun n => some (.int (if n.text = "t" then 1 else 0)), fun _ => none, fun _ _ => none⟩,
      fun n _ => ⟨_, rfl⟩, fun hholds => ?_⟩
    cases hholds

end Passive

end Obligations
