import Obligations.Proofs.Expr.Connectives
import Obligations.Proofs.Passive.Failure
import Obligations.Proofs.Vocabulary.Preparation

/-!
# Pruning keeps the verdict

With pruning, a variable that is dead at a join gets no version there. Whether this is done or not,
the passive body has the failures of the body that it comes from (`Passive.Ready.failsAll_iff`), so
that an assertion on a path can be falsified in the one passive body exactly if it can in the other
(`Passive.falsifies_prune_iff`). This takes names that are declared once: the analysis looks up the
condition on the local of a scope by name, and misses what it reads where another scope declares a
local of the same name under another condition (`Passive.redeclaring_changes_verdict`).
-/

namespace Obligations.Passive

variable {p : Program} {q : Procedure} {e : SingleExit}

/-- No valuation makes an assertion on a path from the entry of a body false and all passive
assumptions before it true. -/
def Unfalsified (I : Interpretation) (i : Implementation) (b : PassiveImplementation) : Prop :=
  ∀ ids last, i.Path i.entry ids last → ∀ (ν : I.State) (n : Nat),
    ¬ Falsifies ν (b.body.cmdsAlong ids) n

/-- A body that is ready is passified, and no valuation falsifies its passive body exactly if no run
of the body fails. -/
theorem unfalsified_iff_not_fails (l : Lexicon) (prune : Bool) (hcheck : e.body.check = .ok ())
    (hexit : e.body.returning = [e.exit]) (h : Ready p q e.body) :
    ∃ b, (passify l prune p q e).outcome = .ok b ∧ ∀ I, Unfalsified I e.body b ↔
      ∀ ids last, e.body.Path e.body.entry ids last → ∀ (σ : I.State) (n : Nat),
        ¬ Cmd.FailsAll ⟨declarations p e.body, q.modifies, σ⟩ (e.body.cmdsAlong ids) n σ := by
  obtain ⟨b, hb, hiff⟩ := passify_fails_iff l prune hcheck hexit h
  refine ⟨b, hb, fun I => ?_⟩
  unfold Unfalsified
  refine forall_congr' fun ids => forall_congr' fun last => forall_congr' fun hp => ?_
  constructor
  · intro hall σ n hfail
    obtain ⟨ν, -, hfalse⟩ := (hiff I ids last hp σ n).1 hfail
    exact hall ν n hfalse
  · intro hall ν n hfalse
    exact hall ν n ((hiff I ids last hp ν n).2 ⟨ν, fun _ _ => rfl, hfalse⟩)

/-- A body that is ready is passified with and without pruning. From given values of the variables
an assertion on a path can be falsified in the one passive body exactly if it can in the other. -/
theorem falsifies_prune_iff (l : Lexicon) (hcheck : e.body.check = .ok ())
    (hexit : e.body.returning = [e.exit]) (h : Ready p q e.body) :
    ∃ pruned full, (passify l true p q e).outcome = .ok pruned ∧
      (passify l false p q e).outcome = .ok full ∧
      ∀ (I : Interpretation) (σ : I.State) (ids : List Nat) (last : Nat),
        e.body.Path e.body.entry ids last → ∀ n,
          ((∃ ν : I.State, (∀ v ∈ outerVariables p e.body, ν v.name = σ v.name) ∧
              Falsifies ν (pruned.body.cmdsAlong ids) n) ↔
            ∃ ν : I.State, (∀ v ∈ outerVariables p e.body, ν v.name = σ v.name) ∧
              Falsifies ν (full.body.cmdsAlong ids) n) := by
  -- What becomes of the body does not depend on the meaning of the operators.
  let I₀ := Interpretation.standard fun _ _ => none
  let σ₀ : I₀.State := fun _ => .value (.bool true)
  obtain ⟨pruned, hpruned, -⟩ := passify_simulates l true hcheck hexit h σ₀
  obtain ⟨full, hfull, -⟩ := passify_simulates l false hcheck hexit h σ₀
  refine ⟨pruned, full, hpruned, hfull, fun I σ ids last hp n => ?_⟩
  obtain ⟨b, hb, hsim⟩ := passify_simulates l true hcheck hexit h σ
  obtain ⟨b', hb', hsim'⟩ := passify_simulates l false hcheck hexit h σ
  obtain rfl : b = pruned := Except.ok.inj (hb.symm.trans hpruned)
  obtain rfl : b' = full := Except.ok.inj (hb'.symm.trans hfull)
  obtain ⟨U, R, hsim⟩ := hsim ids last hp
  obtain ⟨U', R', hsim'⟩ := hsim' ids last hp
  calc
    _ ↔ Cmd.FailsAll ⟨declarations p e.body, q.modifies, σ⟩ (e.body.cmdsAlong ids) n σ :=
      (h.failsAll_iff hsim n).symm
    _ ↔ _ := h.failsAll_iff hsim' n

/-- Pruning does not change the verdict on a body that is ready: its passive body with pruning is
falsified by no valuation exactly if the one without pruning is. -/
theorem unfalsified_prune_iff (l : Lexicon) (hcheck : e.body.check = .ok ())
    (hexit : e.body.returning = [e.exit]) (h : Ready p q e.body) :
    ∃ pruned full, (passify l true p q e).outcome = .ok pruned ∧
      (passify l false p q e).outcome = .ok full ∧
      ∀ I, Unfalsified I e.body pruned ↔ Unfalsified I e.body full := by
  obtain ⟨pruned, hpruned, hiff⟩ := unfalsified_iff_not_fails l true hcheck hexit h
  obtain ⟨full, hfull, hiff'⟩ := unfalsified_iff_not_fails l false hcheck hexit h
  exact ⟨pruned, full, hpruned, hfull, fun I => (hiff I).trans (hiff' I).symm⟩

theorem unfalsified_prune_iff_stepping :
    steppingBody.check = .ok () ∧ steppingBody.returning = [3] ∧
      Ready steppingProgram (changing [⟨"g"⟩]) steppingBody ∧
      ∃ pruned full,
        (passify .initial true steppingProgram (changing [⟨"g"⟩]) ⟨steppingBody, 3, []⟩).outcome =
          .ok pruned ∧
        (passify .initial false steppingProgram (changing [⟨"g"⟩]) ⟨steppingBody, 3, []⟩).outcome =
          .ok full ∧
        ∀ I, Unfalsified I steppingBody pruned ↔ Unfalsified I steppingBody full := by
  have hcheck : steppingBody.check = .ok () := by cbv
  have hexit : steppingBody.returning = [3] := by decide
  exact ⟨hcheck, hexit, steppingBody_ready, unfalsified_prune_iff .initial (e := ⟨steppingBody, 3, []⟩)
    hcheck hexit steppingBody_ready⟩

/-- The formula of a body made ready, with conditions copied. -/
def inlineFormula (l : Lexicon) (prune : Bool) (p : Program) (q : Procedure) (e : SingleExit) :
    Except ConditionError Expr := do
  let b ← (passify l prune p q e).outcome
  let (f, _) ← (Condition.encode b.body b.order .inline).outcome
  return f

/-- A procedure that is called with `g` zero and may change it. -/
def redeclaringProcedure : Procedure where
  name := ⟨"P"⟩
  inputs := []
  outputs := []
  requires := [⟨.formula (.binary .eq (.symbol ⟨"g"⟩) (.int 0)), false⟩]
  ensures := []
  modifies := [⟨"g"⟩]
  attributes := []

/-- A body with two scopes that declare a local `t`, the first of them with the value of `g`. -/
def redeclaringBody : Implementation where
  name := ⟨"P"⟩
  inputs := []
  outputs := []
  locals := []
  attributes := []
  entry := 0
  blocks :=
    [⟨⟨"entry"⟩, [], [], .goto [1, 2]⟩,
     ⟨⟨"left"⟩, [.assign [(⟨"g"⟩, .int 1)]], [0], .goto [3]⟩,
     ⟨⟨"right"⟩, [.assign [(⟨"g"⟩, .int 2)]], [0], .goto [3]⟩,
     ⟨⟨"join"⟩,
       [.scope [⟨⟨"t"⟩, .int, some (.binary .eq (.symbol ⟨"t"⟩) (.symbol ⟨"g"⟩)), .local⟩]
         [.assert ⟨.binary .eq (.symbol ⟨"t"⟩) (.int 0), .plain, none, none⟩],
        .scope [⟨⟨"t"⟩, .int, none, .local⟩] []],
       [1, 2], .ret⟩]

/-- A program with the procedure and its body. -/
def redeclaringProgram : Program where
  globals := [⟨⟨"g"⟩, .int, none, .global⟩]
  functions := []
  procedures := [redeclaringProcedure]
  implementations := [redeclaringBody]

/-- The body made ready. -/
def redeclaringReadied : Implementation := { redeclaringBody with
  blocks := [⟨⟨"entry"⟩, [], [4], .goto [1, 2]⟩] ++ redeclaringBody.blocks.tail ++
    [⟨⟨"PreconditionGeneratedEntry0"⟩, [.assume (.binary .eq (.symbol ⟨"g"⟩) (.int 0))], [],
       .goto [0]⟩]
  entry := 4 }

theorem prepare_redeclaringBody : (redeclaringBody.prepare redeclaringProgram).outcome =
    .ok (redeclaringProcedure, ⟨redeclaringReadied, 3, []⟩) := by
  have hcheck : redeclaringBody.check = .ok () := by cbv
  have hcheck' : redeclaringReadied.check = .ok () := by cbv
  have hsplit : (redeclaringReadied.splitCriticalEdges : Minting ConditionError _).outcome =
      .ok redeclaringReadied := by cbv
  exact Implementation.prepare_eq_ok.2 ⟨rfl, hcheck, _, _, _, _, rfl, rfl, rfl, rfl,
    hcheck', hsplit, rfl⟩

/-- The formula with `g` read as a given name at the end, and what is assumed in each branch. -/
def redeclaringFormula (g : Name) (left right : Expr → Expr) : Expr :=
  let read : Expr := .binary .implies (.binary .eq (.symbol ⟨"t"⟩) (.symbol g))
    (.binary .eq (.symbol ⟨"t"⟩) (.int 0))
  .binary .implies (.binary .eq (.symbol ⟨"g"⟩) (.int 0)) (.binary .and (left read) (right read))

/-- An equality of two names or literals with integers as values. -/
theorem eval_eq_int {v : Valuation} {a b : Expr} {k m : Int} (ha : a.eval v = .ok (.int k))
    (hb : b.eval v = .ok (.int m)) : (Expr.binary .eq a b).eval v = .ok (.bool (k = m)) := by
  unfold Expr.eval at ha hb ⊢
  rw [Expr.evalAt, ha]
  change (b.evalAt v .current >>= _) = _
  rw [hb]
  change Except.ok (Value.bool (decide (Value.int k = .int m))) = _
  simp

/-- Of two locals of one name the condition of the last is looked up, so that `g`, which the
condition of the first reads, is dead at the join: it denotes its value on entry there, which is
zero, and the assertion holds. Without pruning it denotes one or two. -/
theorem redeclaring_changes_verdict :
    ∃ f g, (redeclaringBody.prepare redeclaringProgram).outcome =
        .ok (redeclaringProcedure, ⟨redeclaringReadied, 3, []⟩) ∧
      (∀ l, inlineFormula l true redeclaringProgram redeclaringProcedure
        ⟨redeclaringReadied, 3, []⟩ = .ok f) ∧
      (∀ l, inlineFormula l false redeclaringProgram redeclaringProcedure
        ⟨redeclaringReadied, 3, []⟩ = .ok g) ∧
      (∀ v : Valuation, (∀ n ∈ f.names, ∃ k, v.symbol n = some (.int k)) → f.Holds v) ∧
      ∃ v : Valuation, (∀ n ∈ g.names, ∃ k, v.symbol n = some (.int k)) ∧ ¬ g.Holds v := by
  refine ⟨redeclaringFormula ⟨"g"⟩ id id, redeclaringFormula ⟨"g@0"⟩
    (.binary .implies (.binary .eq (.symbol ⟨"g@0"⟩) (.int 1)))
    (.binary .implies (.binary .eq (.symbol ⟨"g@0"⟩) (.int 2))),
    prepare_redeclaringBody, fun l => by cbv, fun l => by cbv, ?_, ?_⟩
  · intro v hv
    obtain ⟨k, hk⟩ := hv ⟨"g"⟩ (by decide)
    obtain ⟨m, hm⟩ := hv ⟨"t"⟩ (by decide)
    have hg : (Expr.symbol ⟨"g"⟩).eval v = .ok (.int k) := by
      rw [Expr.eval, Expr.evalAt, Valuation.read, hk]
      rfl
    have ht : (Expr.symbol ⟨"t"⟩).eval v = .ok (.int m) := by
      rw [Expr.eval, Expr.evalAt, Valuation.read, hm]
      rfl
    have hzero : (Expr.int 0).eval v = .ok (.int 0) := rfl
    have hread := Expr.eval_implies (eval_eq_int ht hg) (eval_eq_int ht hzero)
    refine (Expr.eval_implies (eval_eq_int hg hzero) (Expr.eval_and hread hread)).trans ?_
    -- If `g` is zero, `t` is zero if it equals `g`.
    by_cases hk : k = 0
    · simp [hk]
    · simp [hk]
  · refine ⟨⟨fun n => some (.int (if n.text = "g" then 0 else 1)), fun _ => none, fun _ _ => none⟩,
      fun n _ => ⟨_, rfl⟩, fun hholds => ?_⟩
    cases hholds

end Obligations.Passive
