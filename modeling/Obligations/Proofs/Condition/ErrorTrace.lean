import Obligations.Oracle.Basic
import Obligations.Proofs.Condition.BlockNames

/-!
# What a model that refutes a formula tells

The oracle answers a condition that is not valid with the block variables that are false in its
model. They lead to an assertion that fails: a block whose variable is false either comes under true
assumptions to an assertion that is false, or lets control pass to a successor whose variable is
false (`Condition.Solves.violated_or_successor`). As the successors of a block come after it in a
topological order, this descends to a failing assertion
(`Condition.Solves.exists_trace`). The variables need not be distinct for that, nor new to the body.
-/

namespace Obligations

namespace Cmd

variable {cmds cmds' : List Cmd} {v : Valuation}

/-- The commands come under true assumptions to an assertion that is false. -/
def Violated (cmds : List Cmd) (v : Valuation) : Prop :=
  ∃ before a after, cmds = before ++ .assert a :: after ∧ AssumptionsHold before v ∧
    a.condition.eval v = .ok (.bool false)

/-- Decided commands come to an assertion that is false if not all that matter are true. -/
theorem violated_of_not_assertionsHold (hdec : AllDecided cmds v) (h : ¬ AssertionsHold cmds v) :
    Violated cmds v := by
  unfold AssertionsHold at h
  push Not at h
  obtain ⟨before, a, after, hsplit, hassume, hfalse⟩ := h
  have hmem : .assert a ∈ cmds := by simp [hsplit]
  obtain ⟨b, hb⟩ := (hdec _ hmem).2 _ rfl
  refine ⟨before, a, after, hsplit, hassume, ?_⟩
  cases b with
  | false => exact hb
  | true => exact absurd hb hfalse

/-- What fails after commands whose assumptions are true fails after all. -/
theorem Violated.append (h : Violated cmds' v) (hassume : AssumptionsHold cmds v) :
    Violated (cmds ++ cmds') v := by
  obtain ⟨before, a, after, rfl, hbefore, hfalse⟩ := h
  refine ⟨cmds ++ before, a, after, by simp, fun e he => ?_, hfalse⟩
  rcases List.mem_append.1 he with he | he
  · exact hassume e he
  · exact hbefore e he

end Cmd

namespace Condition

open Implementation

variable {i : Implementation} {order : List Nat} {name : Nat → Name} {v : Valuation}

/-- A path through blocks whose symbols do not hold comes to an assertion that fails. -/
structure ErrorTrace (i : Implementation) (name : Nat → Name) (v : Valuation) (id : Nat)
    (ids : List Nat) (last : Nat) : Prop where
  /-- It is a path from the block. -/
  path : i.Path id ids last
  /-- The symbol of none of its blocks holds. -/
  failing : ∀ b ∈ ids, ¬ (Expr.symbol (name b)).Holds v
  /-- An assertion on it is false, and all assumptions before are true. -/
  violated : Cmd.Violated (i.cmdsAlong ids) v

/-- A block whose symbol does not hold fails itself, or its assumptions are true and the symbol of
a successor does not hold. -/
theorem Solves.violated_or_successor (hw : Solves i order name v) {id : Nat} (hid : id ∈ order)
    (hdec : Cmd.AllDecided (i.cmdsAt id) v) (h : ¬ (Expr.symbol (name id)).Holds v) :
    Cmd.Violated (i.cmdsAt id) v ∨ Cmd.AssumptionsHold (i.cmdsAt id) v ∧
      ∃ next ∈ i.successors id, ¬ (Expr.symbol (name next)).Holds v := by
  by_cases hassert : Cmd.AssertionsHold (i.cmdsAt id) v
  · right
    rw [hw.holds_iff id hid] at h
    push Not at h
    exact h hassert
  · exact .inl (Cmd.violated_of_not_assertionsHold hdec hassert)

/-- From every block of an order whose symbol does not hold there is a path to a failure. -/
theorem Solves.exists_trace (ho : i.IsTopologicalOrder order) (hw : Solves i order name v)
    (hdec : ∀ id ∈ order, Cmd.AllDecided (i.cmdsAt id) v) :
    ∀ after before, order = before ++ after → ∀ id ∈ after,
      ¬ (Expr.symbol (name id)).Holds v → ∃ ids last, ErrorTrace i name v id ids last := by
  intro after
  -- The induction is on the end of the order, in which the successors of a block come later.
  induction after with
  | nil => simp
  | cons a after ih =>
    intro before hsplit id hid hfalse
    have ih := ih (before ++ [a]) (by simpa using hsplit)
    rcases List.mem_cons.mp hid with rfl | hid
    · have hid : id ∈ order := by rw [hsplit]; simp
      rcases hw.violated_or_successor hid (hdec id hid) hfalse with hhere | ⟨hassume, next, edge, hn⟩
      · refine ⟨[id], id, .single id, ?_, ?_⟩
        · simpa using hfalse
        · rw [cmdsAlong_singleton]
          exact hhere
      · have hlater : next ∈ after := ho.successors_after before id after hsplit next edge
        obtain ⟨ids, last, trace⟩ := ih next hlater hn
        refine ⟨id :: ids, last, .cons edge trace.path, ?_, ?_⟩
        · exact List.forall_mem_cons.2 ⟨hfalse, trace.failing⟩
        · rw [cmdsAlong_cons]
          exact trace.violated.append hassume
    · exact ih id hid hfalse

/-- The symbol made for a block is the one that its definition is about. -/
theorem symbolOf_eq_of_mem {symbols : List (Nat × Name)} (hkeys : symbols.map (·.1) = order)
    (hnodup : order.Nodup) {id : Nat} {n : Name} (h : (id, n) ∈ symbols) :
    symbolOf symbols id = n := by
  have hmap : symbols.map (fun p => symbolOf symbols p.1) = symbols.map (·.2) := by
    rw [← map_symbolOf hkeys hnodup, ← hkeys, List.map_map]
    rfl
  exact List.map_inj_left.1 hmap _ h

/-- Each block of an order has its symbol. -/
theorem mem_symbolOf {symbols : List (Nat × Name)} (hkeys : symbols.map (·.1) = order)
    (hnodup : order.Nodup) {id : Nat} (hid : id ∈ order) : (id, symbolOf symbols id) ∈ symbols := by
  rw [← hkeys] at hid
  obtain ⟨⟨id, n⟩, hmem, rfl⟩ := List.mem_map.1 hid
  rw [symbolOf_eq_of_mem hkeys hnodup hmem]
  exact hmem

/-- A block variable is listed as failing exactly if it is one that is false. -/
theorem mem_failingBlocks_iff {m : Model} {vc : VerificationCondition} {n : Name} :
    n ∈ m.failingBlocks vc ↔ n ∈ vc.blockVariables ∧ m.find? n = some (.bool false) := by
  rw [Model.failingBlocks, List.mem_filter, decide_eq_true_iff]

/-- A symbol holds that has the value true. -/
theorem holds_symbol_iff {n : Name} :
    (Expr.symbol n).Holds v ↔ v.symbol n = some (.bool true) := by
  unfold Expr.Holds
  rw [Expr.eval, Expr.evalAt, Valuation.read]
  cases v.symbol n <;> simp

/-- The block variables that are listed for a model that makes the formula false lead to a failing
assertion: the variable of the entry is listed, and from every block whose variable is listed there
is a path through such blocks along which all assumptions are true up to an assertion that is
false. -/
theorem failingBlocks_lead_to_failure (i : Implementation) (order : List Nat)
    (ho : i.IsTopologicalOrder order)
    (hpassive : ∀ id ∈ order, ∀ c ∈ i.cmdsAt id, c.isPassive = true) :
    ∃ f symbols, blockSymbols i [] order = .ok symbols ∧ symbols.map (·.1) = order ∧
      (encode i order .blockVariables).outcome = .ok (f, symbols.map (·.2)) ∧
      ∀ (vc : VerificationCondition) (m : Model) (v : Valuation), vc.formula = f →
        vc.blockVariables = symbols.map (·.2) → v.symbol = m.find? →
        (∀ n ∈ vc.blockVariables, ∃ b, m.find? n = some (.bool b)) →
        (∀ id ∈ order, ∀ c ∈ i.cmdsAt id, ∀ e, c.condition? = some e →
          ∃ b, e.eval v = .ok (.bool b)) →
        vc.formula.eval v = .ok (.bool false) →
        (∃ n ∈ m.failingBlocks vc, (i.entry, n) ∈ symbols) ∧
        ∀ id n, (id, n) ∈ symbols → n ∈ m.failingBlocks vc →
          ∃ ids last, i.Path id ids last ∧
            (∀ b ∈ ids, ∃ n ∈ m.failingBlocks vc, (b, n) ∈ symbols) ∧
            ∃ before a after, i.cmdsAlong ids = before ++ .assert a :: after ∧
              (∀ e, .assume e ∈ before → e.eval v = .ok (.bool true)) ∧
              a.condition.eval v = .ok (.bool false) := by
  obtain ⟨symbols, f, hs, hkeys, hf, hmeaning⟩ := defined_eq_ok ho hpassive
  have hnames : order.map (symbolOf symbols) = symbols.map (·.2) := map_symbolOf hkeys ho.nodup
  refine ⟨f, symbols, hs, hkeys, encode_blockVariables_eq_ok.2 ⟨symbols, hs, hf, hnames⟩, ?_⟩
  rintro vc m v rfl hvars hv hbool hconds hfalse
  have hsym : ∀ id ∈ order, symbolOf symbols id ∈ vc.blockVariables := fun id hid => by
    rw [hvars, ← hnames]
    exact List.mem_map_of_mem hid
  have hdec : ∀ id ∈ order, Cmd.AllDecided (i.cmdsAt id) v :=
    fun id hid c hc => ⟨hpassive id hid c hc, hconds id hid c hc⟩
  have hsymdec : ∀ id ∈ order, (Expr.symbol (symbolOf symbols id)).Decided v := fun id hid =>
    Expr.decided_symbol (hv ▸ hbool _ (hsym id hid))
  -- A block is listed exactly if its symbol does not hold.
  have hlisted : ∀ id ∈ order, symbolOf symbols id ∈ m.failingBlocks vc ↔
      ¬ (Expr.symbol (symbolOf symbols id)).Holds v := by
    intro id hid
    obtain ⟨b, hb⟩ := hbool _ (hsym id hid)
    rw [mem_failingBlocks_iff, holds_symbol_iff, hv, hb, and_iff_right (hsym id hid)]
    simp
  -- The formula is false, so that the definitions are true and the symbol of the entry is not.
  have hrefuted : ¬ vc.formula.Holds v := fun htrue => by
    unfold Expr.Holds at htrue
    rw [hfalse] at htrue
    cases htrue
  rw [hmeaning v hdec hsymdec] at hrefuted
  push Not at hrefuted
  obtain ⟨hsolves, hentry⟩ := hrefuted
  refine ⟨⟨_, (hlisted _ ho.entry_mem).2 hentry, mem_symbolOf hkeys ho.nodup ho.entry_mem⟩, ?_⟩
  intro id n hmem hlist
  have hid : id ∈ order := hkeys ▸ List.mem_map_of_mem (f := Prod.fst) hmem
  obtain rfl := symbolOf_eq_of_mem hkeys ho.nodup hmem
  obtain ⟨ids, last, trace⟩ := hsolves.exists_trace ho hdec order [] rfl id hid
    ((hlisted id hid).1 hlist)
  refine ⟨ids, last, trace.path, fun b hb => ?_, trace.violated⟩
  have hb' : b ∈ order :=
    (ho.mem_iff b).2 (trace.path.reachable ((ho.mem_iff id).1 hid) b hb)
  exact ⟨_, (hlisted b hb').2 (trace.failing b hb), mem_symbolOf hkeys ho.nodup hb'⟩

/-- A model in which the block at the join of the diamond fails, and control comes to it through
the block on the left. -/
def diamondModel : Model := NameMap.ofList
  [(⟨"a"⟩, .bool true), (⟨"b"⟩, .bool false), (⟨"entry_correct"⟩, .bool false),
   (⟨"left_correct"⟩, .bool false), (⟨"right_correct"⟩, .bool true),
   (⟨"join_correct"⟩, .bool false), (⟨"exit_correct"⟩, .bool true)]

/-- The conditions of the diamond are variables and literals. -/
theorem diamond_conditions : ∀ id ∈ [0, 1, 2, 3, 4], ∀ c ∈ diamond.cmdsAt id, ∀ e,
    c.condition? = some e →
      e ∈ [Expr.symbol ⟨"a"⟩, .symbol ⟨"b"⟩, .bool true, .bool false] := by
  simp [cmdsAt, diamond, Cmd.condition?]

theorem failingBlocks_lead_to_failure_diamond :
    ∃ vc : VerificationCondition, (encode diamond [0, 1, 2, 3, 4] .blockVariables).outcome =
        .ok (vc.formula, vc.blockVariables) ∧
      vc.formula.eval diamondModel.valuation = .ok (.bool false) ∧
      diamondModel.failingBlocks vc =
        [⟨"entry_correct"⟩, ⟨"left_correct"⟩, ⟨"join_correct"⟩] ∧
      ∃ ids last, diamond.Path diamond.entry ids last ∧
        ∃ before a after, diamond.cmdsAlong ids = before ++ .assert a :: after ∧
          (∀ e, .assume e ∈ before → e.eval diamondModel.valuation = .ok (.bool true)) ∧
          a.condition.eval diamondModel.valuation = .ok (.bool false) := by
  obtain ⟨f, symbols, hs, hkeys, hf, htrace⟩ := failingBlocks_lead_to_failure diamond
    [0, 1, 2, 3, 4] diamond_isTopologicalOrder (fun id hid c hc => (diamond_allDecided id hid c hc).1)
  let vc : VerificationCondition := ⟨⟨"P"⟩, f, [], [], symbols.map (·.2)⟩
  have hsymbols : symbols = [(0, ⟨"entry_correct"⟩), (1, ⟨"left_correct"⟩), (2, ⟨"right_correct"⟩),
      (3, ⟨"join_correct"⟩), (4, ⟨"exit_correct"⟩)] := Except.ok.inj (hs.symm.trans rfl)
  have hvars : vc.blockVariables = [⟨"entry_correct"⟩, ⟨"left_correct"⟩, ⟨"right_correct"⟩,
      ⟨"join_correct"⟩, ⟨"exit_correct"⟩] := by
    simp only [vc, hsymbols]
    rfl
  have hbool : ∀ n ∈ vc.blockVariables, ∃ b, diamondModel.find? n = some (.bool b) := by
    rw [hvars]
    decide
  -- Only few conditions occur in the body, and each has a value under the model.
  have hconds : ∀ id ∈ [0, 1, 2, 3, 4], ∀ c ∈ diamond.cmdsAt id, ∀ e, c.condition? = some e →
      ∃ b, e.eval diamondModel.valuation = .ok (.bool b) := by
    intro id hid c hc e he
    have hcases := diamond_conditions id hid c hc e he
    clear he
    revert e
    decide
  have hfalse : f.eval diamondModel.valuation = .ok (.bool false) := by
    have hcomputed : ((encode diamond [0, 1, 2, 3, 4] .blockVariables).outcome.map
        fun p => p.1.eval diamondModel.valuation) = .ok (.ok (.bool false)) := by cbv
    rw [hf] at hcomputed
    exact Except.ok.inj hcomputed
  have hfailing : diamondModel.failingBlocks vc =
      [⟨"entry_correct"⟩, ⟨"left_correct"⟩, ⟨"join_correct"⟩] := by
    rw [Model.failingBlocks, hvars]
    decide
  obtain ⟨⟨n, hn, hentry⟩, hall⟩ := htrace vc diamondModel diamondModel.valuation rfl rfl rfl hbool
    hconds hfalse
  obtain ⟨ids, last, hpath, -, hviolated⟩ := hall _ _ hentry hn
  exact ⟨vc, hf, hfalse, hfailing, ids, last, hpath, hviolated⟩

end Condition

end Obligations
