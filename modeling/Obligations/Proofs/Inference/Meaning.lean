import Obligations.Proofs.Expr.Typing
import Obligations.Proofs.Inference.Fixpoint
import Obligations.Proofs.Inference.Polarity
import Obligations.Proofs.Summary.Order

/-!
# What placeholders mean

A condition is valid if it is true under every interpretation of its symbols and functions, and a
model refutes it if the model is part of an interpretation that makes it false. An interpretation
can be changed so that placeholders mean given summaries (`ConditionSystem.meaning`); this defines
all placeholders of a query as these summaries do. So if a model refutes a query that is formed from
summaries, and greater summaries make the condition of the body true, then it is for the end state
of the body that the greater summary of the body permits it (`ConditionSystem.permits_endState`).
-/

namespace Obligations

open Summary

/-! ## Validity -/

namespace VerificationCondition

/-- A valuation interprets a condition: the symbols that are declared have values of their kinds, and
so have the functions, on arguments of the kinds of their parameters. -/
structure InterpretedBy (vc : VerificationCondition) (v : Valuation) : Prop where
  /-- Symbols have values. -/
  symbol : ∀ n k, vc.signature.symbol n = some k → ∃ x, v.symbol n = some x ∧ x.kind = k
  /-- Functions have values. -/
  application : ∀ f ks k xs, vc.signature.function f = some (ks, k) → xs.map Value.kind = ks →
    ∃ x, v.application f xs = some x ∧ x.kind = k

/-- The condition is true under every interpretation. -/
def Valid (vc : VerificationCondition) : Prop := ∀ v, vc.InterpretedBy v → vc.formula.Holds v

end VerificationCondition

/-- Some interpretation that gives symbols the values that a model gives them makes the condition
false. -/
def Model.Refutes (m : Model) (vc : VerificationCondition) : Prop :=
  ∃ v, vc.InterpretedBy v ∧ (∀ n x, m.find? n = some x → v.symbol n = some x) ∧
    vc.formula.eval v = .ok (.bool false)

section

variable {l : Lexicon} {p : Program} {b : Implementation} {formula : Expr}
  {blockVariables : List Name} {vc : VerificationCondition}

/-- The symbols that a condition declares are those of its formula. -/
theorem signature_symbol_of_closeFormula
    (h : closeFormula l p b formula blockVariables = .ok vc) (n : Name) :
    vc.signature.symbol n = if n ∈ formula.names then
      (symbolType p b blockVariables n).toOption.bind Ty.kind? else none := by
  obtain ⟨symbols, hsymbols, h⟩ := bind_eq_ok.1 h
  obtain ⟨functions, -, h⟩ := bind_eq_ok.1 h
  cases h
  have hfind := find?_of_mapM_eq_ok Prod.fst hsymbols (fun n q hq => by
    obtain ⟨ty, -, heq⟩ := bind_eq_ok.1 hq
    cases heq
    rfl) n
  unfold VerificationCondition.signature
  dsimp only
  rw [hfind]
  simp only [Lexicon.mem_sortedSet]
  split_ifs
  · cases symbolType p b blockVariables n <;> rfl
  · rfl

/-- The functions that a condition declares are those that its formula applies. -/
theorem signature_function_of_closeFormula
    (h : closeFormula l p b formula blockVariables = .ok vc) (f : Name) :
    vc.signature.function f = if f ∈ formula.functions then
      (p.function? f).bind Function.kinds? else none := by
  obtain ⟨symbols, -, h⟩ := bind_eq_ok.1 h
  obtain ⟨functions, hfunctions, h⟩ := bind_eq_ok.1 h
  cases h
  have hfind := find?_of_mapM_eq_ok Function.name hfunctions (fun f d hd => by
    cases hf : p.function? f with
    | none =>
      rw [hf] at hd
      cases hd
    | some d' =>
      rw [hf] at hd
      cases hd
      exact of_decide_eq_true (List.find?_some (p := fun d : Function => d.name = f) hf)) f
  unfold VerificationCondition.signature
  dsimp only
  rw [hfind]
  split_ifs
  · cases p.function? f <;> rfl
  · rfl

end

/-! ## End states in models -/

section

variable {n : Node} {m : Model} {v : Valuation} {e : Expr}

/-- A term has the value that is read off a model wherever symbols have the values of the model. -/
theorem Node.eval_of_readTerm {x : Value} (hm : ∀ n x, m.find? n = some x → v.symbol n = some x)
    (h : n.readTerm m e = .ok x) : e.evalAt v .current = .ok x := by
  unfold readTerm at h
  split at h
  · cases h
    rfl
  · cases h
    rfl
  · next y =>
    cases hy : m.find? y with
    | none =>
      rw [hy] at h
      cases h
    | some a =>
      rw [hy] at h
      cases h
      rw [Expr.evalAt, Valuation.read, hm y x hy]
      rfl
  · cases h

/-- The end state in a model has the values of its terms. -/
theorem Node.eq_ofList_of_project {t : EndState} {xs : List Value}
    (hm : ∀ n x, m.find? n = some x → v.symbol n = some x)
    (hxs : Expr.evalAllAt v .current n.endState = .ok xs) (ht : n.project m = .ok t) :
    t = .ofList (n.keys.zip xs) := by
  obtain ⟨entries, hentries, heq⟩ := bind_eq_ok.1 ht
  cases heq
  refine congrArg NameMap.ofList ?_
  have hall := mapM_eq_ok_iff.1 hentries
  have hvalues := Expr.evalAllAt_eq_ok.1 hxs
  -- Names and terms are paired from the front, and a name without a term or a term without a name
  -- is dropped.
  clear ht hentries hxs
  generalize n.keys = ks, n.endState = es at hall hvalues ⊢
  induction hvalues generalizing ks entries with
  | nil =>
    rw [List.zip_nil_right] at hall ⊢
    cases hall
    rfl
  | cons hx _ ih =>
    cases ks with
    | nil =>
      cases hall
      rfl
    | cons k ks =>
      rw [List.zip_cons_cons] at hall ⊢
      cases hall with
      | cons hfirst hrest =>
        obtain ⟨a, ha, heq⟩ := bind_eq_ok.1 hfirst
        cases heq
        cases (Node.eval_of_readTerm hm ha).symm.trans hx
        rw [ih _ ks hrest]

end

/-! ## Definitions of placeholders -/

section

variable {S : Type} {d : SummaryDomain S} {m : Node} {args : List Expr} {e : Expr} {v : Valuation}
  {bound : Nat} {xs : List Value}

theorem Node.exists_of_define_eq_ok {s : S} (h : m.define d s args = .ok e) :
    ∃ f, d.render s (.ofList (m.keys.zip args)) = .ok f ∧
      e = .binary .iff (.apply (summaryPredicate m.name) args) f := by
  unfold define at h
  split_ifs at h
  obtain ⟨f, hf, heq⟩ := bind_eq_ok.1 h
  cases heq
  exact ⟨f, hf, rfl⟩

variable {s : ConstantSummary}

/-- Where a placeholder is defined by a summary, it says whether the summary permits the end state of
its arguments. -/
theorem Node.application_of_define (h : m.define (constants bound) s args = .ok e)
    (he : e.Holds v) : ∃ xs, Expr.evalAllAt v .current args = .ok xs ∧
      v.application (summaryPredicate m.name) xs =
        some (.bool (s.Permits (.ofList (m.keys.zip xs)))) := by
  obtain ⟨f, hf, rfl⟩ := exists_of_define_eq_ok h
  obtain ⟨x, hx, hdecided | ⟨-, y, hy, happly⟩⟩ := Expr.eval_binary_eq_ok.1 he
  · cases x <;> cases hdecided
  obtain ⟨xs, hxs, happ⟩ := Expr.eval_apply_eq_ok.1 hx
  have heq : x = y := by
    rw [BinaryOp.apply] at happly
    split_ifs at happly
    exact of_decide_eq_true (Value.bool.inj (Except.ok.inj happly))
  rw [heq, eq_permits_of_eval_render (EndState.valuesOf_zip hxs) hf hy] at happ
  exact ⟨xs, hxs, happ⟩

/-- Where a placeholder says whether a summary permits the end state of its arguments, its definition
by the summary is not false. -/
theorem Node.define_ne_false (h : m.define (constants bound) s args = .ok e)
    (hxs : Expr.evalAllAt v .current args = .ok xs)
    (happ : v.application (summaryPredicate m.name) xs =
      some (.bool (s.Permits (.ofList (m.keys.zip xs))))) : e.eval v ≠ .ok (.bool false) := by
  obtain ⟨f, hf, rfl⟩ := exists_of_define_eq_ok h
  intro hfalse
  obtain ⟨x, hx, hdecided | ⟨-, y, hy, happly⟩⟩ := Expr.eval_binary_eq_ok.1 hfalse
  · cases x <;> cases hdecided
  cases hx.symm.trans (Expr.eval_apply_eq_ok.2 ⟨xs, hxs, happ⟩)
  rw [eq_permits_of_eval_render (EndState.valuesOf_zip hxs) hf hy, BinaryOp.apply] at happly
  simp [Value.sameKind] at happly

end

/-! ## Placeholders as summaries -/

/-- A value with a given truth value in the place of a truth value. -/
def Value.withTruth (b : Bool) : Value → Value
  | bool _ => bool b
  | int i => int i

@[simp] theorem Value.kind_withTruth (b : Bool) (x : Value) : (x.withTruth b).kind = x.kind := by
  cases x <;> rfl

namespace ConditionSystem

/-- The values that functions have when placeholders mean summaries and other functions what they
mean in a valuation: a placeholder says whether the summary of its body permits the end state. -/
def meaning (c : ConditionSystem) (summaries : List ConstantSummary) (v : Valuation) (f : Name)
    (xs : List Value) : Option Value :=
  match (c.nodes.zip summaries).find? (summaryPredicate ·.1.name = f) with
  | some (m, s) => (v.application f xs).map (.withTruth (s.Permits (.ofList (m.keys.zip xs))))
  | none => v.application f xs

variable {c : ConditionSystem} {summaries greater : List ConstantSummary} {v : Valuation} {f : Name}
  {xs : List Value} {n m : Node} {i j : Nat} {s : ConstantSummary} {bound : Nat}

theorem meaning_of_forall_ne (hf : ∀ m ∈ c.nodes, f ≠ summaryPredicate m.name) :
    c.meaning summaries v f = v.application f := by
  have hnone : (c.nodes.zip summaries).find? (summaryPredicate ·.1.name = f) = none := by
    rw [List.find?_eq_none]
    intro p hp heq
    exact hf p.1 (List.of_mem_zip hp).1 (of_decide_eq_true heq).symm
  unfold meaning
  rw [hnone]

/-- A placeholder means the summary of its body. -/
theorem meaning_of_getElem? (hnodup : (c.nodes.map (·.name)).Nodup)
    (hlength : summaries.length = c.nodes.length) (hm : c.nodes[j]? = some m)
    (hs : summaries[j]? = some s) :
    c.meaning summaries v (summaryPredicate m.name) xs =
      (v.application (summaryPredicate m.name) xs).map
        (.withTruth (s.Permits (.ofList (m.keys.zip xs)))) := by
  have hkeys : ((c.nodes.zip summaries).map fun p => summaryPredicate p.1.name).Nodup := by
    have hnodes := hnodup.map summaryPredicate_injective
    rw [List.map_map, ← List.map_fst_zip hlength.ge, List.map_map] at hnodes
    exact hnodes
  have hmem : (m, s) ∈ c.nodes.zip summaries :=
    List.mem_of_getElem? (List.getElem?_zip_eq_some.2 ⟨hm, hs⟩)
  have hfind : (c.nodes.zip summaries).find? (summaryPredicate ·.1.name = summaryPredicate m.name) =
      some (m, s) := by
    rw [← List.head?_filter,
      filter_eq_singleton (fun p : Node × ConstantSummary => summaryPredicate p.1.name)
        hkeys hmem]
    rfl
  unfold meaning
  rw [hfind]

/-- With another meaning of placeholders a valuation still interprets a condition. -/
theorem interpretedBy_meaning {vc : VerificationCondition} (h : vc.InterpretedBy v) :
    vc.InterpretedBy { v with application := c.meaning summaries v } where
  symbol := h.symbol
  application f ks k xs hf hxs := by
    obtain ⟨x, hx, hkind⟩ := h.application f ks k xs hf hxs
    dsimp only
    unfold meaning
    split
    · exact ⟨_, by rw [hx]; rfl, (x.kind_withTruth _).trans hkind⟩
    · exact ⟨x, hx, hkind⟩

/-- In a valuation the placeholder of a node says of arguments whether a summary permits the end state
of their values. -/
def MeansAt (v : Valuation) (m : Node) (s : ConstantSummary) (args : List Expr)
    (xs : List Value) : Prop :=
  Expr.evalAllAt v .current args = .ok xs ∧
    v.application (summaryPredicate m.name) xs = some (.bool (s.Permits (.ofList (m.keys.zip xs))))

theorem MeansAt.permits {args : List Expr} (h : MeansAt v m s args xs)
    (htrue : (Expr.apply (summaryPredicate m.name) args).Holds v) :
    s.Permits (.ofList (m.keys.zip xs)) := by
  obtain ⟨xs', hxs', happ⟩ := Expr.eval_apply_eq_ok.1 htrue
  cases h.1.symm.trans hxs'
  exact of_decide_eq_true (Value.bool.inj (Option.some.inj (h.2.symm.trans happ)))

theorem MeansAt.holds {args : List Expr} (h : MeansAt v m s args xs)
    (hpermits : s.Permits (.ofList (m.keys.zip xs))) :
    (Expr.apply (summaryPredicate m.name) args).Holds v := by
  refine Expr.eval_apply_eq_ok.2 ⟨xs, h.1, ?_⟩
  rw [h.2, decide_eq_true hpermits]

section

variable {f g : Expr} {args : List Expr}

/-- If a query is false, so is the condition, and placeholders mean the summaries. -/
theorem IsQuery.of_eval_eq_false (hf : c.IsQuery (constants bound) summaries n f)
    (hfalse : f.eval v = .ok (.bool false)) :
    n.condition.formula.eval v = .ok (.bool false) ∧
      ∀ (j : Nat) (m : Node) (args : List Expr), c.nodes[j]? = some m →
        .apply (summaryPredicate m.name) args ∈ n.condition.formula.subexprs →
          ∃ s xs, summaries[j]? = some s ∧ MeansAt v m s args xs := by
  obtain ⟨others, own, rfl, -, hdefined⟩ := hf
  obtain ⟨hpremise, hfalse⟩ := Expr.eval_impl_eq_false hfalse
  rw [Expr.holds_conj_iff, Expr.holds_conjAll_iff, Expr.holds_conjAll_iff,
    ← List.forall_mem_append] at hpremise
  refine ⟨hfalse, fun j m args hm hpart => ?_⟩
  obtain ⟨s, hs, e, he, hdefine⟩ := hdefined j m args hm hpart
  obtain ⟨xs, hmeans⟩ := Node.application_of_define hdefine (hpremise e he)
  exact ⟨s, xs, hs, hmeans⟩

/-- If a query is true where placeholders mean the summaries, so is the condition. -/
theorem IsQuery.holds_formula (hg : c.IsQuery (constants bound) summaries n g) (hholds : g.Holds v)
    (hmeans : ∀ (j : Nat) (m : Node) (s : ConstantSummary) (args : List Expr),
      c.nodes[j]? = some m → summaries[j]? = some s →
      .apply (summaryPredicate m.name) args ∈ n.condition.formula.subexprs →
        ∃ xs, MeansAt v m s args xs) : n.condition.formula.Holds v := by
  obtain ⟨others, own, rfl, hdefinitions, -⟩ := hg
  refine Expr.holds_of_holds_impl hholds fun hfalse => ?_
  obtain ⟨e, he, hfalse⟩ : ∃ e ∈ others ++ own, e.eval v = .ok (.bool false) := by
    rcases Expr.eval_conj_eq_false hfalse with hfalse | hfalse
    · obtain ⟨e, he, hfalse⟩ := Expr.eval_conjAll_eq_false hfalse
      exact ⟨e, List.mem_append_left _ he, hfalse⟩
    · obtain ⟨e, he, hfalse⟩ := Expr.eval_conjAll_eq_false hfalse
      exact ⟨e, List.mem_append_right _ he, hfalse⟩
  obtain ⟨j, m, s, args, hm, hs, hpart, hdefine⟩ := hdefinitions e he
  obtain ⟨xs, hxs, happ⟩ := hmeans j m s args hm hs hpart
  exact Node.define_ne_false hdefine hxs happ hfalse

/-- Where arguments apply no placeholders, a placeholder that has meant a summary means another one
after the change of its meaning. -/
theorem MeansAt.meaning {u : ConstantSummary} (h : MeansAt v m s args xs)
    (hnodup : (c.nodes.map (·.name)).Nodup) (hlength : summaries.length = c.nodes.length)
    (hm : c.nodes[j]? = some m) (hu : summaries[j]? = some u)
    (hargs : ∀ a ∈ args, ∀ k ∈ c.nodes, summaryPredicate k.name ∉ a.functions) :
    MeansAt { v with application := c.meaning summaries v } m u args xs := by
  refine ⟨?_, ?_⟩
  · rw [← h.1]
    refine Expr.evalAllAt_congr args .current (fun f a ha hf => ?_) fun ⟨t, _⟩ _ => by
      cases t <;> rfl
    exact meaning_of_forall_ne fun k hk heq => hargs a ha k hk (heq ▸ hf)
  · refine (meaning_of_getElem? hnodup hlength hm hu).trans ?_
    rw [h.2]
    rfl

/-- If a query that is formed from summaries is false, and with greater summaries as the meanings of
placeholders the query that is formed from those is true, then the greater summary of the body
permits the end state of the body. -/
theorem permits_endState (hc : c.Polarized) (hn : c.nodes[i]? = some n)
    (hle : List.Forall₂ ConstantSummary.AtMost summaries greater)
    (hlength : greater.length = c.nodes.length)
    (hf : c.IsQuery (constants bound) summaries n f) (hfalse : f.eval v = .ok (.bool false))
    (hg : c.IsQuery (constants bound) greater n g)
    (hholds : g.Holds { v with application := c.meaning greater v }) :
    ∃ u xs, greater[i]? = some u ∧ Expr.evalAllAt v .current n.endState = .ok xs ∧
      u.Permits (.ofList (n.keys.zip xs)) := by
  have hpolarized := hc.nodes n (List.mem_of_getElem? hn)
  obtain ⟨hfalse, hmeans⟩ := hf.of_eval_eq_false hfalse
  -- At every site the placeholder means the summary before and the greater one after.
  have hsite : ∀ (j : Nat) (m : Node) (args : List Expr), c.nodes[j]? = some m →
      .apply (summaryPredicate m.name) args ∈ n.condition.formula.subexprs →
        ∃ (s u : ConstantSummary) (xs : List Value), s.AtMost u ∧ greater[j]? = some u ∧
          MeansAt v m s args xs ∧
            MeansAt { v with application := c.meaning greater v } m u args xs := by
    intro j m args hm hpart
    obtain ⟨s, xs, hs, hbefore⟩ := hmeans j m args hm hpart
    obtain ⟨u, hu, hsu⟩ := exists_getElem?_of_forall₂ hle hs
    refine ⟨s, u, xs, hsu, hu, hbefore, hbefore.meaning hc.distinct hlength hm hu fun a ha k hk => ?_⟩
    exact hpolarized.unnested _ args ⟨m, List.mem_of_getElem? hm, rfl⟩ hpart a ha _ ⟨k, hk, rfl⟩
  have hafter := hg.holds_formula hholds fun j m u args hm hu hpart => by
    obtain ⟨s, u', xs, -, hu', -, hafter⟩ := hsite j m args hm hpart
    cases hu.symm.trans hu'
    exact ⟨xs, hafter⟩
  have hturns := hpolarized.endState_turns
    (fun f hf => meaning_of_forall_ne fun m hm heq => hf ⟨m, hm, heq⟩)
    (fun f args hf hpart htrue => ?_) hfalse hafter
  · obtain ⟨s, u, xs, -, hu, hbefore, hafter⟩ := hsite i n n.endState hn hturns.part
    exact ⟨u, xs, hu, hbefore.1, hafter.permits hturns.after⟩
  · obtain ⟨m, hm, rfl⟩ := hf
    obtain ⟨j, hj⟩ := List.mem_iff_getElem?.1 hm
    obtain ⟨s, u, xs, hsu, -, hbefore, hafter⟩ := hsite j m args hj hpart
    exact hafter.holds (hsu.permits (hbefore.permits htrue))

end

end ConditionSystem

end Obligations
