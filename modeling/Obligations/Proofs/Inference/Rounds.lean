import Obligations.Proofs.Inference.Fixpoint

/-!
# Inference round by round

A visit to a body is a sequence of rounds, each with one query, and inference is a sequence of
visits. `ConditionSystem.Rounds` and `ConditionSystem.Worklist` say which rounds and which visits
follow one another, with the events in them. `ConditionSystem.settle_worklist` says that the visits
are made as the relation says. A derivation of the relation is finite, so this is also why inference
ends, for every oracle.
-/

namespace Obligations

variable {S σ : Type}

namespace Run

/-- The run after a query, with the new state of the oracle. -/
def answered (r : Run S σ) (oracle : σ) : Run S σ := { r with queries := r.queries + 1, oracle }

/-- The run with another summary of a body. -/
def withSummary (r : Run S σ) (i : Nat) (s : S) : Run S σ :=
  { r with summaries := r.summaries.set i s }

/-- The run when a body has been visited. -/
def visited (r : Run S σ) (i : Nat) (diagnostic : Option Diagnostic) : Run S σ :=
  { r with states := r.states.set i .stable, diagnostics := r.diagnostics ++ diagnostic.toList }

end Run

namespace ConditionSystem

/-- The query about a body is formed from the summaries at hand, and the oracle answers it. -/
structure Asks (c : ConditionSystem) (d : SummaryDomain S) (ask : Oracle σ) (n : Node) (i : Nat)
    (r : Run S σ) (f : Expr) (answer : Answer) (oracle : σ) : Prop where
  /-- The formula of the query. -/
  query : c.query d r.summaries n i = .ok f
  /-- The answer and the new state of the oracle. -/
  answer : ask r.oracle n.name.text { n.condition with formula := f } = (answer, oracle)

/-- The rounds of a visit to a body: the events in them, the run that they lead to, and how the visit
ends. -/
inductive Rounds (c : ConditionSystem) (d : SummaryDomain S) (ask : Oracle σ) (n : Node) (i : Nat) :
    Run S σ → List (Event S) → Run S σ → Except InferenceError (Option Diagnostic) → Prop
  /-- There is no query, as a summary cannot be rendered. -/
  | unposed {r : Run S σ} {e : InferenceError} :
    c.query d r.summaries n i = .error e → Rounds c d ask n i r [] r (.error e)
  /-- The answer is a failure, or a counterexample from which no end state can be read. -/
  | failed {r : Run S σ} {f : Expr} {answer : Answer} {oracle : σ} {e : InferenceError} :
    c.Asks d ask n i r f answer oracle → n.react answer = .error e →
    Rounds c d ask n i r [.asked i f answer] (r.answered oracle) (.error e)
  /-- The answer ends the visit. -/
  | finished {r : Run S σ} {f : Expr} {answer : Answer} {oracle : σ}
    {diagnostic : Option Diagnostic} :
    c.Asks d ask n i r f answer oracle → n.react answer = .ok (.finish diagnostic) →
    Rounds c d ask n i r [.asked i f answer] (r.answered oracle) (.ok diagnostic)
  /-- The end state of the counterexample cannot be joined to the summary. -/
  | unjoined {r : Run S σ} {f : Expr} {answer : Answer} {oracle : σ} {t : EndState} {s : S}
    {e : InferenceError} :
    c.Asks d ask n i r f answer oracle → n.react answer = .ok (.extend t) →
    r.summaries[i]? = some s → d.join s t = .error e →
    Rounds c d ask n i r [.asked i f answer] (r.answered oracle) (.error e)
  /-- The summary admits the end state already. -/
  | admitted {r : Run S σ} {f : Expr} {answer : Answer} {oracle : σ} {t : EndState} {s : S} :
    c.Asks d ask n i r f answer oracle → n.react answer = .ok (.extend t) →
    r.summaries[i]? = some s → d.join s t = .ok s →
    Rounds c d ask n i r [.asked i f answer] (r.answered oracle) (.ok (some (.noProgress n.name)))
  /-- The summary is weakened by the end state, and another round follows. -/
  | weakened {r r' : Run S σ} {f : Expr} {answer : Answer} {oracle : σ} {t : EndState} {s s' : S}
    {es : List (Event S)} {o : Except InferenceError (Option Diagnostic)} :
    c.Asks d ask n i r f answer oracle → n.react answer = .ok (.extend t) →
    r.summaries[i]? = some s → d.join s t = .ok s' → s' ≠ s →
    Rounds c d ask n i ((r.answered oracle).withSummary i s') es r' o →
    Rounds c d ask n i r (.asked i f answer :: .weakened i s' :: es) r' o

/-- The visits to the bodies of a list and to those that they bring back: the events in them, the run
that they lead to, and how they end. -/
inductive Worklist (c : ConditionSystem) (d : SummaryDomain S) (ask : Oracle σ)
    (heights : List Nat) :
    List Nat → Run S σ → List (Event S) → Run S σ → Except InferenceError Unit → Prop
  /-- No body is left to be visited. -/
  | done {r : Run S σ} : Worklist c d ask heights [] r [] r (.ok ())
  /-- A visit stops inference. -/
  | stopped {i : Nat} {rest : List Nat} {n : Node} {r r' : Run S σ} {es : List (Event S)}
    {e : InferenceError} : c.nodes[i]? = some n → c.Rounds d ask n i r es r' (.error e) →
    Worklist c d ask heights (i :: rest) r es r' (.error e)
  /-- A visit leaves the summary of its body as it is. -/
  | unchanged {i : Nat} {rest : List Nat} {n : Node} {r r₁ r' : Run S σ} {es es' : List (Event S)}
    {diagnostic : Option Diagnostic} {o : Except InferenceError Unit} :
    c.nodes[i]? = some n → c.Rounds d ask n i r es r₁ (.ok diagnostic) → Unchanged i es →
    Worklist c d ask heights rest (r₁.visited i diagnostic) es' r' o →
    Worklist c d ask heights (i :: rest) r (es ++ .left i diagnostic :: es') r' o
  /-- A visit changes the summary of its body, and the other callers have to be visited. -/
  | changed {i : Nat} {rest : List Nat} {n : Node} {r r₁ r' : Run S σ} {es es' : List (Event S)}
    {diagnostic : Option Diagnostic} {o : Except InferenceError Unit} :
    c.nodes[i]? = some n → c.Rounds d ask n i r es r₁ (.ok diagnostic) → ¬ Unchanged i es →
    Worklist c d ask heights (enqueueAll heights ((c.calls.callers i).filter (· ≠ i)) rest)
      (r₁.visited i diagnostic) es' r' o →
    Worklist c d ask heights (i :: rest) r (es ++ .left i diagnostic :: es') r' o
  /-- There is no body of that index. -/
  | missing {i : Nat} {rest : List Nat} {r r' : Run S σ} {es : List (Event S)}
    {o : Except InferenceError Unit} : (∀ s n, r.summaries[i]? = some s → c.nodes[i]? ≠ some n) →
    Worklist c d ask heights rest r es r' o → Worklist c d ask heights (i :: rest) r es r' o

variable {c : ConditionSystem} {d : SummaryDomain S} {ask : Oracle σ} {r r' : Run S σ} {n : Node}
  {i : Nat} {es : List (Event S)}

/-! ## Rounds and visits have histories -/

theorem Rounds.history {o : Except InferenceError (Option Diagnostic)} (hn : c.nodes[i]? = some n)
    (h : c.Rounds d ask n i r es r' o) : c.History d ask r es r' := by
  induction h with
  | unposed => exact .nil _
  | failed hasks => exact .cons (.asked hn hasks.query hasks.answer) (.nil _)
  | finished hasks => exact .cons (.asked hn hasks.query hasks.answer) (.nil _)
  | unjoined hasks => exact .cons (.asked hn hasks.query hasks.answer) (.nil _)
  | admitted hasks => exact .cons (.asked hn hasks.query hasks.answer) (.nil _)
  | weakened hasks _ hs hjoin hne _ ih =>
    exact .cons (.asked hn hasks.query hasks.answer) (.cons (.weakened hs hjoin hne) ih)

theorem Worklist.history {heights pending : List Nat} {o : Except InferenceError Unit}
    (h : c.Worklist d ask heights pending r es r' o) : c.History d ask r es r' := by
  induction h with
  | done => exact .nil _
  | stopped hn hrounds => exact hrounds.history hn
  | unchanged hn hrounds _ _ ih => exact (hrounds.history hn).append (.cons (.left _ _ _) ih)
  | changed hn hrounds _ _ ih => exact (hrounds.history hn).append (.cons (.left _ _ _) ih)
  | missing _ _ ih => exact ih

/-! ## Inference follows the rules -/

variable [DecidableEq S]

/-- A visit is a sequence of rounds, and says whether one of them changes the summary. -/
theorem weaken_rounds (c : ConditionSystem) (d : SummaryDomain S) (ask : Oracle σ) (n : Node)
    (hi : i < r.summaries.length) (v : Visit S σ) :
    ∃ es, c.Rounds d ask n i (r.during i v) es
        (r.during i (weaken d ask n (fun s => c.query d (r.summaries.set i s) n i) v))
        (weaken d ask n (fun s => c.query d (r.summaries.set i s) n i) v).outcome ∧
      ((weaken d ask n (fun s => c.query d (r.summaries.set i s) n i) v).changed = false ↔
        v.changed = false ∧ Unchanged i es) := by
  have hown : (r.during i v).summaries[i]? = some v.summary := List.getElem?_set_self hi
  -- One rule of the rounds for each way in which a round can end.
  fun_induction weaken d ask n (fun s => c.query d (r.summaries.set i s) n i) v with
  | case1 v e he => exact ⟨[], .unposed he, by simp⟩
  | case2 v f hf answer oracle hask w e hreact =>
    exact ⟨[.asked i f answer], .failed ⟨hf, hask⟩ hreact, by simp [w]⟩
  | case3 v f hf answer oracle hask w diagnostic hreact =>
    exact ⟨[.asked i f answer], .finished ⟨hf, hask⟩ hreact, by simp [w]⟩
  | case4 v f hf answer oracle hask w t hreact e hjoin =>
    exact ⟨[.asked i f answer], .unjoined ⟨hf, hask⟩ hreact hown hjoin, by simp [w]⟩
  | case5 v f hf answer oracle hask w t hreact hjoin =>
    exact ⟨[.asked i f answer], .admitted ⟨hf, hask⟩ hreact hown hjoin, by simp [w]⟩
  | case6 v f hf answer oracle hask w t hreact s hjoin hne ih =>
    obtain ⟨es, hrounds, hchanged⟩ := ih (List.getElem?_set_self hi)
    have hnext : ((r.during i v).answered oracle).withSummary i s =
        r.during i { w with summary := s, changed := true } := by
      unfold Run.withSummary Run.answered Run.during
      rw [List.set_set]
      rfl
    rw [← hnext] at hrounds
    refine ⟨.asked i f answer :: .weakened i s :: es,
      .weakened ⟨hf, hask⟩ hreact hown hjoin hne hrounds, ?_⟩
    simp [hchanged]

/-- The same of a visit from its start. -/
theorem visit_rounds (c : ConditionSystem) (d : SummaryDomain S) (ask : Oracle σ) (n : Node) {s : S}
    (hs : r.summaries[i]? = some s) :
    ∃ es, c.Rounds d ask n i r es (r.during i (c.visit d ask r n i s))
        (c.visit d ask r n i s).outcome ∧
      ((c.visit d ask r n i s).changed = false ↔ Unchanged i es) := by
  obtain ⟨hi, -⟩ := List.getElem?_eq_some_iff.1 hs
  obtain ⟨es, hrounds, hchanged⟩ := weaken_rounds c d ask n hi
    ⟨s, false, 0, r.oracle, .ok none⟩
  have hstart : r.during i ⟨s, false, 0, r.oracle, .ok none⟩ = r := by
    unfold Run.during
    rw [set_of_getElem? hs]
    rfl
  rw [hstart] at hrounds
  exact ⟨es, hrounds, hchanged.trans (and_iff_right rfl)⟩

/-- Inference makes the visits that the rules say. -/
theorem settle_worklist (c : ConditionSystem) (d : SummaryDomain S) (ask : Oracle σ)
    (heights pending : List Nat) (r : Run S σ) :
    ∃ es, c.Worklist d ask heights pending r es (c.settle d ask heights pending r).1
      (c.settle d ask heights pending r).2 := by
  fun_induction settle c d ask heights pending r with
  | case1 r => exact ⟨[], .done⟩
  | case2 r i rest s n hs hn v e hv =>
    obtain ⟨es, hrounds, -⟩ := visit_rounds c d ask n hs
    have hstopped : (c.visit d ask r n i s).outcome = .error e := hv
    rw [hstopped] at hrounds
    exact ⟨es, .stopped hn hrounds⟩
  | case3 r i rest s n hs hn v diagnostic hv next =>
    rename_i ih
    obtain ⟨es', hworklist⟩ := ih
    obtain ⟨es, hrounds, hchanged⟩ := visit_rounds c d ask n hs
    have hended : (c.visit d ask r n i s).outcome = .ok diagnostic := hv
    rw [hended] at hrounds
    refine ⟨es ++ .left i diagnostic :: es', ?_⟩
    -- Whether the summary has changed is seen from the events, as the rules ask.
    by_cases hsame : v.changed = true
    · have hnext : next = enqueueAll heights ((c.calls.callers i).filter (· ≠ i)) rest :=
        dif_pos hsame
      have hes : ¬ Unchanged i es := fun hes => by
        have hfalse : v.changed = false := hchanged.2 hes
        rw [hsame] at hfalse
        cases hfalse
      rw [hnext] at hworklist ⊢
      exact .changed hn hrounds hes hworklist
    · have hnext : next = rest := dif_neg hsame
      rw [hnext] at hworklist ⊢
      exact .unchanged hn hrounds (hchanged.1 (Bool.eq_false_iff.2 hsame)) hworklist
  | case4 r i rest hnone ih =>
    obtain ⟨es, hes⟩ := ih
    exact ⟨es, .missing (fun s n hs hn => hnone s n hs hn) hes⟩

end ConditionSystem

end Obligations
