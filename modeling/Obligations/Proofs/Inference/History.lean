import Mathlib.Tactic.SplitIfs
import Obligations.Inference.Fixpoint
import Obligations.Proofs.Outcome

/-!
# Histories of inference

What happens while summaries are inferred is a sequence of events: a query is made and answered, a
summary is weakened, a visit ends. `ConditionSystem.Step` says what each event does to a run, and a
history is a sequence of such steps. A visit has a history, in which only the summary of the visited
body changes, and which, if the visit ends without a diagnostic, ends with the answer that the
condition holds (`ConditionSystem.visit_history`).
-/

namespace Obligations

variable {S σ : Type}

/-- An event in the inference of summaries. -/
inductive Event (S : Type) where
  /-- A query about a body is answered. -/
  | asked (body : Nat) (formula : Expr) (answer : Answer)
  /-- The summary of a body becomes another one. -/
  | weakened (body : Nat) (summary : S)
  /-- A visit to a body ends. -/
  | left (body : Nat) (diagnostic : Option Diagnostic)

/-- None of the events changes the summary of a body. -/
def Unchanged (i : Nat) (es : List (Event S)) : Prop := ∀ s, .weakened i s ∉ es

section

variable {i j : Nat} {es es' : List (Event S)}

@[simp] theorem unchanged_nil : Unchanged i ([] : List (Event S)) := fun _ h => by cases h

@[simp] theorem unchanged_append : Unchanged i (es ++ es') ↔ Unchanged i es ∧ Unchanged i es' := by
  simp only [Unchanged, List.mem_append, not_or, forall_and]

@[simp] theorem unchanged_asked_cons {f : Expr} {a : Answer} :
    Unchanged i (.asked j f a :: es) ↔ Unchanged i es := by
  simp [Unchanged]

@[simp] theorem unchanged_weakened_cons {s : S} :
    Unchanged i (.weakened j s :: es) ↔ i ≠ j ∧ Unchanged i es := by
  simp only [Unchanged, List.mem_cons, not_or, Event.weakened.injEq, not_and]
  exact ⟨fun h => ⟨fun hij => (h s).1 hij rfl, fun t => (h t).2⟩,
    fun h t => ⟨fun hij => absurd hij h.1, h.2 t⟩⟩

@[simp] theorem unchanged_left_cons {o : Option Diagnostic} :
    Unchanged i (.left j o :: es) ↔ Unchanged i es := by
  simp [Unchanged]

end

namespace ConditionSystem

variable {c : ConditionSystem} {d : SummaryDomain S} {ask : Oracle σ}

/-- What an event does to a run. -/
inductive Step (c : ConditionSystem) (d : SummaryDomain S) (ask : Oracle σ) :
    Event S → Run S σ → Run S σ → Prop
  /-- A query is formed from the summaries at hand, and the oracle answers it. -/
  | asked {r : Run S σ} {i : Nat} {n : Node} {f : Expr} {answer : Answer} {oracle : σ} :
    c.nodes[i]? = some n → c.query d r.summaries n i = .ok f →
    ask r.oracle n.name.text { n.condition with formula := f } = (answer, oracle) →
    Step c d ask (.asked i f answer) r { r with queries := r.queries + 1, oracle }
  /-- A summary is weakened by an end state, and is another one then. -/
  | weakened {r : Run S σ} {i : Nat} {s s' : S} {t : EndState} :
    r.summaries[i]? = some s → d.join s t = .ok s' → s' ≠ s →
    Step c d ask (.weakened i s') r { r with summaries := r.summaries.set i s' }
  /-- The body is marked as visited, and the diagnostic, if there is one, is kept. -/
  | left (r : Run S σ) (i : Nat) (diagnostic : Option Diagnostic) :
    Step c d ask (.left i diagnostic) r
      { r with states := r.states.set i .stable, diagnostics := r.diagnostics ++ diagnostic.toList }

/-- A sequence of events that leads from one run to another. -/
inductive History (c : ConditionSystem) (d : SummaryDomain S) (ask : Oracle σ) :
    Run S σ → List (Event S) → Run S σ → Prop
  /-- Nothing happens. -/
  | nil (r : Run S σ) : History c d ask r [] r
  /-- One event, and then others. -/
  | cons {r r₁ r₂ : Run S σ} {e : Event S} {es : List (Event S)} :
    c.Step d ask e r r₁ → History c d ask r₁ es r₂ → History c d ask r (e :: es) r₂

theorem History.append {r r₁ r₂ : Run S σ} {es es' : List (Event S)}
    (h : c.History d ask r es r₁) (h' : c.History d ask r₁ es' r₂) :
    c.History d ask r (es ++ es') r₂ := by
  induction h with
  | nil => exact h'
  | cons hstep _ ih => exact .cons hstep (ih h')

/-- A summary that no event changes stays. -/
theorem History.getElem?_summaries {r r' : Run S σ} {es : List (Event S)}
    (h : c.History d ask r es r') {i : Nat} (hi : Unchanged i es) :
    r'.summaries[i]? = r.summaries[i]? := by
  induction h with
  | nil => rfl
  | @cons r r₁ r₂ e es hstep _ ih =>
    have hrest : Unchanged i es := fun s hs => hi s (List.mem_cons_of_mem _ hs)
    rw [ih hrest]
    cases hstep with
    | asked => rfl
    | left => rfl
    | @weakened r j s s' t hs hjoin hne =>
      refine List.getElem?_set_ne fun hij => ?_
      exact hi s' (hij ▸ List.mem_cons_self)

/-- There are as many summaries after the events as before. -/
theorem History.length_summaries {r r' : Run S σ} {es : List (Event S)}
    (h : c.History d ask r es r') : r'.summaries.length = r.summaries.length := by
  induction h with
  | nil => rfl
  | cons hstep _ ih =>
    rw [ih]
    cases hstep with
    | asked => rfl
    | left => rfl
    | weakened => exact List.length_set

end ConditionSystem

/-! ## Visits -/

/-- An answer ends a visit without a diagnostic only if the condition is valid. -/
theorem Node.eq_of_react_eq_finish_none {n : Node} {a : Answer}
    (h : n.react a = .ok (.finish none)) : a = ⟨a.models, .ok .correct⟩ := by
  obtain ⟨models, result⟩ := a
  unfold Node.react at h
  split at h
  · cases h
  · rename_i hresult
    dsimp only at hresult
    rw [hresult]
  · split at h
    · cases h
    · rename_i m _ _
      cases hproject : n.project m with
      | error e =>
        rw [hproject] at h
        cases h
      | ok t =>
        rw [hproject] at h
        cases h
  · cases h

/-- The run in the middle of a visit to a body. -/
def Run.during (r : Run S σ) (i : Nat) (v : Visit S σ) : Run S σ :=
  { r with
    summaries := r.summaries.set i v.summary, queries := r.queries + v.queries, oracle := v.oracle }

namespace ConditionSystem

variable {c : ConditionSystem} {d : SummaryDomain S} {ask : Oracle σ} {r : Run S σ}

/-- The events of a visit to a body, from the query made first to the last one. -/
structure Visited (c : ConditionSystem) (d : SummaryDomain S) (ask : Oracle σ) (r : Run S σ)
    (n : Node) (i : Nat) (v v' : Visit S σ) (es : List (Event S)) : Prop where
  /-- They lead from the run at the start to the run at the end. -/
  history : c.History d ask (r.during i v) es (r.during i v')
  /-- They change no other summary. -/
  others : ∀ j, j ≠ i → Unchanged j es
  /-- They change the body's own summary only if the visit says so. -/
  own : v'.changed = false → Unchanged i es
  /-- If there is no diagnostic, the last event is the answer that the condition holds, to the query
  that is formed from the summaries at the end. -/
  last : v'.outcome = .ok none → ∃ before f models,
    es = before ++ [.asked i f ⟨models, .ok .correct⟩] ∧
      c.query d (r.during i v').summaries n i = .ok f

variable [DecidableEq S]

/-- A visit that goes on to weaken the summary has a history. -/
theorem weaken_visited {n : Node} {i : Nat} (hn : c.nodes[i]? = some n)
    (hi : i < r.summaries.length) (v : Visit S σ) :
    ∃ es, c.Visited d ask r n i v
      (weaken d ask n (fun s => c.query d (r.summaries.set i s) n i) v) es := by
  have hself : (r.summaries.set i v.summary)[i]? = some v.summary := List.getElem?_set_self hi
  -- The rounds of a visit: each asks a query, and only the last of the cases goes on.
  fun_induction weaken d ask n (fun s => c.query d (r.summaries.set i s) n i) v with
  | case1 v e he =>
    exact ⟨[], .nil _, fun _ _ => unchanged_nil, fun _ => unchanged_nil, fun h => by cases h⟩
  | case2 v f hf answer oracle hask w e hreact =>
    exact ⟨[.asked i f answer], .cons (.asked hn hf hask) (.nil _), by simp, by simp,
      fun h => by cases h⟩
  | case3 v f hf answer oracle hask w diagnostic hreact =>
    refine ⟨[.asked i f answer], .cons (.asked hn hf hask) (.nil _), by simp, by simp, fun h => ?_⟩
    cases h
    refine ⟨[], f, answer.models, ?_, hf⟩
    rw [← Node.eq_of_react_eq_finish_none hreact]
    rfl
  | case4 v f hf answer oracle hask w t hreact e hjoin =>
    exact ⟨[.asked i f answer], .cons (.asked hn hf hask) (.nil _), by simp, by simp,
      fun h => by cases h⟩
  | case5 v f hf answer oracle hask w t hreact hjoin =>
    exact ⟨[.asked i f answer], .cons (.asked hn hf hask) (.nil _), by simp, by simp,
      fun h => by cases h⟩
  | case6 v f hf answer oracle hask w t hreact s hjoin hne ih =>
    obtain ⟨es, hes⟩ := ih (List.getElem?_set_self hi)
    have hweakened : c.Step d ask (.weakened i s) (r.during i w)
        (r.during i { w with summary := s, changed := true }) := by
      have hstep : c.Step d ask (.weakened i s) (r.during i w)
          { r.during i w with summaries := (r.during i w).summaries.set i s } :=
        .weakened hself hjoin hne
      rwa [Run.during, List.set_set] at hstep
    refine ⟨.asked i f answer :: .weakened i s :: es,
      .cons (.asked hn hf hask) (.cons hweakened hes.history), ?_, fun hfalse => ?_, fun hlast => ?_⟩
    · intro j hj
      simp [hj, hes.others j hj]
    · -- A visit that has changed the summary says so in the end.
      obtain ⟨-, hchanged⟩ | ⟨-, hchanged⟩ := weaken_cases d ask n
        (fun s => c.query d (r.summaries.set i s) n i) { w with summary := s, changed := true }
      all_goals exact Bool.noConfusion (hfalse.symm.trans hchanged)
    · obtain ⟨before, g, models, rfl, hg⟩ := hes.last hlast
      exact ⟨.asked i f answer :: .weakened i s :: before, g, models, rfl, hg⟩

/-- A visit that does not stop inference, with the events in it and at its end. -/
theorem visit_history {n : Node} {i : Nat} {s : S} {diagnostic : Option Diagnostic}
    (hn : c.nodes[i]? = some n) (hs : r.summaries[i]? = some s)
    (hv : (c.visit d ask r n i s).outcome = .ok diagnostic) :
    ∃ es, c.History d ask r es (afterVisit r i (c.visit d ask r n i s) diagnostic) ∧
      (∀ j, j ≠ i → Unchanged j es) ∧
      ((c.visit d ask r n i s).changed = false → Unchanged i es) ∧
      (diagnostic = none → ∃ before f models after,
        es = before ++ .asked i f ⟨models, .ok .correct⟩ :: after ∧ (∀ j, Unchanged j after) ∧
          c.query d (afterVisit r i (c.visit d ask r n i s) diagnostic).summaries n i = .ok f) := by
  obtain ⟨hi, -⟩ := List.getElem?_eq_some_iff.1 hs
  obtain ⟨es, hes⟩ : ∃ es, c.Visited d ask r n i ⟨s, false, 0, r.oracle, .ok none⟩
      (c.visit d ask r n i s) es := weaken_visited hn hi _
  have hstart : r.during i ⟨s, false, 0, r.oracle, .ok none⟩ = r := by
    unfold Run.during
    rw [set_of_getElem? hs]
    rfl
  have hhistory := hes.history
  rw [hstart] at hhistory
  -- The visit ends with the event of leaving the body.
  have hleft : c.Step d ask (.left i diagnostic) (r.during i (c.visit d ask r n i s))
      (afterVisit r i (c.visit d ask r n i s) diagnostic) := .left _ i diagnostic
  refine ⟨es ++ [.left i diagnostic], ?_, ?_, ?_, ?_⟩
  · exact hhistory.append (.cons hleft (.nil _))
  · intro j hj
    simpa using hes.others j hj
  · intro hfalse
    simpa using hes.own hfalse
  · rintro rfl
    obtain ⟨before, f, models, rfl, hf⟩ := hes.last hv
    exact ⟨before, f, models, [.left i none], by simp, by simp, hf⟩

end ConditionSystem

end Obligations
