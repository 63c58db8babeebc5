import Obligations.Summary.Domain
import Obligations.Proofs.Expr.Connectives
import Obligations.Proofs.Expr.Substitution
import Obligations.Proofs.NameMap

/-!
# The end states that a summary admits

A summary admits an end state if its formula over the names of the state is true there
(`SummaryDomain.Admits`). A name of the state denotes the value that the state has for it, whether
the formula writes it as a name or, for a value on entry, as a variable under `old`
(`EndState.OwnTerms`). So a predicate whose names all occur in the state has, over these terms, the
value that it has in the state (`EndState.OwnTerms.eval_restate`). The same holds of any terms, in
the state of their values (`EndState.ValuesOf`).
-/

namespace Obligations

/-- A context gives exactly the names of an end state a term, and each name a term that denotes it:
the name itself or, for a value on entry, the variable under `old`. -/
structure EndState.OwnTerms (t : EndState) (c : RenderContext) : Prop where
  /-- The names are those of the end state. -/
  isSome_iff : ∀ n, (c.find? n).isSome ↔ (t.find? n).isSome
  /-- A term denotes its name. -/
  term : ∀ n e, c.find? n = some e → e = .symbol n ∨ ∃ x, n = Name.onEntry x ∧ e = .old (.symbol x)

/-- The end state gives a value to every name that a predicate reads: to a name read under `old` a
value on entry, to any other name a current value. -/
def EndState.Binds (t : EndState) (p : Expr) : Prop :=
  (∀ n ∈ p.currentNames, (t.current? n).isSome) ∧ ∀ n ∈ p.entryNames, (t.find? n.onEntry).isSome

/-- Over the given terms for the names of an end state, the formula of a summary is true in the
state. -/
def SummaryDomain.Admits {S : Type} (d : SummaryDomain S) (s : S) (t : EndState)
    (c : RenderContext) : Prop :=
  ∃ e, d.render s c = .ok e ∧ e.Holds t.valuation

/-- A join weakens every summary so that it admits the end state joined and every end state that it
admitted before, among the end states that `fits` selects. -/
def SummaryDomain.JoinWeakens {S : Type} (d : SummaryDomain S) (fits : EndState → Prop) : Prop :=
  ∀ s s' t, d.join s t = .ok s' → fits t →
    (∀ c, t.OwnTerms c → d.Admits s' t c) ∧
      ∀ u c, fits u → u.OwnTerms c → d.Admits s u c → d.Admits s' u c

/-- An end state holds the values of the terms of a context under a valuation: it has exactly the
names of the context, and for each name the value of its term. -/
structure EndState.ValuesOf (t : EndState) (c : RenderContext) (v : Valuation) : Prop where
  /-- The names are those of the end state. -/
  isSome_iff : ∀ n, (c.find? n).isSome ↔ (t.find? n).isSome
  /-- A term has the value that the state has for its name. -/
  value : ∀ n e, c.find? n = some e → (e.eval v).toOption = t.find? n

/-- There is a term for every name that a predicate reads: for a name read under `old` one for the
value on entry, for any other name one for the current value. -/
def RenderContext.Maps (c : RenderContext) (p : Expr) : Prop :=
  (∀ n ∈ p.currentNames, (c.current? n).isSome) ∧ ∀ n ∈ p.entryNames, (c.find? n.onEntry).isSome

instance (c : RenderContext) (p : Expr) : Decidable (c.Maps p) :=
  inferInstanceAs (Decidable (_ ∧ _))

/-- A predicate with the terms of a context in place of its names. -/
def RenderContext.restate (c : RenderContext) (p : Expr) : Expr :=
  p.substituteOld c.current? fun n => c.find? n.onEntry

/-- Terms that denote the names of an end state have the values that the state has. -/
theorem EndState.OwnTerms.valuesOf {t : EndState} {c : RenderContext} (h : t.OwnTerms c) :
    t.ValuesOf c t.valuation where
  isSome_iff := h.isSome_iff
  value n e he := by
    obtain ⟨a, ha⟩ := Option.isSome_iff_exists.1 ((h.isSome_iff n).1 (by rw [he]; rfl))
    rw [ha]
    rcases h.term n e he with rfl | ⟨x, rfl, rfl⟩
    · have hsymbol : t.valuation.symbol n = some a := by
        change (t.find? n).or _ = some a
        rw [ha]
        rfl
      change ((t.valuation.symbol n).elim _ _ : Except EvalError Value).toOption = some a
      rw [hsymbol]
      rfl
    · change ((t.find? x.onEntry).elim _ _ : Except EvalError Value).toOption = some a
      rw [ha]
      rfl

/-- The values of arguments, under the names that stand for them, make the state of the values of the
arguments. -/
theorem EndState.valuesOf_zip {keys : List Name} {args : List Expr} {xs : List Value}
    {v : Valuation} (h : Expr.evalAllAt v .current args = .ok xs) :
    EndState.ValuesOf (.ofList (keys.zip xs)) (.ofList (keys.zip args)) v := by
  have hrel := NameMap.rel_find?_ofList_zip (Expr.evalAllAt_eq_ok.1 h) keys
  refine ⟨fun n => ?_, fun n e he => ?_⟩
  · have hn := hrel n
    generalize (NameMap.ofList (keys.zip args)).find? n = o at hn ⊢
    generalize (NameMap.ofList (keys.zip xs)).find? n = o' at hn ⊢
    cases hn <;> simp
  · have hn := hrel n
    rw [he] at hn
    generalize (NameMap.ofList (keys.zip xs)).find? n = o at hn ⊢
    cases hn with
    | some hx => exact congrArg Except.toOption hx

namespace EndState.ValuesOf

variable {t : EndState} {c : RenderContext} {v : Valuation}

/-- What stands for the current value of a name has that value. -/
theorem eval_current (h : t.ValuesOf c v) {n : Name} {e : Expr} (he : c.current? n = some e) :
    (e.eval v).toOption = t.current? n := by
  have hnone : ∀ m, c.find? m = none → t.find? m = none := by
    intro m hm
    have hiff := h.isSome_iff m
    rw [hm] at hiff
    exact Option.not_isSome_iff_eq_none.1 fun hsome => by simpa using hiff.2 hsome
  unfold NameMap.current? at he ⊢
  cases hn : c.find? n with
  | some e' =>
    rw [hn] at he
    cases he
    have hvalue := h.value n _ hn
    obtain ⟨a, ha⟩ := Option.isSome_iff_exists.1 ((h.isSome_iff n).1 (by rw [hn]; rfl))
    rw [hvalue, ha]
    rfl
  | none =>
    rw [hn, Option.none_or] at he
    rw [hnone n hn, Option.none_or]
    exact h.value _ _ he

/-- There is a term for the current value of a name if the end state has the value. -/
theorem isSome_current (h : t.ValuesOf c v) (n : Name) :
    (c.current? n).isSome ↔ (t.current? n).isSome := by
  unfold NameMap.current?
  rw [Option.isSome_or, Option.isSome_or, Bool.or_eq_true, Bool.or_eq_true, h.isSome_iff,
    h.isSome_iff]

/-- There are terms for the names that a predicate reads if the end state has values for them. -/
theorem maps_iff (h : t.ValuesOf c v) {p : Expr} : c.Maps p ↔ t.Binds p :=
  and_congr (forall₂_congr fun n _ => h.isSome_current n)
    (forall₂_congr fun n _ => h.isSome_iff n.onEntry)

/-- A predicate has over terms the value that it has in the state of their values, functions being
interpreted alike. -/
theorem eval_restate (h : t.ValuesOf c v) {p : Expr} (hp : t.Binds p) :
    ((c.restate p).eval v).toOption =
      (p.eval { t.valuation with application := v.application }).toOption := by
  refine Expr.toOption_eval_substituteOld rfl (fun n hn => ?_) fun n hn => ?_
  · obtain ⟨e, he⟩ := Option.isSome_iff_exists.1 ((h.isSome_current n).2 (hp.1 n hn))
    rw [he, Option.getD_some, h.eval_current he]
    change t.current? n = ((t.current? n).elim _ _ : Except EvalError Value).toOption
    cases t.current? n <;> rfl
  · obtain ⟨e, he⟩ := Option.isSome_iff_exists.1 ((h.isSome_iff n.onEntry).2 (hp.2 n hn))
    rw [he, Option.some_or, Option.getD_some, h.value _ _ he]
    change t.find? n.onEntry = ((t.find? n.onEntry).elim _ _ : Except EvalError Value).toOption
    cases t.find? n.onEntry <;> rfl

/-- A value that a predicate has in an end state it has over terms too. -/
theorem eval_restate_eq_ok (h : t.ValuesOf c v) {p : Expr} (hp : t.Binds p) {x : Value}
    (hx : p.eval t.valuation = .ok x) : (c.restate p).eval v = .ok x := by
  rw [Expr.eval_eq_ok_iff, h.eval_restate hp, ← Expr.eval_eq_ok_iff]
  -- No function has a value in an end state.
  exact Expr.evalAt_mono (fun m n y hy => by cases m <;> exact hy)
    (fun f xs y hy => absurd (show none = some y from hy) nofun) p .current x hx

end EndState.ValuesOf

/-- A predicate can be stated over terms for all names that it reads. -/
theorem instantiate_eq_ok {l : Lexicon} {c : RenderContext} {p : Expr} (h : c.Maps p) :
    instantiate l c p = .ok (c.restate p) := by
  have h₁ : (l.sortedSet p.currentNames).find? (fun n => (c.current? n).isNone) = none := by
    rw [List.find?_eq_none]
    intro n hn
    have hsome := h.1 n (Lexicon.mem_sortedSet.1 hn)
    rw [Option.isSome_iff_ne_none] at hsome
    simpa using hsome
  have h₂ : (l.sortedSet p.entryNames).find? (fun n => (c.find? n.onEntry).isNone) = none := by
    rw [List.find?_eq_none]
    intro n hn
    have hsome := h.2 n (Lexicon.mem_sortedSet.1 hn)
    rw [Option.isSome_iff_ne_none] at hsome
    simpa using hsome
  unfold instantiate
  rw [h₁, h₂]
  rfl

/-- A predicate that is stated over terms reads only names for which there are terms. -/
theorem current_isSome_of_instantiate {l : Lexicon} {c : RenderContext} {p q : Expr}
    (h : instantiate l c p = .ok q) {n : Name} (hn : n ∈ p.currentNames) :
    (c.current? n).isSome := by
  unfold instantiate at h
  by_contra hnone
  -- Some name without a term is found, if not this one.
  have hfound : ((l.sortedSet p.currentNames).find? fun n => (c.current? n).isNone).isSome := by
    rw [List.find?_isSome]
    exact ⟨n, Lexicon.mem_sortedSet.2 hn, by simpa using hnone⟩
  obtain ⟨m, hm⟩ := Option.isSome_iff_exists.1 hfound
  rw [hm] at h
  cases h

/-- A predicate all of whose names an end state has has, over the terms of the state, the value that it
has in the state. -/
theorem EndState.OwnTerms.eval_restate {t : EndState} {c : RenderContext} {p : Expr}
    (hc : t.OwnTerms c) (hp : t.Binds p) :
    ((c.restate p).eval t.valuation).toOption = (p.eval t.valuation).toOption :=
  hc.valuesOf.eval_restate hp

end Obligations
