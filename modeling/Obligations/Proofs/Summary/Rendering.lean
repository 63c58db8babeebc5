import Obligations.Proofs.Expr.Refinement
import Obligations.Proofs.Summary.Weakening

/-!
# Rendering over arbitrary terms

A context gives each name a term, and under a valuation the terms have values, which make up an end
state (`RenderContext.values`). The formula of a summary over the terms is true if the summary admits
that state; the converse holds for summaries by observed values, and for summaries by predicates
where every predicate that the formula is about has a truth value in the state
(`render_holds_iff_admits`). It fails elsewhere: a term may be a literal, and a literal that is
folded away takes with it what has no value (`render_not_determined`).

The two formulas, over the terms of the context and over the names of the state, are compared by
refinement: a name of the state is never a literal, so that less is folded away in the formula over
the names.
-/

namespace Obligations

/-- A substitution that drops `old` and puts no literal for a name gives a literal only where every
substitution that drops `old` gives it. -/
theorem Expr.substAt_eq_literal {f g : Moment → Subst} {l : Literal}
    (hf : ∀ t n a, f t n = some a → a.isLiteral = false) : ∀ (e : Expr) (t t' : Moment),
      e.substAt f false t = .literal l → e.substAt g false t' = .literal l
  | literal _, _, _, h => h
  | symbol n, t, _, h => by
    rw [substAt] at h
    cases hn : f t n with
    | none =>
      rw [hn] at h
      cases h
    | some a =>
      rw [hn, Option.getD_some] at h
      subst h
      cases hf t n _ hn
  | old a, _, _, h => substAt_eq_literal hf a .entry .entry h
  | unary _ _, _, _, h => nomatch h
  | binary _ _ _, _, _, h => nomatch h
  | apply _ _, _, _, h => nomatch h

namespace RenderContext

variable {c : RenderContext} {v : Valuation}

/-- Every term of the context has a value. -/
def Evaluates (c : RenderContext) (v : Valuation) : Prop :=
  ∀ n e, c.find? n = some e → ∃ a, e.eval v = .ok a

theorem evaluates_of_entries (h : ∀ p ∈ c.entries, ∃ a, p.2.eval v = .ok a) : c.Evaluates v := by
  intro n e he
  obtain ⟨p, hp, he⟩ := List.exists_of_findSome?_eq_some he
  split_ifs at he
  cases he
  exact h p hp

/-- The end state in which each name has the value of its term. -/
def values (c : RenderContext) (v : Valuation) : EndState :=
  ⟨c.entries.filterMap fun p => (p.2.eval v).toOption.map (p.1, ·)⟩

/-- A name has the value of its term, if that has one. -/
theorem find?_values {n : Name} (h : ∀ e, c.find? n = some e → ∃ a, e.eval v = .ok a) :
    (c.values v).find? n = (c.find? n).bind fun e => (e.eval v).toOption := by
  obtain ⟨es⟩ := c
  unfold values NameMap.find? at *
  dsimp only at *
  induction es with
  | nil => rfl
  | cons p es ih =>
    obtain ⟨m, e⟩ := p
    rw [List.findSome?_cons] at h ⊢
    by_cases hm : m = n
    · subst hm
      obtain ⟨a, ha⟩ := h e (by simp)
      rw [List.filterMap_cons, ha]
      simp [Except.toOption, ha]
    · have hrest := ih (by simpa [hm] using h)
      rw [List.filterMap_cons]
      cases (e.eval v).toOption with
      | none => simpa [hm] using hrest
      | some a => simpa [hm] using hrest

theorem valuesOf_values (h : c.Evaluates v) : (c.values v).ValuesOf c v where
  isSome_iff n := by
    rw [find?_values (h n)]
    cases hn : c.find? n with
    | none => rfl
    | some e =>
      obtain ⟨a, ha⟩ := h n e hn
      simp [ha, Except.toOption]
  value n e hn := by
    rw [find?_values (h n), hn]
    rfl

end RenderContext

/-- The terms of which an end state holds the values have values. -/
theorem EndState.ValuesOf.evaluates {t : EndState} {c : RenderContext} {v : Valuation}
    (h : t.ValuesOf c v) : c.Evaluates v := by
  intro n e he
  obtain ⟨a, ha⟩ := Option.isSome_iff_exists.1 ((h.isSome_iff n).1 (by rw [he]; rfl))
  exact ⟨a, Expr.eval_eq_ok_iff.2 ((h.value n e he).trans ha)⟩

/-! ## Over terms and over names -/

section

variable {c own : RenderContext} {v : Valuation} {t : EndState} {p : Expr}

/-- Over terms a predicate refines what it is over the names of the state of their values. -/
theorem EndState.ValuesOf.refines_restate (hc : t.ValuesOf c v) (hown : t.OwnTerms own)
    (hp : t.Binds p) : Expr.Refines t.valuation v (own.restate p) (c.restate p) where
  eval x hx := by
    rw [Expr.eval_eq_ok_iff, hown.eval_restate hp, ← Expr.eval_eq_ok_iff] at hx
    exact hc.eval_restate_eq_ok hp hx
  literal l hl := by
    -- The terms over the state are names, also under `old`, and none of them is a literal.
    have hterm : ∀ n e, own.find? n = some e → e.isLiteral = false := by
      intro n e he
      rcases hown.term n e he with rfl | ⟨x, -, rfl⟩ <;> rfl
    have hcurrent : ∀ n e, own.current? n = some e → e.isLiteral = false := by
      intro n e he
      rcases Option.or_eq_some_iff.1 he with he | ⟨-, he⟩
      · exact hterm _ e he
      · exact hterm _ e he
    refine Expr.substAt_eq_literal (fun m n e he => ?_) p .current .current hl
    cases m with
    | current => exact hcurrent n e he
    | entry =>
      rcases Option.or_eq_some_iff.1 he with he | ⟨-, he⟩
      · exact hterm _ e he
      · exact hcurrent n e he

end

namespace Summary

namespace Predicates

variable {d : Predicates} {c own : RenderContext} {v w : Valuation} {t : EndState}

/-- Refined terms for the entry predicates give refined conjunctions. -/
theorem renderConjunct_refines {terms terms' : List (Option Expr)} {n : Nat}
    (h : List.Forall₂ (Option.Rel (Expr.Refines v w)) terms terms') (k : Conjunct n) :
    Expr.Refines v w (renderConjunct terms k) (renderConjunct terms' k) := by
  refine Expr.Refines.conjAll ?_
  generalize k.toList = signs
  induction h generalizing signs with
  | nil => exact .nil
  | cons he _ ih =>
    cases signs with
    | nil => exact .nil
    | cons s signs =>
      have hrest := ih signs
      rcases he with he | _
      · rcases s with _ | (_ | _)
        · exact hrest
        · exact .cons he.not hrest
        · exact .cons he hrest
      · exact hrest

/-- Over terms the formula of a summary refines what it is over the names of the state of their
values. -/
theorem formula_refines {s : PredicateSummary d}
    (h : ∀ p ∈ d.reads s, Expr.Refines v w (own.restate p) (c.restate p)) :
    Expr.Refines v w (d.formula own s) (d.formula c s) := by
  cases s with
  | none => exact .bool false
  | some cs =>
    have hterms : List.Forall₂ (Option.Rel (Expr.Refines v w)) (d.preTerms own cs)
        (d.preTerms c cs) := by
      unfold preTerms
      rw [List.forall₂_map_left_iff, List.forall₂_map_right_iff, List.forall₂_same]
      intro p hp
      split_ifs with hocc
      · exact .some (h _ (mem_reads_of_occurs hp hocc))
      · exact .none
    refine Expr.Refines.conjAll ?_
    rw [List.forall₂_map_left_iff, List.forall₂_map_right_iff, List.forall₂_same]
    intro q hq
    refine .impl (.disjAny ?_) (h _ (mem_reads_of_mem_clauses hq))
    rw [List.forall₂_map_left_iff, List.forall₂_map_right_iff, List.forall₂_same]
    exact fun k _ => renderConjunct_refines hterms k

/-- Over two contexts that give the predicates of a summary the same truth values, the formula of the
summary is true or not alike. -/
theorem formula_holds_iff_of_decides {s : PredicateSummary d} (h : d.Decides t c v s)
    (h' : d.Decides t own w s) : (d.formula c s).Holds v ↔ (d.formula own s).Holds w := by
  cases s with
  | none => exact iff_of_false Expr.not_holds_false Expr.not_holds_false
  | some cs => rw [formula_holds_iff h, formula_holds_iff h']

end Predicates

variable {c : RenderContext} {v : Valuation}

/-- Over terms that have values, every summary can be rendered that is about names with terms, and
its formula is true if the summary admits the state of their values. For a summary by observed
values the converse holds, and for one by predicates it holds if each of the predicates that the
formula is about has a truth value in the state. A predicate with a truth value in the state has it
over the terms too. -/
theorem render_holds_iff_admits (hc : c.Evaluates v) :
    (∀ bound (s : ConstantSummary), (∀ x ∈ ConstantSummary.reads s, (c.current? x).isSome) →
      ∃ e, (constants bound).render s c = .ok e ∧ ∀ own, (c.values v).OwnTerms own →
        (e.Holds v ↔ (constants bound).Admits s (c.values v) own)) ∧
    (∀ (d : Predicates) (s : PredicateSummary d), (∀ p ∈ d.reads s, c.Maps p) →
      ∃ e, d.domain.render s c = .ok e ∧ ∀ own, (c.values v).OwnTerms own →
        (d.domain.Admits s (c.values v) own → e.Holds v) ∧
          ((∀ p ∈ d.reads s, ∃ b, (c.values v).decide p = .ok b) →
            (e.Holds v ↔ d.domain.Admits s (c.values v) own))) ∧
    ∀ l p, c.Maps p → ∃ q, instantiate l c p = .ok q ∧
      ∀ b, (c.values v).decide p = .ok b → q.eval v = .ok (.bool b) := by
  have hvalues := RenderContext.valuesOf_values hc
  refine ⟨fun bound s hs => ?_, fun d s hs => ?_, fun l p hp => ?_⟩
  · obtain ⟨e, he⟩ : ∃ e, (constants bound).render s c = .ok e := exists_constants_render hs
    have hiff : (∃ e, (constants bound).render s c = .ok e ∧ e.Holds v) ↔ _ :=
      constants_render_holds_iff hvalues
    refine ⟨e, he, fun own hown => ?_⟩
    rw [constants_admits_iff hown, ← hiff, he]
    simp
  · have hbinds : ∀ p ∈ d.reads s, (c.values v).Binds p := fun p hp => hvalues.maps_iff.1 (hs p hp)
    refine ⟨_, Predicates.render_eq_ok hs, fun own hown => ?_⟩
    rw [Predicates.admits_iff_formula_holds fun p hp => hown.valuesOf.maps_iff.2 (hbinds p hp)]
    constructor
    · exact (Predicates.formula_refines fun p hp => hvalues.refines_restate hown (hbinds p hp)).eval _
    · intro hdecide
      -- Where every predicate read has a truth value, the formula has the same one over the state
      -- and over the terms.
      have hdecided : ∀ p ∈ d.reads s,
          (c.values v).Binds p ∧ p.Decided (c.values v).valuation := fun p hp =>
        ⟨hbinds p hp, (hdecide p hp).imp fun _ => Predicates.decide_eq_ok_iff.1⟩
      exact Predicates.formula_holds_iff_of_decides
        (Predicates.decides_of_decided hvalues hdecided)
        (Predicates.decides_of_decided hown.valuesOf hdecided)
  · exact ⟨_, instantiate_eq_ok hp, fun b hb =>
      hvalues.eval_restate_eq_ok (hvalues.maps_iff.1 hp) (Predicates.decide_eq_ok_iff.1 hb)⟩

/-- The terms `x + 1` for `g` and `y` for its value on entry. -/
def increment : RenderContext :=
  ⟨[(⟨"g"⟩, .binary .add (.symbol ⟨"x"⟩) (.int 1)), (Name.onEntry ⟨"g"⟩, .symbol ⟨"y"⟩)]⟩

/-- A valuation of `x` and `y`. -/
def point (x y : Int) : Valuation where
  symbol n := if n = ⟨"x"⟩ then some (.int x) else if n = ⟨"y"⟩ then some (.int y) else none

/-- The predicate `g == old(g)`. -/
def steady : Expr := .binary .eq (.symbol ⟨"g"⟩) (.old (.symbol ⟨"g"⟩))

theorem increment_evaluates (x y : Int) : increment.Evaluates (point x y) := by
  refine RenderContext.evaluates_of_entries ?_
  simp only [increment, List.forall_mem_cons, List.not_mem_nil, false_imp_iff, implies_true,
    and_true]
  exact ⟨⟨_, rfl⟩, ⟨_, rfl⟩⟩

/-- A summary weakened by a state in which `g` has changed from 0 to 5 says of `x + 1` that it is 4 or
5, or that it is `y` if `y` is positive. Where `x` is 3 and `y` is 4, both formulas are true. -/
theorem render_holds_iff_admits_increment :
    (∃ s e, (constants 2).join [(⟨"g"⟩, .values [4])] (fromTo 0 5) = .ok s ∧
      (constants 2).render s increment = .ok e ∧ e.Holds (point 3 4)) ∧
    (∃ s e, steadiness.domain.join none (fromTo 0 5) = .ok s ∧
      steadiness.domain.render s increment = .ok e ∧ e.Holds (point 3 4)) ∧
    ∃ q, instantiate .initial increment steady = .ok q ∧ q.eval (point 3 4) = .ok (.bool true) := by
  have hvalues : increment.values (point 3 4) = fromTo 4 4 := rfl
  have hown : (increment.values (point 3 4)).OwnTerms (fromTo 4 4).ownSymbols :=
    EndState.ownTerms_ownSymbols _
  obtain ⟨hconstants, hpredicates, hinstantiate⟩ :=
    render_holds_iff_admits (increment_evaluates 3 4)
  -- The predicates are over `g` only, which has a term.
  have hbinds := fun p hp => (RenderContext.valuesOf_values (increment_evaluates 3 4)).maps_iff.2
    ((steadiness_fits 4 4).binds p hp)
  refine ⟨?_, ?_, ?_⟩
  · obtain ⟨e, he, hiff⟩ := hconstants 2 [(⟨"g"⟩, .values [4, 5])] (by decide)
    refine ⟨_, e, rfl, he, (hiff _ hown).2 ((constants_admits_iff hown).2 ⟨by simp, ?_⟩)⟩
    intro x vs hx
    cases List.mem_singleton.1 hx
    exact ⟨4, by decide, rfl⟩
  · obtain ⟨s, hs⟩ : ∃ s, steadiness.domain.join none (fromTo 0 5) = .ok s := ⟨_, rfl⟩
    obtain ⟨cs, rfl, -⟩ := Predicates.exists_of_join_eq_ok hs
    obtain ⟨e, he, h⟩ := hpredicates steadiness (some cs) fun p hp =>
      hbinds p (Predicates.mem_of_mem_reads hp)
    refine ⟨_, e, hs, he, (h _ hown).1 ?_⟩
    refine (Predicates.domain_admits_iff hown (steadiness_fits 4 4) cs).2 fun q hq _ => ?_
    rw [List.mem_singleton.1 (List.of_mem_zip hq).2]
    rfl
  · obtain ⟨q, hq, hvalue⟩ := hinstantiate .initial steady (hbinds _ (by simp [steadiness, steady]))
    exact ⟨q, hq, hvalue true rfl⟩

/-- The entry predicate `1 div x == 1` and the end predicate `b`. -/
def quotient : Predicates where
  pre := [.binary .eq (.binary .div (.int 1) (.symbol ⟨"x"⟩)) (.int 1)]
  post := [.symbol ⟨"b"⟩]
  bound := 3
  lexicon := .initial

/-- An end state with values of `x` and `b`. -/
def division (x : Int) (b : Bool) : EndState := ⟨[(⟨"x"⟩, .int x), (⟨"b"⟩, .bool b)]⟩

/-- What a summary admits does not determine where its formula is true. A summary of `b` wherever
`1 div x == 1` is false is true over the terms 0 and `true`, as the implication is folded away, but has
no value over `x` and `b` where these are 0 and true. -/
theorem render_not_determined :
    ∃ s, quotient.domain.join none (division 1 false) = .ok s ∧
      ∃ c c' : RenderContext, ∃ v : Valuation, c.Evaluates v ∧ c'.Evaluates v ∧
        c.values v = division 0 true ∧ c'.values v = division 0 true ∧
        ∃ e e', quotient.domain.render s c = .ok e ∧ quotient.domain.render s c' = .ok e' ∧
          e.Holds v ∧ ¬ e'.Holds v ∧
          ¬ quotient.domain.Admits s (division 0 true) (division 0 true).ownSymbols := by
  let s : PredicateSummary quotient := some [Antichain.always.exclude ⟨#[true], rfl⟩]
  let c : RenderContext := ⟨[(⟨"x"⟩, .int 0), (⟨"b"⟩, .bool true)]⟩
  let v : Valuation := (division 0 true).valuation
  have hmaps : ∀ p ∈ quotient.pre ++ quotient.post,
      c.Maps p ∧ (division 0 true).ownSymbols.Maps p := by
    decide
  have hfolded : quotient.formula c s = .bool true := by decide +kernel
  have hwhole : quotient.formula (division 0 true).ownSymbols s =
      .binary .implies (Expr.not (.binary .eq (.binary .div (.int 1) (.symbol ⟨"x"⟩)) (.int 1)))
        (.symbol ⟨"b"⟩) := by
    decide +kernel
  -- The premise divides by zero.
  have hnot : ¬ (quotient.formula (division 0 true).ownSymbols s).Holds v := by
    rw [hwhole]
    exact fun h => nomatch h
  have hc : c.Evaluates v := RenderContext.evaluates_of_entries (by
    simp only [c, List.forall_mem_cons, List.not_mem_nil, false_imp_iff, implies_true, and_true]
    exact ⟨⟨_, rfl⟩, ⟨_, rfl⟩⟩)
  have hown : (division 0 true).ownSymbols.Evaluates v :=
    (EndState.ownTerms_ownSymbols _).valuesOf.evaluates
  refine ⟨s, rfl, c, (division 0 true).ownSymbols, v, hc, hown, rfl, rfl, _, _,
    Predicates.render_eq_ok (s := s) fun p hp => (hmaps p (Predicates.mem_of_mem_reads hp)).1,
    Predicates.render_eq_ok (s := s) fun p hp => (hmaps p (Predicates.mem_of_mem_reads hp)).2,
    ?_, hnot, ?_⟩
  · rw [hfolded]
    exact Expr.holds_true
  · rw [Predicates.admits_iff_formula_holds fun p hp =>
      (hmaps p (Predicates.mem_of_mem_reads hp)).2]
    exact hnot

end Summary

end Obligations
