import Mathlib.Data.List.Perm.Subperm
import Obligations.Proofs.Summary.Constants

/-!
# How strong summaries by observed values are

A summary is at most another one if it has observed no more (`ConstantSummary.AtMost`); it permits
no more end states then (`ConstantSummary.AtMost.permits`). Joining an end state to a summary is the
weakest way of permitting it: if a greater summary permits the state, it stays greater
(`ConstantSummary.AtMost.join`), because a variable is left unconstrained only when more values than
the bound have been observed, and then the greater summary, which is made by joins too, has lost
count as well.
-/

namespace Obligations

/-- Joins of end states lead from one summary to the other. -/
inductive SummaryDomain.JoinsTo {S : Type} (d : SummaryDomain S) (s : S) : S → Prop
  /-- No end state is joined. -/
  | refl : JoinsTo d s s
  /-- A last end state is joined. -/
  | join {s₁ s₂ : S} {t : EndState} : JoinsTo d s s₁ → d.join s₁ t = .ok s₂ → JoinsTo d s s₂

namespace Summary

variable {bound : Nat} {i v : Int} {o o' : Observed} {s s' : ConstantSummary} {t : EndState}

/-! ## Variables -/

namespace Observed

/-- What is known of a variable is at most what is known in another case: nothing has been observed,
or only values that have been observed in the other case too, or anything is possible there. -/
def AtMost : Observed → Observed → Prop
  | unobserved, _ | _, unconstrained => True
  | values vs, values ws => vs ⊆ ws
  | _, _ => False

/-- What is known of a variable permits a value. -/
def Permits : Observed → Option Value → Prop
  | unobserved, _ => False
  | values vs, a => ∃ i ∈ vs, a = some (.int i)
  | unconstrained, _ => True

instance : (o : Observed) → (a : Option Value) → Decidable (o.Permits a)
  | unobserved, _ => inferInstanceAs (Decidable False)
  | values vs, a => inferInstanceAs (Decidable (∃ i ∈ vs, a = some (.int i)))
  | unconstrained, _ => inferInstanceAs (Decidable True)

/-- The values are in ascending order and not more than the bound. -/
def Kept (bound : Nat) : Observed → Prop
  | values vs => vs.Pairwise (· < ·) ∧ vs.length ≤ bound
  | _ => True

theorem AtMost.refl (o : Observed) : o.AtMost o := by
  cases o with
  | values vs => exact List.Subset.refl vs
  | unobserved | unconstrained => trivial

theorem AtMost.trans {u : Observed} (h : o.AtMost o') (h' : o'.AtMost u) : o.AtMost u := by
  cases u with
  | unconstrained => cases o <;> trivial
  | unobserved =>
    cases o' with
    | unobserved => exact h
    | values | unconstrained => exact h'.elim
  | values us =>
    cases o' with
    | unobserved =>
      cases o with
      | unobserved => trivial
      | values | unconstrained => exact h.elim
    | unconstrained => exact h'.elim
    | values ws =>
      cases o with
      | unobserved => trivial
      | values vs => exact List.Subset.trans h h'
      | unconstrained => exact h.elim

/-- After a further value no less is possible. -/
theorem AtMost.observe_self : o.AtMost (o.observe bound i) := by
  cases o with
  | unobserved | unconstrained => trivial
  | values vs =>
    simp only [Observed.observe]
    split_ifs
    · trivial
    · exact fun x hx => mem_insertValue.2 (.inr hx)

theorem AtMost.permits {a : Option Value} (h : o.AtMost o') (ho : o.Permits a) : o'.Permits a := by
  cases o with
  | unobserved => exact ho.elim
  | unconstrained =>
    cases o' with
    | unconstrained => trivial
    | unobserved | values => exact h.elim
  | values vs =>
    cases o' with
    | unobserved => exact h.elim
    | unconstrained => trivial
    | values ws =>
      obtain ⟨i, hi, ha⟩ := ho
      exact ⟨i, h hi, ha⟩

end Observed

theorem pairwise_insertValue {vs : List Int} (h : vs.Pairwise (· < ·)) :
    (insertValue v vs).Pairwise (· < ·) := by
  induction vs with
  | nil => exact List.pairwise_singleton ..
  | cons w ws ih =>
    obtain ⟨hw, hws⟩ := List.pairwise_cons.1 h
    unfold insertValue
    split_ifs with hlt heq
    · refine List.pairwise_cons.2 ⟨List.forall_mem_cons.2 ⟨hlt, fun x hx => ?_⟩, h⟩
      exact Int.lt_trans hlt (hw x hx)
    · exact h
    · refine List.pairwise_cons.2 ⟨fun x hx => ?_, ih hws⟩
      rcases mem_insertValue.1 hx with rfl | hx
      · omega
      · exact hw x hx

namespace Observed

theorem Kept.observe (hbound : 1 ≤ bound) (h : o.Kept bound) : (o.observe bound i).Kept bound := by
  cases o with
  | unobserved => exact ⟨List.pairwise_singleton .., hbound⟩
  | unconstrained => trivial
  | values vs =>
    simp only [Observed.observe]
    split_ifs with hlt
    · trivial
    · exact ⟨pairwise_insertValue h.1, Nat.not_lt.1 hlt⟩

/-- A further value that is permitted where more is possible keeps what is known below that. -/
theorem AtMost.observe (h : o.AtMost o') (ho : o.Kept bound) (ho' : o'.Kept bound)
    (hi : o'.Permits (some (.int i))) : (o.observe bound i).AtMost o' := by
  cases o' with
  | unobserved => exact hi.elim
  | unconstrained => cases o.observe bound i <;> trivial
  | values ws =>
    obtain ⟨j, hj, heq⟩ := hi
    cases heq
    cases o with
    | unobserved => exact List.cons_subset.2 ⟨hj, List.nil_subset _⟩
    | unconstrained => exact h.elim
    | values vs =>
      have hsub : insertValue i vs ⊆ ws := fun x hx =>
        (mem_insertValue.1 hx).elim (fun heq => heq ▸ hj) fun hx => h hx
      -- The values are different ones, so that they are no more than those they are among.
      have hnodup : (insertValue i vs).Nodup :=
        (pairwise_insertValue ho.1).imp fun hlt => Int.ne_of_lt hlt
      have hle : (insertValue i vs).length ≤ bound :=
        Nat.le_trans (List.subperm_of_subset hnodup hsub).length_le ho'.2
      simp only [Observed.observe]
      rwa [if_neg (Nat.not_lt.2 hle)]

end Observed

/-! ## Summaries -/

namespace ConstantSummary

/-- The summaries are about the same variables, and of each no more is known to be possible. -/
def AtMost (s s' : ConstantSummary) : Prop :=
  List.Forall₂ (fun p q => p.1 = q.1 ∧ p.2.AtMost q.2) s s'

/-- The summary permits the value that an end state has for each variable. -/
def Permits (s : ConstantSummary) (t : EndState) : Prop :=
  ∀ p ∈ s, p.2.Permits (t.current? p.1)

instance (s : ConstantSummary) (t : EndState) : Decidable (s.Permits t) :=
  inferInstanceAs (Decidable (∀ p ∈ s, p.2.Permits (t.current? p.1)))

/-- Of each variable no more values than the bound are kept, in ascending order. -/
def Kept (bound : Nat) (s : ConstantSummary) : Prop := ∀ p ∈ s, p.2.Kept bound

theorem AtMost.trans {u : ConstantSummary} (h : s.AtMost s') (h' : s'.AtMost u) : s.AtMost u := by
  induction h generalizing u with
  | nil => exact h'
  | cons hfirst _ ih =>
    cases h' with
    | cons hfirst' hrest =>
      exact .cons ⟨hfirst.1.trans hfirst'.1, hfirst.2.trans hfirst'.2⟩ (ih hrest)

theorem AtMost.permits (h : s.AtMost s') (hs : s.Permits t) : s'.Permits t := by
  intro q hq
  obtain ⟨p, hp, hname, hle⟩ := exists_mem_of_forall₂ h.flip hq
  exact hname ▸ hle.permits (hs p hp)

/-- Over terms, the formula of a summary is true if the summary permits their values. -/
theorem permits_iff {c : RenderContext} {v : Valuation} (hc : t.ValuesOf c v) :
    s.Permits t ↔ ∃ e, (constants bound).render s c = .ok e ∧ e.Holds v := by
  rw [constants_render_holds_iff hc]
  constructor
  · exact fun h => ⟨fun x hx => h _ hx, fun x vs hx => h _ hx⟩
  · rintro ⟨hobserved, hvalues⟩ ⟨x, _ | vs | _⟩ hx
    · exact absurd hx (hobserved x)
    · exact hvalues x vs hx
    · trivial

end ConstantSummary

theorem boolValued_renderConstants {c : RenderContext} (v : Valuation) :
    ∀ {s : ConstantSummary} {es : List Expr}, renderConstants c s = .ok es →
      ∀ e ∈ es, e.BoolValued v
  | [], _, h => by
    cases h
    exact fun _ he => nomatch he
  | (x, .values vs) :: rest, es, h => by
    unfold renderConstants at h
    cases hx : c.current? x with
    | none =>
      rw [hx] at h
      cases h
    | some e =>
      rw [hx] at h
      obtain ⟨es, hes, h⟩ := bind_eq_ok.1 h
      cases h
      refine List.forall_mem_cons.2
        ⟨Expr.boolValued_disjAny fun a ha => ?_, boolValued_renderConstants v hes⟩
      obtain ⟨i, -, rfl⟩ := List.mem_map.1 ha
      exact Expr.boolValued_eq
  | (_, .unobserved) :: rest, _, h => boolValued_renderConstants v (s := rest) h
  | (_, .unconstrained) :: rest, _, h => boolValued_renderConstants v (s := rest) h

/-- The formula of a summary has a truth value if it has a value. -/
theorem boolValued_constants_render {c : RenderContext} {e : Expr}
    (h : (constants bound).render s c = .ok e) (v : Valuation) : e.BoolValued v := by
  unfold constants at h
  dsimp only at h
  split_ifs at h
  · cases h
    exact Expr.boolValued_bool false
  · cases hes : renderConstants c s with
    | error e =>
      rw [hes] at h
      cases h
    | ok es =>
      rw [hes] at h
      cases h
      exact Expr.boolValued_conjAll (boolValued_renderConstants v hes)

/-- If the formula of a summary over terms has a value, this says whether the summary permits the
state of the values of the terms. -/
theorem eq_permits_of_eval_render {c : RenderContext} {v : Valuation} {e : Expr} {x : Value}
    (hc : t.ValuesOf c v) (he : (constants bound).render s c = .ok e) (hx : e.eval v = .ok x) :
    x = .bool (s.Permits t) := by
  obtain ⟨b, rfl⟩ := boolValued_constants_render he v x hx
  have hrender : s.Permits t ↔ ∃ e, (constants bound).render s c = .ok e ∧ e.Holds v :=
    ConstantSummary.permits_iff hc
  have hpermits : s.Permits t ↔ b = true := by
    rw [hrender]
    constructor
    · rintro ⟨e', he', hholds⟩
      cases he.symm.trans he'
      cases hx.symm.trans hholds
      rfl
    · rintro rfl
      exact ⟨e, he, hx⟩
  rw [Value.bool.injEq, Bool.eq_iff_iff, decide_eq_true_iff]
  exact hpermits.symm

/-- A join adds to what is known of each variable the value that the state has for it. -/
theorem forall₂_joinConstants : ∀ {s s' : ConstantSummary}, joinConstants bound t s = .ok s' →
    List.Forall₂ (fun p q => ∃ i, t.current? p.1 = some (.int i) ∧
      q = (p.1, p.2.observe bound i)) s s'
  | [], _, h => by
    cases h
    exact .nil
  | (x, o) :: rest, _, h => by
    obtain ⟨i, hi, h⟩ := bind_eq_ok.1 h
    obtain ⟨rest', hrest, h⟩ := bind_eq_ok.1 h
    cases h
    refine .cons ⟨i, ?_, rfl⟩ (forall₂_joinConstants hrest)
    unfold endInteger at hi
    split at hi
    · cases hi
    · next heq =>
      cases hi
      exact heq
    · cases hi

namespace ConstantSummary

theorem Kept.join (hbound : 1 ≤ bound) (h : s.Kept bound)
    (hjoin : (constants bound).join s t = .ok s') : s'.Kept bound := by
  intro q hq
  obtain ⟨p, hp, i, -, rfl⟩ := exists_mem_of_forall₂ (forall₂_joinConstants hjoin).flip hq
  exact (h p hp).observe hbound

/-- A join of an end state that a greater summary permits stays below that one. -/
theorem AtMost.join {u : ConstantSummary} (h : s.AtMost u) (hs : s.Kept bound) (hu : u.Kept bound)
    (ht : u.Permits t) (hjoin : (constants bound).join s t = .ok s') : s'.AtMost u := by
  have hall := forall₂_joinConstants hjoin
  clear hjoin
  induction h generalizing s' with
  | nil =>
    cases hall
    exact .nil
  | cons hfirst _ ih =>
    obtain ⟨hname, hle⟩ := hfirst
    obtain ⟨hs₁, hs⟩ := List.forall_mem_cons.1 hs
    obtain ⟨hu₁, hu⟩ := List.forall_mem_cons.1 hu
    obtain ⟨ht₁, ht⟩ := List.forall_mem_cons.1 ht
    cases hall with
    | cons hobserved hrest =>
      obtain ⟨i, hi, rfl⟩ := hobserved
      rw [← hname, hi] at ht₁
      exact .cons ⟨hname, hle.observe hs₁ hu₁ ht₁⟩ (ih hs hu ht hrest)

/-- Joins weaken summaries. -/
theorem atMost_of_joinsTo {u : ConstantSummary} (h : (constants bound).JoinsTo s u) :
    s.AtMost u := by
  induction h with
  | refl => exact List.forall₂_same.2 fun p _ => ⟨rfl, .refl p.2⟩
  | join _ hjoin ih =>
    refine ih.trans ((forall₂_joinConstants hjoin).imp ?_)
    rintro p _ ⟨i, -, rfl⟩
    exact ⟨rfl, .observe_self⟩

theorem Kept.joinsTo {u : ConstantSummary} (hbound : 1 ≤ bound) (hs : s.Kept bound)
    (h : (constants bound).JoinsTo s u) : u.Kept bound := by
  induction h with
  | refl => exact hs
  | join _ hjoin ih => exact ih.join hbound hjoin

end ConstantSummary

theorem kept_of_bottom {p : Program} {i : Implementation}
    (h : (constants bound).bottom p i = .ok s) : s.Kept bound := by
  unfold constants at h
  dsimp only at h
  split at h
  · cases h
  · cases h
    exact List.forall_mem_map.2 fun _ _ => trivial

end Summary

end Obligations
