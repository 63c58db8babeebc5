import Obligations.Proofs.Expr.Connectives
import Obligations.Proofs.Expr.Substitution

/-!
# Refinement of formulas

One expression under one valuation refines another under another valuation if it has every value
that the other has, and is the same literal if the other is one (`Expr.Refines`). The condition on
literals makes the simplifying connectives monotone: what they fold away in the coarser formula they
fold away in the finer one too (`Expr.Refines.conj`, `Expr.Refines.disj`, `Expr.Refines.impl`). The
finer formula may be folded further, and so may have a value where the coarser has none.
-/

namespace Obligations.Expr

/-- The second expression has every value that the first has, and is the same literal if the first
is one. -/
structure Refines (v w : Valuation) (a b : Expr) : Prop where
  /-- Values are kept. -/
  eval : ∀ x, a.eval v = .ok x → b.eval w = .ok x
  /-- Literals are kept. -/
  literal : ∀ l, a = .literal l → b = .literal l

variable {v w : Valuation} {a a' b b' : Expr}

namespace Refines

/-- An expression that is not a literal is refined by what keeps its values. -/
theorem of_eval (ha : a.isLiteral = false) (h : ∀ x, a.eval v = .ok x → b.eval w = .ok x) :
    Refines v w a b where
  eval := h
  literal := by
    rintro l rfl
    cases ha

theorem bool (x : Bool) : Refines v w (.bool x) (.bool x) := ⟨fun _ h => h, fun _ h => h⟩

theorem eq_bool {x : Bool} (h : Refines v w (.bool x) b) : b = .bool x := h.literal _ rfl

theorem not (h : Refines v w a a') : Refines v w a.not a'.not := by
  refine of_eval rfl fun x hx => ?_
  obtain ⟨y, hy, rfl⟩ := eval_not_eq_ok hx
  exact eval_not (h.eval _ hy)

theorem conj (ha : Refines v w a a') (hb : Refines v w b b') :
    Refines v w (a.conj b) (a'.conj b') := by
  obtain (rfl | rfl) | (rfl | rfl) | heq := conj_cases a b
  · cases ha.eq_bool
    simpa using hb
  · cases ha.eq_bool
    simpa using ha
  · cases hb.eq_bool
    simpa using ha
  · cases hb.eq_bool
    simpa using hb
  rw [heq]
  refine of_eval rfl fun x hx => ?_
  obtain ⟨hfalse, rfl⟩ | ⟨y, z, hy, hz, rfl⟩ := eval_and_eq_ok hx
  · exact eval_conj_of_false (ha.eval _ hfalse)
  · exact eval_conj (ha.eval _ hy) (hb.eval _ hz)

theorem disj (ha : Refines v w a a') (hb : Refines v w b b') :
    Refines v w (a.disj b) (a'.disj b') := by
  obtain (rfl | rfl) | (rfl | rfl) | heq := disj_cases a b
  · cases ha.eq_bool
    simpa using ha
  · cases ha.eq_bool
    simpa using hb
  · cases hb.eq_bool
    simpa using hb
  · cases hb.eq_bool
    simpa using ha
  rw [heq]
  refine of_eval rfl fun x hx => ?_
  obtain ⟨htrue, rfl⟩ | ⟨y, z, hy, hz, rfl⟩ := eval_or_eq_ok hx
  · exact eval_disj_of_true (ha.eval _ htrue)
  · exact eval_disj (ha.eval _ hy) (hb.eval _ hz)

theorem impl (ha : Refines v w a a') (hb : Refines v w b b') :
    Refines v w (a.impl b) (a'.impl b') := by
  obtain (rfl | rfl) | (rfl | ⟨rfl, heq⟩) | heq := impl_cases a b
  · cases ha.eq_bool
    simpa using hb
  · cases ha.eq_bool
    simpa using Refines.bool true
  · cases hb.eq_bool
    simpa using hb
  · cases hb.eq_bool
    rw [heq]
    refine of_eval rfl fun x hx => ?_
    obtain ⟨y, hy, hx⟩ := eval_not_eq_ok hx
    simpa [hx] using eval_impl (ha.eval _ hy) (b := Expr.bool false) rfl
  rw [heq]
  refine of_eval rfl fun x hx => ?_
  obtain ⟨hfalse, rfl⟩ | ⟨y, z, hy, hz, rfl⟩ := eval_implies_eq_ok hx
  · exact eval_impl_of_false (ha.eval _ hfalse)
  · exact eval_impl (ha.eval _ hy) (hb.eval _ hz)

section

variable {es es' : List Expr}

theorem foldl {op : Expr → Expr → Expr}
    (hop : ∀ {a a' b b'}, Refines v w a a' → Refines v w b b' → Refines v w (op a b) (op a' b'))
    (ha : Refines v w a a') (hes : List.Forall₂ (Refines v w) es es') :
    Refines v w (es.foldl op a) (es'.foldl op a') := by
  induction hes generalizing a a' with
  | nil => exact ha
  | cons he _ ih => exact ih (hop ha he)

theorem conjAll (hes : List.Forall₂ (Refines v w) es es') :
    Refines v w (.conjAll es) (.conjAll es') :=
  foldl conj (bool true) hes

theorem disjAny (hes : List.Forall₂ (Refines v w) es es') :
    Refines v w (.disjAny es) (.disjAny es') :=
  foldl disj (bool false) hes

end

end Refines

end Obligations.Expr
