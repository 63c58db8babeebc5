import Obligations.Expr.Eval
import Obligations.Proofs.Outcome
import Obligations.Proofs.Expr.Interpretation

/-!
# Evaluation as an interpretation

Evaluation knows no bit vectors. With these added as further values, which can be compared only, it
is an interpretation (`Interpretation.standard`), and this one gives an expression the value that
evaluation gives it (`Interpretation.valueAt_standard`).
-/

namespace Obligations

/-- A value of evaluation or a bit vector. -/
inductive Datum where
  /-- An integer or a truth value. -/
  | value (value : Value)
  /-- A bit vector of a width. -/
  | bitVector (width : Nat) (value : Int)
deriving DecidableEq

/-- The value of evaluation, if the datum is one. -/
def Datum.asValue? : Datum → Option Value
  | value a => some a
  | bitVector _ _ => none

namespace Interpretation

/-- What evaluation says of an operator on two operands. Bit vectors can be compared only. -/
def standardBinary (op : BinaryOp) : Datum → Option Datum → Option Datum
  | .value a, y =>
    match op.decidedBy? a with
    | some b => some (.value b)
    | none => (y.bind Datum.asValue?).bind fun b =>
      (op.apply .divisionByZero a b).toOption.map .value
  | .bitVector width a, y =>
    match op with
    | .eq | .iff => y.map fun y => .value (.bool (.bitVector width a = y))
    | .neq => y.map fun y => .value (.bool (.bitVector width a ≠ y))
    | _ => none

theorem standardBinary_eq_iff (x : Datum) (y : Option Datum) :
    standardBinary .eq x y = some (.value (.bool true)) ↔ y = some x := by
  cases x with
  | value a =>
    rcases y with - | (b | ⟨width, b⟩)
    · simp [standardBinary, BinaryOp.decidedBy?]
    · -- Values of different kinds are not compared, and then they differ.
      have hvalue : standardBinary .eq (.value a) (some (.value b)) =
          (if a.sameKind b then some (.value (.bool (a = b))) else none) := by
        rw [standardBinary]
        by_cases h : a.sameKind b <;>
          simp [BinaryOp.decidedBy?, Datum.asValue?, BinaryOp.apply, h, Except.toOption]
      rw [hvalue]
      constructor
      · intro h
        split_ifs at h with hkind
        have heq : a = b := by simpa using h
        rw [heq]
      · intro h
        cases h
        cases a <;> simp [Value.sameKind]
    · simp [standardBinary, BinaryOp.decidedBy?, Datum.asValue?]
  | bitVector width a =>
    cases y with
    | none => simp [standardBinary]
    | some y =>
      have hvalue : standardBinary .eq (.bitVector width a) (some y) =
          some (.value (.bool (.bitVector width a = y))) := rfl
      rw [hvalue]
      constructor
      · intro h
        have heq : Datum.bitVector width a = y := by simpa using h
        rw [heq]
      · intro h
        cases h
        simp

theorem standardBinary_and_iff (x : Datum) (y : Option Datum) :
    standardBinary .and x y = some (.value (.bool true)) ↔
      x = .value (.bool true) ∧ y = some (.value (.bool true)) := by
  -- Whatever the left operand is, the conjunction is true only where the right one is.
  have hright : ∀ a : Value, standardBinary .and (.value a) y = some (.value (.bool true)) →
      y = some (.value (.bool true)) := by
    intro a h
    rcases a with a | (_ | _) <;> rcases y with - | ((b | b) | ⟨width, b⟩) <;>
      simp_all [standardBinary, BinaryOp.decidedBy?, Datum.asValue?, BinaryOp.apply,
        Except.toOption]
  constructor
  · intro h
    cases x with
    | value a =>
      refine ⟨?_, hright a h⟩
      rw [hright a h] at h
      rcases a with a | (_ | _)
      · simp [standardBinary, BinaryOp.decidedBy?, Datum.asValue?, BinaryOp.apply,
          Except.toOption] at h
      · simp [standardBinary, BinaryOp.decidedBy?] at h
      · rfl
    | bitVector width a => simp [standardBinary] at h
  · rintro ⟨rfl, rfl⟩
    rfl

/-- Evaluation, with the bit vectors added. -/
def standard (application : Name → List Value → Option Value) : Interpretation where
  Carrier := Datum
  literal
    | .bool b => .value (.bool b)
    | .int i => .value (.int i)
    | .bv width value => .bitVector width value
  unary op x := x.asValue?.bind fun a => (op.apply .divisionByZero a).toOption.map .value
  binary := standardBinary
  application f xs := (xs.mapM Datum.asValue?).bind fun as => (application f as).map .value
  true_ne_false := by simp
  eq_iff := standardBinary_eq_iff
  and_iff := standardBinary_and_iff

/-- What names denote under a valuation. -/
def readingOf (v : Valuation) : (standard v.application).Reading
  | .current, n => (v.symbol n).map Datum.value
  | .entry, n => (v.onEntry n).map Datum.value

variable {v : Valuation}

/-- A left operand that decides, decides among data. -/
theorem standardBinary_of_decidedBy {op : BinaryOp} {a b : Value}
    (h : op.decidedBy? a = some b) (y : Option Datum) :
    standardBinary op (.value a) y = some (.value b) := by
  rw [standardBinary, h]

/-- An operator that gives a value, gives that value to data. -/
theorem standardBinary_of_apply {op : BinaryOp} {a b x : Value} {e : EvalError}
    (hnone : op.decidedBy? a = none) (h : op.apply e a b = .ok x) :
    standardBinary op (.value a) (some (.value b)) = some (.value x) := by
  have happly : op.apply .divisionByZero a b = .ok x := by
    cases op <;> cases a <;> cases b <;> simp_all [BinaryOp.apply] <;> split_ifs at h <;> simp_all
  rw [standardBinary, hnone]
  simp [Datum.asValue?, happly, Except.toOption]

theorem mapM_asValue?_map (as : List Value) :
    (as.map Datum.value).mapM Datum.asValue? = some as := by
  induction as with
  | nil => rfl
  | cons a as ih =>
    rw [List.map_cons, List.mapM_cons, ih]
    rfl

mutual

/-- The standard interpretation gives an expression the value that evaluation gives it. -/
theorem valueAt_standard :
    ∀ (e : Expr) (t : Moment) (x : Value), e.evalAt v t = .ok x →
      (standard v.application).valueAt (readingOf v) t e = some (.value x)
  | .literal (.bool _), _, _, h => by cases h; rfl
  | .literal (.int _), _, _, h => by cases h; rfl
  | .literal (.bv _ _), _, _, h => by cases h
  | .symbol n, .current, x, h => by
    rw [Expr.evalAt, Valuation.read] at h
    rw [valueAt, readingOf]
    cases hn : v.symbol n with
    | none => simp [hn] at h
    | some a =>
      rw [hn] at h
      cases h
      rfl
  | .symbol n, .entry, x, h => by
    rw [Expr.evalAt, Valuation.read] at h
    rw [valueAt, readingOf]
    cases hn : v.onEntry n with
    | none => simp [hn] at h
    | some a =>
      rw [hn] at h
      cases h
      rfl
  | .old a, _, x, h => valueAt_standard a .entry x h
  | .unary op a, t, x, h => by
    rw [Expr.evalAt] at h
    obtain ⟨y, ha, happly⟩ := bind_eq_ok.1 h
    have hop : op.apply .divisionByZero y = .ok x := by
      cases op <;> cases y <;> simp_all [UnaryOp.apply]
    rw [valueAt, valueAt_standard a t y ha]
    change ((op.apply .divisionByZero y).toOption.map Datum.value) = _
    rw [hop]
    rfl
  | .binary op a b, t, x, h => by
    rw [Expr.evalAt] at h
    obtain ⟨y, ha, hright⟩ := bind_eq_ok.1 h
    rw [valueAt, valueAt_standard a t y ha]
    change standardBinary op (.value y) _ = _
    -- The right operand is looked at only if the left one does not decide the value.
    cases hop : op.decidedBy? y with
    | some z =>
      rw [hop] at hright
      cases hright
      exact standardBinary_of_decidedBy hop _
    | none =>
      rw [hop] at hright
      obtain ⟨z, hb, happly⟩ := bind_eq_ok.1 hright
      rw [valueAt_standard b t z hb]
      exact standardBinary_of_apply hop happly
  | .apply f args, t, x, h => by
    rw [Expr.evalAt] at h
    obtain ⟨ys, hargs, happly⟩ := bind_eq_ok.1 h
    have hx : v.application f ys = some x := by
      cases hy : v.application f ys with
      | none => simp [hy] at happly
      | some y =>
        rw [hy] at happly
        cases happly
        rfl
    rw [valueAt, valuesAt_standard args t ys hargs]
    change (((ys.map Datum.value).mapM Datum.asValue?).bind fun as =>
      (v.application f as).map Datum.value) = _
    rw [mapM_asValue?_map, Option.bind_some, hx]
    rfl

/-- The same for several expressions. -/
theorem valuesAt_standard :
    ∀ (es : List Expr) (t : Moment) (xs : List Value), Expr.evalAllAt v t es = .ok xs →
      (standard v.application).valuesAt (readingOf v) t es = some (xs.map .value)
  | [], _, _, h => by cases h; rfl
  | a :: as, t, xs, h => by
    rw [Expr.evalAllAt] at h
    obtain ⟨y, ha, hrest⟩ := bind_eq_ok.1 h
    obtain ⟨ys, has, hxs⟩ := bind_eq_ok.1 hrest
    cases hxs
    rw [valuesAt, valueAt_standard a t y ha, valuesAt_standard as t ys has]
    rfl

end

end Interpretation

end Obligations
