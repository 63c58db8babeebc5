import Obligations.Expr.Eval
import Obligations.Proofs.Expr.Functions
import Obligations.Proofs.Expr.Interpretation

/-!
# Evaluation after a substitution

Replacing names in an expression and then evaluating it is evaluating it where each name has the
value of what replaces it. The reason why an expression has no value may quote the expression, so
that it does change; values are compared by `Except.toOption`, which forgets the reason.
-/

namespace Obligations.Expr

open Interpretation (momentAfter)

variable {ε α β : Type}

/-- The value of a sequence of two steps, if it has one. -/
theorem toOption_bind (x : Except ε α) (f : α → Except ε β) :
    (x >>= f).toOption = x.toOption.bind fun a => (f a).toOption := by
  cases x <;> rfl

/-- The value of an operator does not depend on the answer for operands of a wrong kind. -/
theorem toOption_unary_apply (op : UnaryOp) (e e' : EvalError) (a : Value) :
    (op.apply e a).toOption = (op.apply e' a).toOption := by
  cases op <;> cases a <;> rfl

/-- The same for operators on two operands. -/
theorem toOption_binary_apply (op : BinaryOp) (e e' : EvalError) (a b : Value) :
    (op.apply e a b).toOption = (op.apply e' a b).toOption := by
  cases op <;> cases a <;> cases b <;> grind [BinaryOp.apply, Except.toOption]

variable {f : Moment → Subst} {keepOld : Bool} {whole : Moment} {v w : Valuation}

mutual

/-- After a substitution an expression has the value that it has where each name has the value of
what replaces it. -/
theorem toOption_evalAt_substAt (happ : w.application = v.application) :
    ∀ (e : Expr) (t : Moment),
      (∀ p ∈ e.readsAt t, (((f p.1 p.2).getD (symbol p.2)).evalAt w
        (momentAfter keepOld whole p.1)).toOption = (v.read p.1 p.2).toOption) →
      ((e.substAt f keepOld t).evalAt w (momentAfter keepOld whole t)).toOption =
        (e.evalAt v t).toOption
  | literal (.bool _), _, _ => rfl
  | literal (.int _), _, _ => rfl
  | literal (.bv _ _), _, _ => rfl
  | symbol n, t, h => h (t, n) (by simp [readsAt])
  | old a, t, h => by
    have ha := toOption_evalAt_substAt happ a .entry h
    rw [evalAt, ← ha, substAt]
    cases keepOld <;> rfl
  | unary op a, t, h => by
    have ha := toOption_evalAt_substAt happ a t h
    rw [substAt, evalAt, evalAt, toOption_bind, toOption_bind, ha]
    exact congrArg _ (funext fun x => toOption_unary_apply op _ _ x)
  | binary op a b, t, h => by
    have ha := toOption_evalAt_substAt happ a t fun p hp => h p (by simp [readsAt, hp])
    have hb := toOption_evalAt_substAt happ b t fun p hp => h p (by simp [readsAt, hp])
    rw [substAt, evalAt, evalAt, toOption_bind, toOption_bind, ha]
    -- If the left operand decides, neither side evaluates the right one.
    refine congrArg _ (funext fun x => ?_)
    cases op.decidedBy? x with
    | some r => rfl
    | none =>
      change (evalAt w _ (b.substAt f keepOld t) >>= _).toOption = (evalAt v t b >>= _).toOption
      rw [toOption_bind, toOption_bind, hb]
      exact congrArg _ (funext fun y => toOption_binary_apply op _ _ x y)
  | apply g args, t, h => by
    rw [substAt, evalAt, evalAt, toOption_bind, toOption_bind,
      toOption_evalAllAt_substAllAt happ args t h, happ]

/-- The same for several expressions. -/
theorem toOption_evalAllAt_substAllAt (happ : w.application = v.application) :
    ∀ (es : List Expr) (t : Moment),
      (∀ p ∈ readsAllAt t es, (((f p.1 p.2).getD (symbol p.2)).evalAt w
        (momentAfter keepOld whole p.1)).toOption = (v.read p.1 p.2).toOption) →
      (evalAllAt w (momentAfter keepOld whole t) (substAllAt f keepOld t es)).toOption =
        (evalAllAt v t es).toOption
  | [], _, _ => rfl
  | a :: as, t, h => by
    have ha := toOption_evalAt_substAt happ a t fun p hp => h p (by simp [readsAllAt, hp])
    have has := toOption_evalAllAt_substAllAt happ as t fun p hp => h p (by simp [readsAllAt, hp])
    rw [substAllAt, evalAllAt, evalAllAt, toOption_bind, toOption_bind, ha]
    refine congrArg _ (funext fun x => ?_)
    rw [toOption_bind, toOption_bind, has]

end

/-- A substitution that drops `old` gives an expression the value that it has where each name has
the value, in the state at hand, of what replaces it. -/
theorem toOption_eval_substituteOld {always onEntry : Subst} {e : Expr}
    (happ : w.application = v.application)
    (hcurrent : ∀ n ∈ e.currentNames,
      (((always n).getD (symbol n)).eval w).toOption = (v.read .current n).toOption)
    (hentry : ∀ n ∈ e.entryNames,
      ((((onEntry n).or (always n)).getD (symbol n)).eval w).toOption =
        (v.read .entry n).toOption) :
    ((e.substituteOld always onEntry).eval w).toOption = (e.eval v).toOption := by
  unfold substituteOld
  change (Expr.evalAt w (momentAfter false .current .current) _).toOption = _
  refine toOption_evalAt_substAt happ e .current ?_
  rintro ⟨t, n⟩ hp
  have hn : n ∈ e.namesAt t := List.mem_filterMap.2 ⟨(t, n), hp, if_pos rfl⟩
  cases t with
  | current => exact hcurrent n hn
  | entry => exact hentry n hn

/-- An expression has a value exactly if evaluation up to the reason of a failure gives it. -/
theorem eval_eq_ok_iff {e : Expr} {a : Value} : e.eval v = .ok a ↔ (e.eval v).toOption = some a := by
  cases e.eval v <;> simp [Except.toOption]

/-! ## Removal of values on entry -/

/-- No part of the expression asks for a value on entry. -/
def OldFree (e : Expr) : Prop := ∀ a, old a ∉ e.subexprs

@[simp] theorem oldFree_literal (a : Literal) : (literal a).OldFree := by simp [OldFree, subexprs]

@[simp] theorem oldFree_symbol (n : Name) : (symbol n).OldFree := by simp [OldFree, subexprs]

@[simp] theorem oldFree_unary {op : UnaryOp} {a : Expr} : (unary op a).OldFree ↔ a.OldFree := by
  simp [OldFree, subexprs]

@[simp] theorem oldFree_binary {op : BinaryOp} {a b : Expr} :
    (binary op a b).OldFree ↔ a.OldFree ∧ b.OldFree := by
  simp [OldFree, subexprs, forall_and]

@[simp] theorem oldFree_apply {g : Name} {args : List Expr} :
    (apply g args).OldFree ↔ ∀ a ∈ args, a.OldFree := by
  simp only [OldFree, subexprs, List.mem_cons, reduceCtorEq, false_or, mem_subexprsAll]
  grind

mutual

/-- A substitution that drops `old` leaves none if the replacements have none. -/
theorem oldFree_substAt (hf : ∀ t n a, f t n = some a → a.OldFree) :
    ∀ (e : Expr) (t : Moment), (e.substAt f false t).OldFree
  | literal a, _ => oldFree_literal a
  | symbol n, t => by
    rw [substAt]
    cases hn : f t n with
    | none => exact oldFree_symbol n
    | some a => exact hf t n a hn
  | old a, _ => oldFree_substAt hf a .entry
  | unary _ a, t => oldFree_unary.2 (oldFree_substAt hf a t)
  | binary _ a b, t => oldFree_binary.2 ⟨oldFree_substAt hf a t, oldFree_substAt hf b t⟩
  | apply _ args, t => oldFree_apply.2 (oldFree_substAllAt hf args t)

/-- The same for several expressions. -/
theorem oldFree_substAllAt (hf : ∀ t n a, f t n = some a → a.OldFree) :
    ∀ (es : List Expr) (t : Moment), ∀ a ∈ substAllAt f false t es, a.OldFree
  | [], _ => fun _ ha => absurd ha List.not_mem_nil
  | e :: es, t =>
    List.forall_mem_cons.2 ⟨oldFree_substAt hf e t, oldFree_substAllAt hf es t⟩

end

theorem oldFree_substituteOld {always onEntry : Subst} (h : ∀ n a, always n = some a → a.OldFree)
    (h' : ∀ n a, onEntry n = some a → a.OldFree) (e : Expr) :
    (e.substituteOld always onEntry).OldFree := by
  refine oldFree_substAt (fun t n a ha => ?_) e .current
  cases t with
  | current => exact h n a ha
  | entry =>
    rcases Option.or_eq_some_iff.1 ha with ha | ⟨-, ha⟩
    · exact h' n a ha
    · exact h n a ha

theorem oldFree_conj {a b : Expr} (ha : a.OldFree) (hb : b.OldFree) : (a.conj b).OldFree := by
  unfold conj
  split_ifs
  · exact hb
  · exact ha
  · exact oldFree_binary.2 ⟨ha, hb⟩

theorem oldFree_conjAll {es : List Expr} (h : ∀ e ∈ es, e.OldFree) : (conjAll es).OldFree :=
  conjAll_induction (oldFree_literal _) (fun _ _ => oldFree_conj) h

end Obligations.Expr
