import Obligations.Expr.Subst
import Mathlib.Data.List.Basic

/-!
# The functions that an expression applies

A function is applied in an expression if it is applied in a part of it. Substitution applies the
functions that the expression or one of the replacements applies, and what the conjunction of two
formulas inherits from them, the conjunction of several does.
-/

namespace Obligations.Expr

/-! ## Parts -/

mutual

/-- The parts of a part are parts. -/
theorem subexprs_subset_of_mem : ∀ {e a : Expr}, a ∈ e.subexprs → a.subexprs ⊆ e.subexprs
  | literal _, _, h | symbol _, _, h => by
    cases List.mem_singleton.1 h
    exact List.Subset.refl _
  | old e, _, h | unary _ e, _, h => by
    rcases List.mem_cons.1 h with rfl | h
    · exact List.Subset.refl _
    · exact List.subset_cons_of_subset _ (subexprs_subset_of_mem h)
  | binary _ b c, _, h => by
    rcases List.mem_cons.1 h with rfl | h
    · exact List.Subset.refl _
    refine List.subset_cons_of_subset _ ?_
    rcases List.mem_append.1 h with h | h
    · exact List.subset_append_of_subset_left _ (subexprs_subset_of_mem h)
    · exact List.subset_append_of_subset_right _ (subexprs_subset_of_mem h)
  | apply _ args, _, h => by
    rcases List.mem_cons.1 h with rfl | h
    · exact List.Subset.refl _
    · exact List.subset_cons_of_subset _ (subexprs_subset_of_mem_subexprsAll h)

/-- The same for several expressions. -/
theorem subexprs_subset_of_mem_subexprsAll :
    ∀ {es : List Expr} {a : Expr}, a ∈ subexprsAll es → a.subexprs ⊆ subexprsAll es
  | e :: _, _, h => by
    rcases List.mem_append.1 h with h | h
    · exact List.subset_append_of_subset_left _ (subexprs_subset_of_mem h)
    · exact List.subset_append_of_subset_right _ (subexprs_subset_of_mem_subexprsAll h)

end

theorem mem_subexprsAll {es : List Expr} {a : Expr} :
    a ∈ subexprsAll es ↔ ∃ e ∈ es, a ∈ e.subexprs := by
  induction es with
  | nil => simp [subexprsAll]
  | cons e es ih => simp [subexprsAll, ih]

theorem mem_functions {e : Expr} {f : Name} :
    f ∈ e.functions ↔ ∃ args, .apply f args ∈ e.subexprs := by
  rw [functions, List.mem_eraseDups, List.mem_filterMap]
  constructor
  · rintro ⟨a, ha, hf⟩
    cases a <;> cases hf
    exact ⟨_, ha⟩
  · exact fun ⟨args, h⟩ => ⟨_, h, rfl⟩

/-! ## Functions of a compound -/

section

variable {f g : Name} {a b : Expr}

@[simp] theorem notMem_functions_literal {v : Literal} : f ∉ (literal v).functions := by
  simp [mem_functions, subexprs]

@[simp] theorem notMem_functions_symbol {n : Name} : f ∉ (symbol n).functions := by
  simp [mem_functions, subexprs]

@[simp] theorem mem_functions_old : f ∈ (old a).functions ↔ f ∈ a.functions := by
  simp [mem_functions, subexprs]

@[simp] theorem mem_functions_unary {op : UnaryOp} :
    f ∈ (unary op a).functions ↔ f ∈ a.functions := by
  simp [mem_functions, subexprs]

@[simp] theorem mem_functions_binary {op : BinaryOp} :
    f ∈ (binary op a b).functions ↔ f ∈ a.functions ∨ f ∈ b.functions := by
  simp [mem_functions, subexprs, exists_or]

@[simp] theorem mem_functions_apply {args : List Expr} :
    f ∈ (apply g args).functions ↔ f = g ∨ ∃ a ∈ args, f ∈ a.functions := by
  simp only [mem_functions, subexprs, List.mem_cons, mem_subexprsAll]
  constructor
  · rintro ⟨as, h | ⟨a, ha, h⟩⟩
    · exact .inl (apply.inj h).1
    · exact .inr ⟨a, ha, as, h⟩
  · rintro (rfl | ⟨a, ha, as, h⟩)
    · exact ⟨args, .inl rfl⟩
    · exact ⟨as, .inr ⟨a, ha, h⟩⟩

end

/-! ## Substitution -/

section

variable {f : Name} {args : List Expr} {r : Moment → Subst} {keepOld : Bool}

/-- The application is one of a substitution on expressions with the given parts: one of them with
its arguments substituted, or one in a replacement. -/
def IsSubstituted (r : Moment → Subst) (keepOld : Bool) (parts : List Expr) (f : Name)
    (args : List Expr) : Prop :=
  (∃ t as, apply f as ∈ parts ∧ args = substAllAt r keepOld t as) ∨
    ∃ t n a, r t n = some a ∧ apply f args ∈ a.subexprs

theorem IsSubstituted.mono {parts parts' : List Expr} (hsub : parts ⊆ parts')
    (h : IsSubstituted r keepOld parts f args) : IsSubstituted r keepOld parts' f args :=
  h.imp_left fun ⟨t, as, hmem, heq⟩ => ⟨t, as, hsub hmem, heq⟩

mutual

/-- An application in what a substitution makes of an expression comes from the expression or from a
replacement. -/
theorem isSubstituted_of_mem_subexprs : ∀ (e : Expr) (t : Moment),
    apply f args ∈ (e.substAt r keepOld t).subexprs → IsSubstituted r keepOld e.subexprs f args
  | literal _, _, h => by simp [substAt, subexprs] at h
  | symbol n, t, h => by
    rw [substAt] at h
    cases hn : r t n with
    | none => simp [hn, subexprs] at h
    | some a =>
      rw [hn] at h
      exact .inr ⟨t, n, a, hn, h⟩
  | old a, _, h => by
    -- Whether or not `old` is kept, what it leaves is the operand read at the entry.
    have ha : apply f args ∈ (a.substAt r keepOld .entry).subexprs := by
      rw [substAt] at h
      cases keepOld with
      | true => simpa [subexprs] using h
      | false => exact h
    exact (isSubstituted_of_mem_subexprs a .entry ha).mono (List.subset_cons_self _ _)
  | unary _ a, t, h => by
    have ha : apply f args ∈ (a.substAt r keepOld t).subexprs := by
      simpa [substAt, subexprs] using h
    exact (isSubstituted_of_mem_subexprs a t ha).mono (List.subset_cons_self _ _)
  | binary _ a b, t, h => by
    simp only [substAt, subexprs, List.mem_cons, reduceCtorEq, List.mem_append, false_or] at h
    rcases h with h | h
    · exact (isSubstituted_of_mem_subexprs a t h).mono
        (List.subset_cons_of_subset _ (List.subset_append_left _ _))
    · exact (isSubstituted_of_mem_subexprs b t h).mono
        (List.subset_cons_of_subset _ (List.subset_append_right _ _))
  | apply g as, t, h => by
    rw [substAt, subexprs, List.mem_cons] at h
    rcases h with h | h
    · obtain ⟨rfl, rfl⟩ := apply.inj h
      exact .inl ⟨t, as, List.mem_cons_self, rfl⟩
    · exact (isSubstituted_of_mem_subexprsAll as t h).mono (List.subset_cons_self _ _)

/-- The same for several expressions. -/
theorem isSubstituted_of_mem_subexprsAll : ∀ (es : List Expr) (t : Moment),
    apply f args ∈ subexprsAll (substAllAt r keepOld t es) →
      IsSubstituted r keepOld (subexprsAll es) f args
  | [], _, h => by cases h
  | e :: es, t, h => by
    rcases List.mem_append.1 h with h | h
    · exact (isSubstituted_of_mem_subexprs e t h).mono (List.subset_append_left _ _)
    · exact (isSubstituted_of_mem_subexprsAll es t h).mono (List.subset_append_right _ _)

end

/-- A substitution brings in the functions of the replacements only. -/
theorem notMem_functions_substAt (hr : ∀ t n a, r t n = some a → f ∉ a.functions) (e : Expr)
    (t : Moment) (he : f ∉ e.functions) : f ∉ (e.substAt r keepOld t).functions := by
  intro hf
  obtain ⟨args, hargs⟩ := mem_functions.1 hf
  rcases isSubstituted_of_mem_subexprs e t hargs with ⟨_, as, hmem, -⟩ | ⟨t', n, a, hn, hmem⟩
  · exact he (mem_functions.2 ⟨as, hmem⟩)
  · exact hr t' n a hn (mem_functions.2 ⟨args, hmem⟩)

theorem mem_substAllAt {es : List Expr} {t : Moment} {a : Expr} :
    a ∈ substAllAt r keepOld t es ↔ ∃ e ∈ es, e.substAt r keepOld t = a := by
  induction es with
  | nil => simp [substAllAt]
  | cons e es ih => simp [substAllAt, ih, eq_comm]

theorem length_substAllAt {es : List Expr} {t : Moment} :
    (substAllAt r keepOld t es).length = es.length := by
  induction es with
  | nil => rfl
  | cons e es ih => rw [substAllAt, List.length_cons, List.length_cons, ih]

/-- The same for several expressions. -/
theorem notMem_functions_substAllAt (hr : ∀ t n a, r t n = some a → f ∉ a.functions)
    (es : List Expr) (t : Moment) (hes : ∀ a ∈ es, f ∉ a.functions) :
    ¬ ∃ a ∈ substAllAt r keepOld t es, f ∈ a.functions := by
  rintro ⟨a, ha, hf⟩
  obtain ⟨e, he, rfl⟩ := mem_substAllAt.1 ha
  exact notMem_functions_substAt hr e t (hes e he) hf

end

/-! ## Connectives -/

/-- What the conjunction of two formulas inherits from them, the conjunction of several does. -/
theorem conjAll_induction {P : Expr → Prop} {es : List Expr} (htrue : P (bool true))
    (hconj : ∀ a b, P a → P b → P (a.conj b)) (hes : ∀ e ∈ es, P e) : P (conjAll es) :=
  List.foldlRecOn es conj htrue fun a ha e he => hconj a e ha (hes e he)

end Obligations.Expr
