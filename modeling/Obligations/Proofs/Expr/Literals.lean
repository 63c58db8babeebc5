import Obligations.Proofs.Expr.Functions

/-!
# The literals in an expression

Substitution brings in the literals of the replacements only (`Expr.LiteralsIn.substAt`).
-/

namespace Obligations.Expr

variable {L : Literal → Prop} {r : Moment → Subst} {keepOld : Bool} {v : Literal}

/-- All literals in the expression are of a kind. -/
def LiteralsIn (L : Literal → Prop) (e : Expr) : Prop := ∀ v, literal v ∈ e.subexprs → L v

theorem literalsIn_symbol (n : Name) : (symbol n).LiteralsIn L := by
  intro v hv
  simp [subexprs] at hv

mutual

/-- A literal in what a substitution makes of an expression is in the expression or in a
replacement. -/
theorem literal_of_mem_subexprs_substAt : ∀ (e : Expr) (t : Moment),
    literal v ∈ (e.substAt r keepOld t).subexprs →
      literal v ∈ e.subexprs ∨ ∃ t n a, r t n = some a ∧ literal v ∈ a.subexprs
  | literal _, _, h => .inl h
  | symbol n, t, h => by
    rw [substAt] at h
    cases hn : r t n with
    | none => simp [hn, subexprs] at h
    | some a =>
      rw [hn] at h
      exact .inr ⟨t, n, a, hn, h⟩
  | old a, _, h => by
    have ha : literal v ∈ (a.substAt r keepOld .entry).subexprs := by
      rw [substAt] at h
      cases keepOld with
      | true => simpa [subexprs] using h
      | false => exact h
    exact (literal_of_mem_subexprs_substAt a .entry ha).imp_left (List.mem_cons_of_mem _)
  | unary _ a, t, h => by
    have ha : literal v ∈ (a.substAt r keepOld t).subexprs := by
      simpa [substAt, subexprs] using h
    exact (literal_of_mem_subexprs_substAt a t ha).imp_left (List.mem_cons_of_mem _)
  | binary _ a b, t, h => by
    simp only [substAt, subexprs, List.mem_cons, reduceCtorEq, List.mem_append, false_or] at h
    rcases h with h | h
    · exact (literal_of_mem_subexprs_substAt a t h).imp_left fun h =>
        List.mem_cons_of_mem _ (List.mem_append_left _ h)
    · exact (literal_of_mem_subexprs_substAt b t h).imp_left fun h =>
        List.mem_cons_of_mem _ (List.mem_append_right _ h)
  | apply _ as, t, h => by
    have has : literal v ∈ subexprsAll (substAllAt r keepOld t as) := by
      simpa [substAt, subexprs] using h
    exact (literal_of_mem_subexprsAll_substAllAt as t has).imp_left (List.mem_cons_of_mem _)

/-- The same for several expressions. -/
theorem literal_of_mem_subexprsAll_substAllAt : ∀ (es : List Expr) (t : Moment),
    literal v ∈ subexprsAll (substAllAt r keepOld t es) →
      literal v ∈ subexprsAll es ∨ ∃ t n a, r t n = some a ∧ literal v ∈ a.subexprs
  | [], _, h => by cases h
  | e :: es, t, h => by
    rcases List.mem_append.1 h with h | h
    · exact (literal_of_mem_subexprs_substAt e t h).imp_left (List.mem_append_left _)
    · exact (literal_of_mem_subexprsAll_substAllAt es t h).imp_left (List.mem_append_right _)

end

theorem LiteralsIn.substAt {e : Expr} (he : e.LiteralsIn L)
    (hr : ∀ t n a, r t n = some a → a.LiteralsIn L) (t : Moment) :
    (e.substAt r keepOld t).LiteralsIn L := by
  intro v hv
  rcases literal_of_mem_subexprs_substAt e t hv with hv | ⟨t', n, a, hn, hv⟩
  · exact he v hv
  · exact hr t' n a hn v hv

theorem LiteralsIn.substituteOld {e : Expr} {f g : Subst} (he : e.LiteralsIn L)
    (hf : ∀ n a, f n = some a → a.LiteralsIn L) (hg : ∀ n a, g n = some a → a.LiteralsIn L) :
    (e.substituteOld f g).LiteralsIn L := by
  refine he.substAt (fun t n a ha => ?_) _
  cases t with
  | current => exact hf n a ha
  | entry =>
    rcases Option.or_eq_some_iff.1 ha with ha | ⟨-, ha⟩
    · exact hg n a ha
    · exact hf n a ha

end Obligations.Expr
