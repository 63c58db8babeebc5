import Obligations.Proofs.Expr.Substitution

/-!
# Reading through a substitution

A substitution puts an image in the place of each name; a name without an image is its own. The
value of an expression after a substitution is its value under the valuation that reads each name as
its image. Where `old` is kept, the image of a name under `old` is read on entry
(`Valuation.through`); where `old` is dropped, every image is read in the state at hand
(`Valuation.throughOld`). `Expr.eval_substituted_iff` says so for both substitutions, and that `old`
occurs after the second exactly where an image brings it in.
-/

namespace Obligations

/-- The valuation that reads a name as its image. A name on entry is its image on entry. -/
def Valuation.through (v : Valuation) (f : Subst) : Valuation where
  symbol n := (((f n).getD (.symbol n)).evalAt v .current).toOption
  onEntry n := (((f n).getD (.symbol n)).evalAt v .entry).toOption
  application := v.application

/-- The valuation that reads a name as its image in the state at hand. The image of a name on entry is
what `onEntry` gives, or else its other image. -/
def Valuation.throughOld (v : Valuation) (always onEntry : Subst) : Valuation where
  symbol n := (((always n).getD (.symbol n)).eval v).toOption
  onEntry n := ((((onEntry n).or (always n)).getD (.symbol n)).eval v).toOption
  application := v.application

/-- What a valuation gives for a name, up to the reason why it gives nothing. -/
theorem Valuation.toOption_read (v : Valuation) (t : Moment) (n : Name) :
    (v.read t n).toOption = match t with
      | .current => v.symbol n
      | .entry => v.onEntry n := by
  cases t with
  | current =>
    change ((v.symbol n).elim _ _ : Except EvalError Value).toOption = v.symbol n
    cases v.symbol n <;> rfl
  | entry =>
    change ((v.onEntry n).elim _ _ : Except EvalError Value).toOption = v.onEntry n
    cases v.onEntry n <;> rfl

namespace Expr

variable {e : Expr} {f always onEntry : Subst} {v : Valuation}

/-! ## Values -/

/-- After a substitution that keeps `old`, names are read through it. -/
theorem toOption_eval_substitute_through :
    ((e.substitute f).eval v).toOption = (e.eval (v.through f)).toOption := by
  have happ : v.application = (v.through f).application := rfl
  unfold substitute
  change (evalAt v (Interpretation.momentAfter true .current .current) _).toOption = _
  refine toOption_evalAt_substAt happ e .current ?_
  rintro ⟨t, n⟩ -
  rw [Valuation.toOption_read]
  cases t <;> rfl

/-- After a substitution that drops `old`, names are read through it in the state at hand. -/
theorem toOption_eval_substituteOld_through :
    ((e.substituteOld always onEntry).eval v).toOption =
      (e.eval (v.throughOld always onEntry)).toOption := by
  refine toOption_eval_substituteOld rfl (fun n _ => ?_) fun n _ => ?_
  · rw [Valuation.toOption_read]
    rfl
  · rw [Valuation.toOption_read]
    rfl

/-! ## What brings in `old` -/

theorem mem_namesAt {t : Moment} {n : Name} : n ∈ e.namesAt t ↔ (t, n) ∈ e.readsAt .current := by
  unfold namesAt
  rw [List.mem_filterMap]
  constructor
  · rintro ⟨⟨t', n'⟩, hp, heq⟩
    split_ifs at heq with ht
    cases heq
    exact ht ▸ hp
  · exact fun h => ⟨(t, n), h, if_pos rfl⟩

section

variable {a : Expr} {g : Moment → Subst}

mutual

/-- After a substitution that drops `old`, it occurs exactly where an image of a name that is read
has it. -/
theorem old_mem_subexprs_substAt : ∀ (e : Expr) (t : Moment),
    old a ∈ (e.substAt g false t).subexprs ↔
      ∃ p ∈ e.readsAt t, ∃ b, g p.1 p.2 = some b ∧ old a ∈ b.subexprs
  | literal _, _ => by simp [substAt, subexprs, readsAt]
  | symbol n, t => by
    rw [substAt, readsAt]
    cases hn : g t n with
    | none => simp [subexprs, hn]
    | some b => simp [hn]
  | old e, _ => old_mem_subexprs_substAt e .entry
  | unary _ e, t => by
    simpa [substAt, subexprs, readsAt] using old_mem_subexprs_substAt e t
  | binary _ e e', t => by
    simp only [substAt, subexprs, readsAt, List.mem_cons, reduceCtorEq, false_or, List.mem_append,
      old_mem_subexprs_substAt e t, old_mem_subexprs_substAt e' t, or_and_right, exists_or]
  | apply _ args, t => by
    simpa [substAt, subexprs, readsAt] using old_mem_subexprsAll_substAllAt args t

/-- The same for several expressions. -/
theorem old_mem_subexprsAll_substAllAt : ∀ (es : List Expr) (t : Moment),
    old a ∈ subexprsAll (substAllAt g false t es) ↔
      ∃ p ∈ readsAllAt t es, ∃ b, g p.1 p.2 = some b ∧ old a ∈ b.subexprs
  | [], _ => by simp [substAllAt, subexprsAll, readsAllAt]
  | e :: es, t => by
    simp only [substAllAt, subexprsAll, readsAllAt, List.mem_append, old_mem_subexprs_substAt e t,
      old_mem_subexprsAll_substAllAt es t, or_and_right, exists_or]

end

end

/-- Dropping `old`, a substitution brings it in only with the images of the names that the
expression reads: an image for every name that it reads outside of `old`, and an image for every
name that it reads under `old`. -/
theorem old_mem_subexprs_substituteOld {a : Expr} :
    old a ∈ (e.substituteOld always onEntry).subexprs ↔
      (∃ n ∈ e.currentNames, ∃ b, always n = some b ∧ old a ∈ b.subexprs) ∨
        ∃ n ∈ e.entryNames, ∃ b, (onEntry n).or (always n) = some b ∧ old a ∈ b.subexprs := by
  unfold substituteOld
  rw [old_mem_subexprs_substAt]
  simp only [currentNames, entryNames, mem_namesAt]
  constructor
  · rintro ⟨⟨t, n⟩, hp, b, hb, ha⟩
    cases t with
    | current => exact .inl ⟨n, hp, b, hb, ha⟩
    | entry => exact .inr ⟨n, hp, b, hb, ha⟩
  · rintro (⟨n, hp, b, hb, ha⟩ | ⟨n, hp, b, hb, ha⟩)
    · exact ⟨(.current, n), hp, b, hb, ha⟩
    · exact ⟨(.entry, n), hp, b, hb, ha⟩

/-! ## The substitution lemma -/

/-- An expression has a value after a substitution exactly if it has that value where names are read
through the substitution, be `old` kept or dropped. Where it is dropped, it occurs afterwards exactly
if the image of a name that is read has it. -/
theorem eval_substituted_iff (e : Expr) (f always onEntry : Subst) (v : Valuation) :
    (∀ w, (e.substitute f).eval v = .ok w ↔ e.eval (v.through f) = .ok w) ∧
      (∀ w, (e.substituteOld always onEntry).eval v = .ok w ↔
        e.eval (v.throughOld always onEntry) = .ok w) ∧
      ∀ a, old a ∈ (e.substituteOld always onEntry).subexprs ↔
        (∃ n ∈ e.currentNames, ∃ b, always n = some b ∧ old a ∈ b.subexprs) ∨
          ∃ n ∈ e.entryNames, ∃ b, (onEntry n).or (always n) = some b ∧ old a ∈ b.subexprs := by
  refine ⟨fun w => ?_, fun w => ?_, fun a => old_mem_subexprs_substituteOld⟩
  · rw [eval_eq_ok_iff, toOption_eval_substitute_through, ← eval_eq_ok_iff]
  · rw [eval_eq_ok_iff, toOption_eval_substituteOld_through, ← eval_eq_ok_iff]

end Expr

end Obligations
