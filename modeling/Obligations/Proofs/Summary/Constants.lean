import Obligations.Summary.Constants
import Obligations.Proofs.Summary.Admission

/-!
# What summaries by observed values admit

Such a summary admits an end state if every variable has been observed and the state gives each
variable that is still constrained one of the values observed (`constants_admits_iff`). A join adds
the values of the state joined and takes none away, so that it weakens the summary
(`constants_joinWeakens`).
-/

namespace Obligations.Summary

theorem mem_insertValue {i v : Int} {vs : List Int} : i ∈ insertValue v vs ↔ i = v ∨ i ∈ vs := by
  induction vs with
  | nil => simp [insertValue]
  | cons w ws ih =>
    unfold insertValue
    split_ifs with hlt heq
    · simp
    · subst heq
      simp
    · rw [List.mem_cons, ih, List.mem_cons]
      exact or_left_comm

/-- After a further value a variable has been observed. -/
theorem Observed.observe_ne_unobserved (bound : Nat) (v : Int) (o : Observed) :
    o.observe bound v ≠ .unobserved := by
  cases o with
  | unobserved => simp [observe]
  | unconstrained => simp [observe]
  | values vs =>
    simp only [observe]
    split_ifs <;> simp

/-- A variable that is constrained after a further value may have that value, and every value that
it might have before. -/
theorem Observed.mem_of_observe {bound : Nat} {v : Int} {o : Observed} {vs : List Int}
    (h : o.observe bound v = .values vs) :
    v ∈ vs ∧ (o = .unobserved ∨ ∃ ws, o = .values ws ∧ ∀ i ∈ ws, i ∈ vs) := by
  cases o with
  | unobserved =>
    cases h
    exact ⟨List.mem_singleton.2 rfl, .inl rfl⟩
  | unconstrained => cases h
  | values ws =>
    simp only [observe] at h
    split_ifs at h
    cases h
    exact ⟨mem_insertValue.2 (.inl rfl), .inr ⟨ws, rfl, fun i hi => mem_insertValue.2 (.inr hi)⟩⟩

variable {c : RenderContext} {t : EndState} {v : Valuation} {bound : Nat}

/-- The formulas of a summary can be rendered and hold if this is so for each constrained
variable. -/
theorem renderConstants_holds_iff {s : ConstantSummary} :
    (∃ es, renderConstants c s = .ok es ∧ ∀ f ∈ es, f.Holds v) ↔
      ∀ x vs, (x, .values vs) ∈ s → ∃ e, c.current? x = some e ∧
        (Expr.disjAny (vs.map fun i => .binary .eq e (.int i))).Holds v := by
  induction s with
  | nil => simp [renderConstants]
  | cons p rest ih =>
    obtain ⟨x, o⟩ := p
    -- Only a constrained variable has a formula, and needs a term for it.
    cases o with
    | values vs =>
      unfold renderConstants
      cases he : c.current? x with
      | none =>
        constructor
        · rintro ⟨es, hes, -⟩
          cases hes
        · intro h
          obtain ⟨e, he', -⟩ := h x vs List.mem_cons_self
          rw [he] at he'
          cases he'
      | some e =>
        constructor
        · rintro ⟨fs, hfs, hall⟩
          obtain ⟨es, hes, heq⟩ := bind_eq_ok.1 hfs
          cases heq
          obtain ⟨hfirst, hrest⟩ := List.forall_mem_cons.1 hall
          intro y ws hmem
          rcases List.mem_cons.mp hmem with heq | hmem
          · cases heq
            exact ⟨e, he, hfirst⟩
          · exact ih.1 ⟨es, hes, hrest⟩ y ws hmem
        · intro h
          obtain ⟨es, hes, hall⟩ := ih.2 fun y ws hmem => h y ws (List.mem_cons_of_mem _ hmem)
          obtain ⟨e', he', hfirst⟩ := h x vs List.mem_cons_self
          rw [he] at he'
          cases he'
          exact ⟨_, bind_eq_ok.2 ⟨es, hes, rfl⟩, List.forall_mem_cons.2 ⟨hfirst, hall⟩⟩
    | unobserved =>
      unfold renderConstants
      rw [ih]
      simp
    | unconstrained =>
      unfold renderConstants
      rw [ih]
      simp

/-- Over terms, the formula for a variable says that the state of their values gives it one of some
values. -/
theorem holds_oneOf_iff (hc : t.ValuesOf c v) {x : Name} {vs : List Int} :
    (∃ e, c.current? x = some e ∧
      (Expr.disjAny (vs.map fun i => .binary .eq e (.int i))).Holds v) ↔
        ∃ i ∈ vs, t.current? x = some (.int i) := by
  constructor
  · rintro ⟨e, he, hholds⟩
    obtain ⟨f, hf, hholds⟩ := Expr.exists_of_holds_disjAny hholds
    obtain ⟨i, hi, rfl⟩ := List.mem_map.1 hf
    obtain ⟨a, ha, heq⟩ := bind_eq_ok.1 hholds
    -- Values of different kinds are not equal, so the term has the integer as its value.
    have hvalue : a = .int i := by
      cases a with
      | int j =>
        have hij : decide (Value.int j = Value.int i) = true := by
          simpa [BinaryOp.decidedBy?, BinaryOp.apply, Value.sameKind, Expr.evalAt, Expr.int, bind,
            Except.bind] using heq
        exact of_decide_eq_true hij
      | bool b => cases heq
    refine ⟨i, hi, ?_⟩
    rw [← hc.eval_current he, ← hvalue, ← Expr.eval_eq_ok_iff]
    exact ha
  · rintro ⟨i, hi, hvalue⟩
    obtain ⟨e, he⟩ := Option.isSome_iff_exists.1 ((hc.isSome_current x).2 (by rw [hvalue]; rfl))
    have heval : e.eval v = .ok (.int i) :=
      Expr.eval_eq_ok_iff.2 ((hc.eval_current he).trans hvalue)
    have heq : ∀ j, (Expr.binary .eq e (.int j)).eval v =
        .ok (.bool (decide (Value.int i = Value.int j))) := by
      intro j
      unfold Expr.eval at heval ⊢
      rw [Expr.evalAt, heval]
      rfl
    refine ⟨e, he, (Expr.holds_disjAny_iff fun f hf => ?_).2 ⟨_, List.mem_map_of_mem hi, ?_⟩⟩
    · obtain ⟨j, -, rfl⟩ := List.mem_map.1 hf
      exact ⟨_, heq j⟩
    · exact (heq i).trans (by simp)

theorem isBottom_iff {s : ConstantSummary} :
    ConstantSummary.isBottom s = true ↔ ∃ x, (x, Observed.unobserved) ∈ s := by
  unfold ConstantSummary.isBottom
  rw [List.any_eq_true]
  constructor
  · rintro ⟨⟨x, o⟩, hmem, ho⟩
    cases of_decide_eq_true ho
    exact ⟨x, hmem⟩
  · rintro ⟨x, hmem⟩
    exact ⟨_, hmem, decide_eq_true rfl⟩

/-- The formula of a summary over terms is true if every variable has been observed and the state of
the values of the terms gives each constrained variable one of the values observed. -/
theorem constants_render_holds_iff (hc : t.ValuesOf c v) {s : ConstantSummary} :
    (∃ e, (constants bound).render s c = .ok e ∧ e.Holds v) ↔
      (∀ x, (x, .unobserved) ∉ s) ∧
        ∀ x vs, (x, .values vs) ∈ s → ∃ i ∈ vs, t.current? x = some (.int i) := by
  unfold constants
  dsimp only
  split_ifs with hb
  · obtain ⟨x, hx⟩ := isBottom_iff.1 hb
    constructor
    · rintro ⟨e, he, hholds⟩
      cases he
      exact absurd hholds Expr.not_holds_false
    · rintro ⟨hall, -⟩
      exact absurd hx (hall x)
  · have hobserved : ∀ x, (x, Observed.unobserved) ∉ s := fun x hx => hb (isBottom_iff.2 ⟨x, hx⟩)
    rw [and_iff_right hobserved]
    calc (∃ e, (renderConstants c s).map Expr.conjAll = .ok e ∧ e.Holds v)
        ↔ ∃ es, renderConstants c s = .ok es ∧ ∀ f ∈ es, f.Holds v := by
          cases renderConstants c s with
          | error e => simp [Except.map]
          | ok es => simp [Except.map, Expr.holds_conjAll_iff]
      _ ↔ _ := renderConstants_holds_iff
      _ ↔ _ := forall_congr' fun x => forall_congr' fun vs => imp_congr_right fun _ =>
          holds_oneOf_iff hc

/-- A summary admits the end states that give each constrained variable one of the values observed,
and none as long as some variable has not been observed. -/
theorem constants_admits_iff (hc : t.OwnTerms c) {s : ConstantSummary} :
    (constants bound).Admits s t c ↔
      (∀ x, (x, .unobserved) ∉ s) ∧
        ∀ x vs, (x, .values vs) ∈ s → ∃ i ∈ vs, t.current? x = some (.int i) :=
  constants_render_holds_iff hc.valuesOf

/-- The variables whose terms the formula of a summary is about: the constrained ones, unless some
variable has not been observed. -/
def ConstantSummary.reads (s : ConstantSummary) : List Name :=
  if ConstantSummary.isBottom s then []
  else s.filterMap fun (x, o) => match o with
    | .values _ => some x
    | _ => none

/-- A summary can be rendered over terms for the variables that its formula is about. -/
theorem exists_constants_render {s : ConstantSummary}
    (hs : ∀ x ∈ ConstantSummary.reads s, (c.current? x).isSome) :
    ∃ e, (constants bound).render s c = .ok e := by
  unfold ConstantSummary.reads at hs
  unfold constants
  dsimp only
  split_ifs at hs ⊢ with hb
  · exact ⟨_, rfl⟩
  clear hb
  -- Unless it is the least one, the summary is rendered variable by variable.
  suffices h : ∃ es, renderConstants c s = .ok es by
    obtain ⟨es, hes⟩ := h
    exact ⟨_, by rw [hes]; rfl⟩
  induction s with
  | nil => exact ⟨_, rfl⟩
  | cons p rest ih =>
    obtain ⟨x, o⟩ := p
    cases o with
    | values vs =>
      obtain ⟨hfirst, hrest⟩ := List.forall_mem_cons.1
        (show ∀ y ∈ x :: List.filterMap _ rest, (c.current? y).isSome from hs)
      obtain ⟨e, he⟩ := Option.isSome_iff_exists.1 hfirst
      obtain ⟨es, hes⟩ := ih hrest
      unfold renderConstants
      rw [he, hes]
      exact ⟨_, rfl⟩
    | unobserved => exact ih hs
    | unconstrained => exact ih hs

/-- What is known of a variable after a join was known before or comes from the state joined. -/
theorem exists_of_mem_joinConstants {s s' : ConstantSummary}
    (h : joinConstants bound t s = .ok s') {x : Name} {o' : Observed} (hmem : (x, o') ∈ s') :
    ∃ o i, (x, o) ∈ s ∧ t.current? x = some (.int i) ∧ o' = o.observe bound i := by
  induction s generalizing s' with
  | nil =>
    cases h
    cases hmem
  | cons p rest ih =>
    obtain ⟨y, o⟩ := p
    unfold joinConstants at h
    obtain ⟨i, hi, h⟩ := bind_eq_ok.1 h
    obtain ⟨rest', hrest, h⟩ := bind_eq_ok.1 h
    cases h
    -- The pair is that of the first variable or comes from the join of the rest.
    rcases List.mem_cons.mp hmem with heq | hmem
    · cases heq
      refine ⟨o, i, List.mem_cons_self, ?_, rfl⟩
      unfold endInteger at hi
      split at hi
      · cases hi
      · next heq =>
        cases hi
        exact heq
      · cases hi
    · obtain ⟨o, i, hmem, hi, ho⟩ := ih hrest hmem
      exact ⟨o, i, List.mem_cons_of_mem _ hmem, hi, ho⟩

/-- Joining an end state weakens a summary by observed values. -/
theorem constants_joinWeakens (bound : Nat) : (constants bound).JoinWeakens fun _ => True := by
  intro s s' t hjoin _
  have hobserved : ∀ x, (x, Observed.unobserved) ∉ s' := by
    intro x hx
    obtain ⟨o, i, -, -, ho⟩ := exists_of_mem_joinConstants hjoin hx
    exact o.observe_ne_unobserved bound i ho.symm
  refine ⟨fun c hc => (constants_admits_iff hc).2 ⟨hobserved, fun x vs hx => ?_⟩, ?_⟩
  · obtain ⟨o, i, -, hi, ho⟩ := exists_of_mem_joinConstants hjoin hx
    exact ⟨i, (Observed.mem_of_observe ho.symm).1, hi⟩
  · intro u c _ hc hadmits
    rw [constants_admits_iff hc] at hadmits ⊢
    refine ⟨hobserved, fun x vs hx => ?_⟩
    obtain ⟨o, i, hmem, -, ho⟩ := exists_of_mem_joinConstants hjoin hx
    rcases (Observed.mem_of_observe ho.symm).2 with rfl | ⟨ws, rfl, hsub⟩
    · exact absurd hmem (hadmits.1 x)
    · obtain ⟨j, hj, hvalue⟩ := hadmits.2 x ws hmem
      exact ⟨j, hsub j hj, hvalue⟩

end Obligations.Summary
