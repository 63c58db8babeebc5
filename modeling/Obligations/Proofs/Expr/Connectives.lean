import Mathlib.Tactic.SplitIfs
import Obligations.Expr.Eval
import Obligations.Proofs.Outcome
import Obligations.Proofs.Expr.Functions

/-!
# Truth of the simplifying connectives

A formula is decided by a valuation if its value is a truth value. The simplifying connectives keep
formulas decided and mean what their names say: `Expr.holds_conj_iff`, `Expr.holds_disj_iff`,
`Expr.holds_impl_iff` and, for a whole list, `Expr.holds_conjAll_iff` and `Expr.holds_disjAny_iff`.
A valuation matters to an expression only at the names that the expression contains
(`Expr.evalAt_congr`).
-/

namespace Obligations.Expr

/-- The formula is true under a valuation. -/
def Holds (e : Expr) (v : Valuation) : Prop := e.eval v = .ok (.bool true)

/-- The formula has a truth value under a valuation. -/
def Decided (e : Expr) (v : Valuation) : Prop := ∃ b, e.eval v = .ok (.bool b)

variable {a b : Expr} {v : Valuation}

/-! ## What a value depends on -/

section

variable {w : Valuation}

mutual

/-- Two valuations that give the same values to what an expression reads and interpret the functions
that it applies alike give it the same value. -/
theorem evalAt_congr : ∀ (e : Expr) (t : Moment),
    (∀ f ∈ e.functions, v.application f = w.application f) →
    (∀ r ∈ e.readsAt t, v.read r.1 r.2 = w.read r.1 r.2) → e.evalAt v t = e.evalAt w t
  | literal (.bool _), _, _, _ => rfl
  | literal (.int _), _, _, _ => rfl
  | literal (.bv _ _), _, _, _ => rfl
  | symbol n, t, _, h => h (t, n) (by simp [readsAt])
  | old a, _, happ, h => evalAt_congr a .entry (fun f hf => happ f (by simpa using hf)) h
  | unary _ a, t, happ, h => by
    rw [evalAt, evalAt, evalAt_congr a t (fun f hf => happ f (by simpa using hf)) h]
  | binary _ a b, t, happ, h => by
    have ha := evalAt_congr a t (fun f hf => happ f (by simp [hf]))
      fun r hr => h r (by simp [readsAt, hr])
    have hb := evalAt_congr b t (fun f hf => happ f (by simp [hf]))
      fun r hr => h r (by simp [readsAt, hr])
    rw [evalAt, evalAt, ha, hb]
  | apply g args, t, happ, h => by
    rw [evalAt, evalAt, happ g (by simp),
      evalAllAt_congr args t (fun f a ha hf => happ f (mem_functions_apply.2 (.inr ⟨a, ha, hf⟩))) h]

/-- The same for several expressions. -/
theorem evalAllAt_congr : ∀ (es : List Expr) (t : Moment),
    (∀ f, ∀ a ∈ es, f ∈ a.functions → v.application f = w.application f) →
    (∀ r ∈ readsAllAt t es, v.read r.1 r.2 = w.read r.1 r.2) → evalAllAt v t es = evalAllAt w t es
  | [], _, _, _ => rfl
  | a :: as, t, happ, h => by
    have ha := evalAt_congr a t (fun f hf => happ f a List.mem_cons_self hf)
      fun r hr => h r (by simp [readsAllAt, hr])
    have has := evalAllAt_congr as t (fun f b hb => happ f b (List.mem_cons_of_mem _ hb))
      fun r hr => h r (by simp [readsAllAt, hr])
    rw [evalAllAt, evalAllAt, ha, has]

end

mutual

/-- A value of an expression is kept under a valuation that keeps all values. -/
theorem evalAt_mono (hread : ∀ m n x, v.read m n = .ok x → w.read m n = .ok x)
    (happ : ∀ f xs x, v.application f xs = some x → w.application f xs = some x) :
    ∀ (e : Expr) (m : Moment) (x : Value), e.evalAt v m = .ok x → e.evalAt w m = .ok x
  | literal (.bool _), _, _, h => h
  | literal (.int _), _, _, h => h
  | literal (.bv _ _), _, _, h => nomatch h
  | symbol n, m, x, h => hread m n x h
  | old a, _, x, h => evalAt_mono hread happ a .entry x h
  | unary _ a, m, _, h => by
    rw [evalAt] at h ⊢
    obtain ⟨y, hy, h⟩ := bind_eq_ok.1 h
    exact bind_eq_ok.2 ⟨y, evalAt_mono hread happ a m y hy, h⟩
  | binary op a b, m, x, h => by
    rw [evalAt] at h ⊢
    obtain ⟨y, hy, h⟩ := bind_eq_ok.1 h
    refine bind_eq_ok.2 ⟨y, evalAt_mono hread happ a m y hy, ?_⟩
    -- The right operand counts only if the left one does not decide.
    cases hop : op.decidedBy? y with
    | some r =>
      rw [hop] at h
      exact h
    | none =>
      rw [hop] at h
      obtain ⟨z, hz, h⟩ := bind_eq_ok.1 h
      exact bind_eq_ok.2 ⟨z, evalAt_mono hread happ b m z hz, h⟩
  | apply f args, m, x, h => by
    rw [evalAt] at h ⊢
    obtain ⟨xs, hxs, h⟩ := bind_eq_ok.1 h
    refine bind_eq_ok.2 ⟨xs, evalAllAt_mono hread happ args m xs hxs, ?_⟩
    cases hf : v.application f xs with
    | none =>
      rw [hf] at h
      cases h
    | some y =>
      rw [hf] at h
      rw [happ f xs y hf]
      exact h

/-- The same for several expressions. -/
theorem evalAllAt_mono (hread : ∀ m n x, v.read m n = .ok x → w.read m n = .ok x)
    (happ : ∀ f xs x, v.application f xs = some x → w.application f xs = some x) :
    ∀ (es : List Expr) (m : Moment) (xs : List Value),
      evalAllAt v m es = .ok xs → evalAllAt w m es = .ok xs
  | [], _, _, h => h
  | a :: as, m, _, h => by
    rw [evalAllAt] at h ⊢
    obtain ⟨y, hy, h⟩ := bind_eq_ok.1 h
    obtain ⟨ys, hys, h⟩ := bind_eq_ok.1 h
    exact bind_eq_ok.2 ⟨y, evalAt_mono hread happ a m y hy,
      bind_eq_ok.2 ⟨ys, evalAllAt_mono hread happ as m ys hys, h⟩⟩

end

end

/-! ## Single formulas -/

/-- The literal `true` holds. -/
theorem holds_true : (bool true).Holds v := rfl

/-- A literal truth value is decided. -/
theorem decided_bool (x : Bool) : (bool x).Decided v := ⟨x, rfl⟩

theorem eq_of_isTrue (h : a.isTrue = true) : a = bool true := of_decide_eq_true h

theorem eq_of_isFalse (h : a.isFalse = true) : a = bool false := of_decide_eq_true h

/-- The value of a conjunction of decided formulas. -/
theorem eval_and {x y : Bool} (ha : a.eval v = .ok (.bool x)) (hb : b.eval v = .ok (.bool y)) :
    (binary .and a b).eval v = .ok (.bool (x && y)) := by
  unfold eval at ha hb ⊢
  rw [evalAt, ha, hb]
  cases x <;> rfl

/-- The value of a disjunction of decided formulas. -/
theorem eval_or {x y : Bool} (ha : a.eval v = .ok (.bool x)) (hb : b.eval v = .ok (.bool y)) :
    (binary .or a b).eval v = .ok (.bool (x || y)) := by
  unfold eval at ha hb ⊢
  rw [evalAt, ha, hb]
  cases x <;> rfl

/-- The value of an implication between decided formulas. -/
theorem eval_implies {x y : Bool} (ha : a.eval v = .ok (.bool x)) (hb : b.eval v = .ok (.bool y)) :
    (binary .implies a b).eval v = .ok (.bool (!x || y)) := by
  unfold eval at ha hb ⊢
  rw [evalAt, ha, hb]
  cases x <;> rfl

/-- The value of an equivalence between decided formulas. -/
theorem eval_iff {x y : Bool} (ha : a.eval v = .ok (.bool x)) (hb : b.eval v = .ok (.bool y)) :
    (binary .iff a b).eval v = .ok (.bool (x == y)) := by
  unfold eval at ha hb ⊢
  rw [evalAt, ha, hb]
  cases x <;> cases y <;> rfl

/-- The value of the negation of a decided formula. -/
theorem eval_not {x : Bool} (ha : a.eval v = .ok (.bool x)) :
    a.not.eval v = .ok (.bool (!x)) := by
  unfold eval not at *
  rw [evalAt, ha]
  rfl

/-- The value of a simplified conjunction of decided formulas. -/
theorem eval_conj {x y : Bool} (ha : a.eval v = .ok (.bool x)) (hb : b.eval v = .ok (.bool y)) :
    (a.conj b).eval v = .ok (.bool (x && y)) := by
  unfold conj
  split_ifs with h₁ h₂
  · -- The right operand stands for both: it is false, or the left one is true.
    rcases Bool.or_eq_true_iff.mp h₁ with h | h
    · cases eq_of_isTrue h
      cases ha
      exact hb
    · cases eq_of_isFalse h
      cases hb
      rw [Bool.and_false]
      rfl
  · rcases Bool.or_eq_true_iff.mp h₂ with h | h
    · cases eq_of_isTrue h
      cases hb
      rw [Bool.and_true]
      exact ha
    · cases eq_of_isFalse h
      cases ha
      rfl
  · exact eval_and ha hb

/-- The value of a simplified disjunction of decided formulas. -/
theorem eval_disj {x y : Bool} (ha : a.eval v = .ok (.bool x)) (hb : b.eval v = .ok (.bool y)) :
    (a.disj b).eval v = .ok (.bool (x || y)) := by
  unfold disj
  split_ifs with h₁ h₂
  · -- The right operand stands for both: it is true, or the left one is false.
    rcases Bool.or_eq_true_iff.mp h₁ with h | h
    · cases eq_of_isFalse h
      cases ha
      exact hb
    · cases eq_of_isTrue h
      cases hb
      rw [Bool.or_true]
      rfl
  · rcases Bool.or_eq_true_iff.mp h₂ with h | h
    · cases eq_of_isFalse h
      cases hb
      rw [Bool.or_false]
      exact ha
    · cases eq_of_isTrue h
      cases ha
      rfl
  · exact eval_or ha hb

/-- The value of a simplified implication between decided formulas. -/
theorem eval_impl {x y : Bool} (ha : a.eval v = .ok (.bool x)) (hb : b.eval v = .ok (.bool y)) :
    (a.impl b).eval v = .ok (.bool (!x || y)) := by
  unfold impl
  split_ifs with h₁ h₂ h₃
  · cases eq_of_isTrue h₁
    cases ha
    exact hb
  · rcases Bool.or_eq_true_iff.mp h₂ with h | h
    · cases eq_of_isFalse h
      cases ha
      rfl
    · cases eq_of_isTrue h
      cases hb
      rw [Bool.or_true]
      rfl
  · cases eq_of_isFalse h₃
    cases hb
    rw [Bool.or_false]
    exact eval_not ha
  · exact eval_implies ha hb

/-! ## Literal operands -/

@[simp] theorem conj_true_left : (bool true).conj b = b := if_pos rfl

@[simp] theorem conj_false_right : a.conj (bool false) = bool false := if_pos (Bool.or_true _)

@[simp] theorem conj_true_right : a.conj (bool true) = a := by
  unfold conj isTrue isFalse bool
  grind

@[simp] theorem conj_false_left : (bool false).conj b = bool false := by
  unfold conj isTrue isFalse bool
  grind

@[simp] theorem disj_false_left : (bool false).disj b = b := if_pos rfl

@[simp] theorem disj_true_right : a.disj (bool true) = bool true := if_pos (Bool.or_true _)

@[simp] theorem disj_false_right : a.disj (bool false) = a := by
  unfold disj isTrue isFalse bool
  grind

@[simp] theorem disj_true_left : (bool true).disj b = bool true := by
  unfold disj isTrue isFalse bool
  grind

@[simp] theorem impl_true_left : (bool true).impl b = b := if_pos rfl

@[simp] theorem impl_false_left : (bool false).impl b = bool true := rfl

@[simp] theorem impl_true_right : a.impl (bool true) = bool true := by
  unfold impl isTrue isFalse
  grind

/-- A conjunction is folded only if an operand is a literal. -/
theorem conj_cases (a b : Expr) : (a = bool true ∨ a = bool false) ∨
    (b = bool true ∨ b = bool false) ∨ a.conj b = binary .and a b := by
  unfold conj isTrue isFalse
  grind

/-- A disjunction is folded only if an operand is a literal. -/
theorem disj_cases (a b : Expr) : (a = bool true ∨ a = bool false) ∨
    (b = bool true ∨ b = bool false) ∨ a.disj b = binary .or a b := by
  unfold disj isTrue isFalse
  grind

/-- An implication is folded only if an operand is a literal; one to `false` is a negation. -/
theorem impl_cases (a b : Expr) : (a = bool true ∨ a = bool false) ∨
    (b = bool true ∨ b = bool false ∧ a.impl b = a.not) ∨ a.impl b = binary .implies a b := by
  unfold impl isTrue isFalse
  grind

/-! ## Left operands that decide -/

/-- A false left operand makes a simplified conjunction false, whatever the right one is. -/
theorem eval_conj_of_false (ha : a.eval v = .ok (.bool false)) :
    (a.conj b).eval v = .ok (.bool false) := by
  unfold conj
  split_ifs with h₁ h₂
  · rcases Bool.or_eq_true_iff.mp h₁ with h | h
    · cases eq_of_isTrue h
      cases ha
    · cases eq_of_isFalse h
      rfl
  · exact ha
  · unfold eval at ha ⊢
    rw [evalAt, ha]
    rfl

/-- A true left operand makes a simplified disjunction true, whatever the right one is. -/
theorem eval_disj_of_true (ha : a.eval v = .ok (.bool true)) :
    (a.disj b).eval v = .ok (.bool true) := by
  unfold disj
  split_ifs with h₁ h₂
  · rcases Bool.or_eq_true_iff.mp h₁ with h | h
    · cases eq_of_isFalse h
      cases ha
    · cases eq_of_isTrue h
      rfl
  · exact ha
  · unfold eval at ha ⊢
    rw [evalAt, ha]
    rfl

/-- A false premise makes a simplified implication true, whatever the conclusion is. -/
theorem eval_impl_of_false (ha : a.eval v = .ok (.bool false)) :
    (a.impl b).eval v = .ok (.bool true) := by
  unfold impl
  split_ifs with h₁ h₂ h₃
  · cases eq_of_isTrue h₁
    cases ha
  · rfl
  · exact eval_not ha
  · unfold eval at ha ⊢
    rw [evalAt, ha]
    rfl

/-! ## Decided formulas -/

theorem Decided.conj (ha : a.Decided v) (hb : b.Decided v) : (a.conj b).Decided v :=
  let ⟨_, ha⟩ := ha
  let ⟨_, hb⟩ := hb
  ⟨_, eval_conj ha hb⟩

theorem Decided.disj (ha : a.Decided v) (hb : b.Decided v) : (a.disj b).Decided v :=
  let ⟨_, ha⟩ := ha
  let ⟨_, hb⟩ := hb
  ⟨_, eval_disj ha hb⟩

theorem Decided.impl (ha : a.Decided v) (hb : b.Decided v) : (a.impl b).Decided v :=
  let ⟨_, ha⟩ := ha
  let ⟨_, hb⟩ := hb
  ⟨_, eval_impl ha hb⟩

/-- A binary application has the value that its left operand decides, or else the one that the
operator gives to the values of both operands. -/
theorem eval_binary_eq_ok {op : BinaryOp} {y : Value} : (binary op a b).eval v = .ok y ↔
    ∃ x, a.eval v = .ok x ∧ (op.decidedBy? x = some y ∨ op.decidedBy? x = none ∧
      ∃ z, b.eval v = .ok z ∧ op.apply (.illTyped (binary op a b)) x z = .ok y) := by
  unfold eval
  rw [evalAt, bind_eq_ok]
  refine exists_congr fun x => and_congr_right fun _ => ?_
  cases op.decidedBy? x with
  | some r => simp
  | none => simp [bind_eq_ok]

/-- A conjunction with a value has a false left operand or two truth values. -/
theorem eval_and_eq_ok {x : Value} (h : (binary .and a b).eval v = .ok x) :
    (a.eval v = .ok (.bool false) ∧ x = .bool false) ∨
      ∃ y z, a.eval v = .ok (.bool y) ∧ b.eval v = .ok (.bool z) ∧ x = .bool (y && z) := by
  obtain ⟨y, hy, hx | ⟨hnone, z, hz, hx⟩⟩ := eval_binary_eq_ok.1 h
  · rcases y with i | (_ | _)
    all_goals cases hx
    exact .inl ⟨hy, rfl⟩
  · rcases y with i | (_ | _) <;> rcases z with j | z <;> try (cases hx; done)
    · cases hnone
    · cases hx
      exact .inr ⟨true, z, hy, hz, rfl⟩

/-- A disjunction with a value has a true left operand or two truth values. -/
theorem eval_or_eq_ok {x : Value} (h : (binary .or a b).eval v = .ok x) :
    (a.eval v = .ok (.bool true) ∧ x = .bool true) ∨
      ∃ y z, a.eval v = .ok (.bool y) ∧ b.eval v = .ok (.bool z) ∧ x = .bool (y || z) := by
  obtain ⟨y, hy, hx | ⟨hnone, z, hz, hx⟩⟩ := eval_binary_eq_ok.1 h
  · rcases y with i | (_ | _)
    all_goals cases hx
    exact .inl ⟨hy, rfl⟩
  · rcases y with i | (_ | _) <;> rcases z with j | z <;> try (cases hx; done)
    · cases hx
      exact .inr ⟨false, z, hy, hz, rfl⟩
    · cases hnone

/-- An implication with a value has a false premise or two truth values. -/
theorem eval_implies_eq_ok {x : Value} (h : (binary .implies a b).eval v = .ok x) :
    (a.eval v = .ok (.bool false) ∧ x = .bool true) ∨
      ∃ y z, a.eval v = .ok (.bool y) ∧ b.eval v = .ok (.bool z) ∧ x = .bool (!y || z) := by
  obtain ⟨y, hy, hx | ⟨hnone, z, hz, hx⟩⟩ := eval_binary_eq_ok.1 h
  · rcases y with i | (_ | _)
    all_goals cases hx
    exact .inl ⟨hy, rfl⟩
  · rcases y with i | (_ | _) <;> rcases z with j | z <;> try (cases hx; done)
    · cases hnone
    · cases hx
      exact .inr ⟨true, z, hy, hz, rfl⟩

/-- A negation with a value negates a truth value. -/
theorem eval_not_eq_ok {x : Value} (h : a.not.eval v = .ok x) :
    ∃ y, a.eval v = .ok (.bool y) ∧ x = .bool !y := by
  obtain ⟨y, hy, hx⟩ := bind_eq_ok.1 (show (a.evalAt v .current >>= _) = _ from h)
  rcases y with i | y
  · cases hx
  · cases hx
    exact ⟨y, hy, rfl⟩

/-- A formula with a false negation holds. -/
theorem holds_of_not_eq_false (h : a.not.eval v = .ok (.bool false)) : a.Holds v := by
  obtain ⟨_ | _, ha, heq⟩ := eval_not_eq_ok h
  · cases heq
  · exact ha

/-- A conjunction is false for its left operand, or it has the value of its right operand. -/
theorem eval_and_eq_bool {y : Bool} : (binary .and a b).eval v = .ok (.bool y) ↔
    a.eval v = .ok (.bool false) ∧ y = false ∨ a.Holds v ∧ b.eval v = .ok (.bool y) := by
  constructor
  · intro h
    rcases eval_and_eq_ok h with ⟨ha, hy⟩ | ⟨x, z, ha, hb, hy⟩
    · cases hy
      exact .inl ⟨ha, rfl⟩
    · cases x <;> cases hy
      · exact .inl ⟨ha, rfl⟩
      · exact .inr ⟨ha, hb⟩
  · rintro (⟨ha, rfl⟩ | ⟨ha, hb⟩)
    · exact eval_binary_eq_ok.2 ⟨_, ha, .inl rfl⟩
    · exact eval_and ha hb

/-- An implication is true for its premise, or it has the value of its conclusion. -/
theorem eval_implies_eq_bool {y : Bool} : (binary .implies a b).eval v = .ok (.bool y) ↔
    a.eval v = .ok (.bool false) ∧ y = true ∨ a.Holds v ∧ b.eval v = .ok (.bool y) := by
  constructor
  · intro h
    rcases eval_implies_eq_ok h with ⟨ha, hy⟩ | ⟨x, z, ha, hb, hy⟩
    · cases hy
      exact .inl ⟨ha, rfl⟩
    · cases x <;> cases hy
      · exact .inl ⟨ha, rfl⟩
      · exact .inr ⟨ha, hb⟩
  · rintro (⟨ha, rfl⟩ | ⟨ha, hb⟩)
    · exact eval_binary_eq_ok.2 ⟨_, ha, .inl rfl⟩
    · exact eval_implies ha hb

/-- If a simplified conjunction is false, so is an operand. -/
theorem eval_conj_eq_false (h : (a.conj b).eval v = .ok (.bool false)) :
    a.eval v = .ok (.bool false) ∨ b.eval v = .ok (.bool false) := by
  rcases conj_cases a b with (rfl | rfl) | (rfl | rfl) | hconj
  · rw [conj_true_left] at h
    exact .inr h
  · exact .inl rfl
  · rw [conj_true_right] at h
    exact .inl h
  · exact .inr rfl
  · rw [hconj] at h
    exact (eval_and_eq_bool.1 h).imp And.left And.right

/-- If a simplified implication is false, its premise holds and its conclusion is false. -/
theorem eval_impl_eq_false (h : (a.impl b).eval v = .ok (.bool false)) :
    a.Holds v ∧ b.eval v = .ok (.bool false) := by
  rcases impl_cases a b with (rfl | rfl) | (rfl | ⟨rfl, hnot⟩) | himpl
  · rw [impl_true_left] at h
    exact ⟨rfl, h⟩
  · rw [impl_false_left] at h
    cases h
  · rw [impl_true_right] at h
    cases h
  · rw [hnot] at h
    exact ⟨holds_of_not_eq_false h, rfl⟩
  · rw [himpl] at h
    exact (eval_implies_eq_bool.1 h).resolve_left fun ⟨_, hfalse⟩ => nomatch hfalse

/-- If a simplified implication holds and its premise is not false, its conclusion holds. -/
theorem holds_of_holds_impl (h : (a.impl b).Holds v) (ha : a.eval v ≠ .ok (.bool false)) :
    b.Holds v := by
  rcases impl_cases a b with (rfl | rfl) | (rfl | ⟨rfl, hnot⟩) | himpl
  · rwa [impl_true_left] at h
  · exact absurd rfl ha
  · rfl
  · rw [hnot] at h
    obtain ⟨_ | _, hfalse, heq⟩ := eval_not_eq_ok h
    · exact absurd hfalse ha
    · cases heq
  · rw [himpl] at h
    rcases eval_implies_eq_bool.1 h with ⟨hfalse, -⟩ | ⟨-, hb⟩
    · exact absurd hfalse ha
    · exact hb

theorem holds_and_iff : (binary .and a b).Holds v ↔ a.Holds v ∧ b.Holds v := by
  rw [Holds, eval_and_eq_bool]
  simp [Holds]

/-- The simplified conjunction of formulas holds if both of them do. -/
theorem holds_conj_iff : (a.conj b).Holds v ↔ a.Holds v ∧ b.Holds v := by
  have hfalse : ∀ {e : Expr}, e.isFalse = true → ¬ e.Holds v := by
    intro e he h
    cases eq_of_isFalse he
    cases h
  unfold conj
  split_ifs with h₁ h₂
  · rcases Bool.or_eq_true_iff.mp h₁ with h | h
    · cases eq_of_isTrue h
      exact (and_iff_right holds_true).symm
    · exact ⟨fun hb => absurd hb (hfalse h), And.right⟩
  · rcases Bool.or_eq_true_iff.mp h₂ with h | h
    · cases eq_of_isTrue h
      exact (and_iff_left holds_true).symm
    · exact ⟨fun ha => absurd ha (hfalse h), And.left⟩
  · exact holds_and_iff

theorem holds_or_of_holds_or (h : (binary .or a b).Holds v) : a.Holds v ∨ b.Holds v := by
  rcases eval_or_eq_ok h with ⟨ha, -⟩ | ⟨_ | _, z, ha, hb, hz⟩
  · exact .inl ha
  · cases z <;> cases hz
    exact .inr hb
  · exact .inl ha

/-- If the simplified disjunction of formulas holds, so does one of them. -/
theorem holds_or_of_holds_disj (h : (a.disj b).Holds v) : a.Holds v ∨ b.Holds v := by
  unfold disj at h
  split_ifs at h
  · exact .inr h
  · exact .inl h
  · exact holds_or_of_holds_or h

/-- The simplified disjunction of decided formulas holds if one of them does. -/
theorem holds_disj_iff (ha : a.Decided v) (hb : b.Decided v) :
    (a.disj b).Holds v ↔ a.Holds v ∨ b.Holds v := by
  obtain ⟨x, ha⟩ := ha
  obtain ⟨y, hb⟩ := hb
  unfold Holds
  rw [eval_disj ha hb, ha, hb]
  simp

/-- The simplified implication between decided formulas holds if its conclusion does whenever its
premise does. -/
theorem holds_impl_iff (ha : a.Decided v) (hb : b.Decided v) :
    (a.impl b).Holds v ↔ (a.Holds v → b.Holds v) := by
  obtain ⟨x, ha⟩ := ha
  obtain ⟨y, hb⟩ := hb
  unfold Holds
  rw [eval_impl ha hb, ha, hb]
  cases x <;> cases y <;> simp

/-- An implication between decided formulas holds if its conclusion does whenever its premise
does. -/
theorem holds_implies_iff (ha : a.Decided v) (hb : b.Decided v) :
    (binary .implies a b).Holds v ↔ (a.Holds v → b.Holds v) := by
  obtain ⟨x, ha⟩ := ha
  obtain ⟨y, hb⟩ := hb
  unfold Holds
  rw [eval_implies ha hb, ha, hb]
  cases x <;> cases y <;> simp

/-- An equivalence between decided formulas holds if both of them do or neither does. -/
theorem holds_iff_iff (ha : a.Decided v) (hb : b.Decided v) :
    (binary .iff a b).Holds v ↔ (a.Holds v ↔ b.Holds v) := by
  obtain ⟨x, ha⟩ := ha
  obtain ⟨y, hb⟩ := hb
  unfold Holds
  rw [eval_iff ha hb, ha, hb]
  cases x <;> cases y <;> simp

/-- An equivalence between decided formulas is decided. -/
theorem Decided.iff (ha : a.Decided v) (hb : b.Decided v) : (binary .iff a b).Decided v :=
  let ⟨_, ha⟩ := ha
  let ⟨_, hb⟩ := hb
  ⟨_, eval_iff ha hb⟩

/-! ## Conjunctions and disjunctions of lists -/

theorem foldl_conj {es : List Expr} : (es.foldl Expr.conj a).Holds v ↔
    a.Holds v ∧ ∀ e ∈ es, e.Holds v := by
  induction es generalizing a with
  | nil => simp
  | cons e es ih => rw [List.foldl_cons, ih, holds_conj_iff, List.forall_mem_cons, and_assoc]

/-- The conjunction of formulas holds if all of them do. -/
theorem holds_conjAll_iff {es : List Expr} : (conjAll es).Holds v ↔ ∀ e ∈ es, e.Holds v := by
  unfold conjAll
  rw [foldl_conj]
  exact and_iff_right holds_true

theorem eval_foldl_conj_eq_false {es : List Expr}
    (h : (es.foldl Expr.conj a).eval v = .ok (.bool false)) :
    a.eval v = .ok (.bool false) ∨ ∃ e ∈ es, e.eval v = .ok (.bool false) := by
  induction es generalizing a with
  | nil => exact .inl h
  | cons e es ih =>
    rcases ih h with h | ⟨e', he', h⟩
    · exact (eval_conj_eq_false h).imp_right fun he => ⟨e, List.mem_cons_self, he⟩
    · exact .inr ⟨e', List.mem_cons_of_mem _ he', h⟩

/-- If the conjunction of formulas is false, so is one of them. -/
theorem eval_conjAll_eq_false {es : List Expr} (h : (conjAll es).eval v = .ok (.bool false)) :
    ∃ e ∈ es, e.eval v = .ok (.bool false) :=
  (eval_foldl_conj_eq_false h).resolve_left fun htrue => nomatch htrue

theorem decided_foldl_conj {es : List Expr} (ha : a.Decided v) (hes : ∀ e ∈ es, e.Decided v) :
    (es.foldl Expr.conj a).Decided v := by
  induction es generalizing a with
  | nil => exact ha
  | cons e es ih =>
    exact ih (ha.conj (hes e List.mem_cons_self)) fun e' he' => hes e' (List.mem_cons_of_mem _ he')

/-- The conjunction of decided formulas is decided. -/
theorem decided_conjAll {es : List Expr} (hes : ∀ e ∈ es, e.Decided v) : (conjAll es).Decided v :=
  decided_foldl_conj (decided_bool true) hes

theorem foldl_disj {es : List Expr} (ha : a.Decided v) (hes : ∀ e ∈ es, e.Decided v) :
    (es.foldl Expr.disj a).Decided v ∧
      ((es.foldl Expr.disj a).Holds v ↔ a.Holds v ∨ ∃ e ∈ es, e.Holds v) := by
  induction es generalizing a with
  | nil => exact ⟨ha, by simp⟩
  | cons e es ih =>
    have he : e.Decided v := hes e List.mem_cons_self
    obtain ⟨hd, hh⟩ := ih (ha.disj he) fun e' he' => hes e' (List.mem_cons_of_mem _ he')
    refine ⟨hd, ?_⟩
    rw [List.foldl_cons, hh, holds_disj_iff ha he, or_assoc]
    simp only [List.mem_cons, exists_eq_or_imp]

/-- The disjunction of decided formulas is decided. -/
theorem decided_disjAny {es : List Expr} (hes : ∀ e ∈ es, e.Decided v) : (disjAny es).Decided v :=
  (foldl_disj (decided_bool false) hes).1

theorem not_holds_false : ¬ (bool false).Holds v := by
  intro h
  cases h

/-- The disjunction of decided formulas holds if one of them does. -/
theorem holds_disjAny_iff {es : List Expr} (hes : ∀ e ∈ es, e.Decided v) :
    (disjAny es).Holds v ↔ ∃ e ∈ es, e.Holds v := by
  unfold disjAny
  rw [(foldl_disj (decided_bool false) hes).2]
  exact or_iff_right not_holds_false

theorem exists_of_holds_foldl_disj {es : List Expr} (h : (es.foldl Expr.disj a).Holds v) :
    a.Holds v ∨ ∃ e ∈ es, e.Holds v := by
  induction es generalizing a with
  | nil => exact .inl h
  | cons e es ih =>
    rcases ih h with h | ⟨e', he', h⟩
    · exact (holds_or_of_holds_disj h).imp_right fun he => ⟨e, List.mem_cons_self, he⟩
    · exact .inr ⟨e', List.mem_cons_of_mem _ he', h⟩

/-- If the disjunction of formulas holds, so does one of them. -/
theorem exists_of_holds_disjAny {es : List Expr} (h : (disjAny es).Holds v) :
    ∃ e ∈ es, e.Holds v :=
  (exists_of_holds_foldl_disj h).resolve_left not_holds_false

/-! ## Kinds of values -/

/-- The value of the expression, if it has one, is a truth value. -/
def BoolValued (e : Expr) (v : Valuation) : Prop := ∀ x, e.eval v = .ok x → ∃ b, x = .bool b

theorem boolValued_bool (x : Bool) : (bool x).BoolValued v := by
  rintro _ ⟨⟩
  exact ⟨x, rfl⟩

theorem boolValued_eq : (binary .eq a b).BoolValued v := by
  intro x hx
  obtain ⟨y, -, hdecided | ⟨-, z, -, happly⟩⟩ := eval_binary_eq_ok.1 hx
  · cases hdecided
  · rw [BinaryOp.apply] at happly
    split_ifs at happly
    cases happly
    exact ⟨_, rfl⟩

theorem BoolValued.conj (ha : a.BoolValued v) (hb : b.BoolValued v) : (a.conj b).BoolValued v := by
  rcases conj_cases a b with (rfl | rfl) | (rfl | rfl) | hconj
  · rwa [conj_true_left]
  · rwa [conj_false_left]
  · rwa [conj_true_right]
  · rwa [conj_false_right]
  · rw [hconj]
    intro x hx
    rcases eval_and_eq_ok hx with ⟨-, rfl⟩ | ⟨y, z, -, -, rfl⟩
    · exact ⟨_, rfl⟩
    · exact ⟨_, rfl⟩

theorem BoolValued.disj (ha : a.BoolValued v) (hb : b.BoolValued v) : (a.disj b).BoolValued v := by
  rcases disj_cases a b with (rfl | rfl) | (rfl | rfl) | hdisj
  · rwa [disj_true_left]
  · rwa [disj_false_left]
  · rwa [disj_true_right]
  · rwa [disj_false_right]
  · rw [hdisj]
    intro x hx
    rcases eval_or_eq_ok hx with ⟨-, rfl⟩ | ⟨y, z, -, -, rfl⟩
    · exact ⟨_, rfl⟩
    · exact ⟨_, rfl⟩

/-- The conjunction of formulas has a truth value if it has a value. -/
theorem boolValued_conjAll {es : List Expr} (hes : ∀ e ∈ es, e.BoolValued v) :
    (conjAll es).BoolValued v :=
  conjAll_induction (boolValued_bool true) (fun _ _ => .conj) hes

/-- The same of the disjunction. -/
theorem boolValued_disjAny {es : List Expr} (hes : ∀ e ∈ es, e.BoolValued v) :
    (disjAny es).BoolValued v :=
  List.foldlRecOn (motive := (BoolValued · v)) es Expr.disj (boolValued_bool false)
    fun _ ha e he => BoolValued.disj ha (hes e he)

/-! ## Arguments -/

/-- Several expressions have values if each of them has one. -/
theorem evalAllAt_eq_ok {t : Moment} {es : List Expr} {xs : List Value} :
    evalAllAt v t es = .ok xs ↔ List.Forall₂ (fun e x => e.evalAt v t = .ok x) es xs := by
  induction es generalizing xs with
  | nil =>
    rw [evalAllAt, List.forall₂_nil_left_iff]
    exact ⟨fun h => (Except.ok.inj h).symm, fun h => h ▸ rfl⟩
  | cons e es ih =>
    rw [evalAllAt, List.forall₂_cons_left_iff, bind_eq_ok]
    constructor
    · rintro ⟨x, hx, h⟩
      obtain ⟨xs, hxs, heq⟩ := bind_eq_ok.1 h
      cases heq
      exact ⟨x, xs, hx, ih.1 hxs, rfl⟩
    · rintro ⟨x, xs, hx, hxs, rfl⟩
      exact ⟨x, hx, bind_eq_ok.2 ⟨xs, ih.2 hxs, rfl⟩⟩

/-- An application has the value that the function has on the values of the arguments. -/
theorem eval_apply_eq_ok {f : Name} {args : List Expr} {x : Value} :
    (apply f args).eval v = .ok x ↔
      ∃ xs, evalAllAt v .current args = .ok xs ∧ v.application f xs = some x := by
  unfold eval
  rw [evalAt, bind_eq_ok]
  refine exists_congr fun xs => and_congr_right fun _ => ?_
  cases v.application f xs with
  | none => simp
  | some y => simp

end Obligations.Expr
