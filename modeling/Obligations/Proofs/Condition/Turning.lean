import Obligations.Proofs.Condition.Inline
import Obligations.Proofs.Expr.Functions

/-!
# What turns with a condition

A formula that is false under one valuation and true under another one has turned. In the condition
of a passive body, with the conditions of successors copied, assumptions stand as premises and
assertions as conclusions. So if the assumptions that are true under the first valuation are true
under the second one too, it is an assertion that has turned (`Condition.exists_assert_of_turns`).
-/

namespace Obligations

namespace Expr

/-- A part of a formula is false under the first valuation and true under the second one. -/
structure Turns (e : Expr) (v w : Valuation) (formula : Expr) : Prop where
  /-- It is a part. -/
  part : e ∈ formula.subexprs
  /-- It is false under the first valuation. -/
  before : e.eval v = .ok (.bool false)
  /-- It is true under the second one. -/
  after : e.Holds w

/-- As a part of a formula, an expression that is true under the first valuation is true under the
second one. -/
def Keeps (e : Expr) (v w : Valuation) (formula : Expr) : Prop :=
  e ∈ formula.subexprs → e.Holds v → e.Holds w

variable {v w : Valuation} {formula a b : Expr}

theorem self_mem_subexprs (e : Expr) : e ∈ e.subexprs := by
  cases e <;> simp [subexprs]

/-- An expression that has turned has turned as a part of itself. -/
theorem Turns.self (hbefore : a.eval v = .ok (.bool false)) (hafter : a.Holds w) : a.Turns v w a :=
  ⟨a.self_mem_subexprs, hbefore, hafter⟩

theorem mem_subexprs_of_unary {op : UnaryOp} (h : unary op a ∈ formula.subexprs) :
    a ∈ formula.subexprs :=
  subexprs_subset_of_mem h (by simp [subexprs, a.self_mem_subexprs])

theorem mem_subexprs_of_binary {op : BinaryOp} (h : binary op a b ∈ formula.subexprs) :
    a ∈ formula.subexprs ∧ b ∈ formula.subexprs :=
  ⟨subexprs_subset_of_mem h (by simp [subexprs, a.self_mem_subexprs]),
    subexprs_subset_of_mem h (by simp [subexprs, b.self_mem_subexprs])⟩

theorem not_turns_bool {x : Bool} : ¬ (bool x).Turns v w formula := by
  intro h
  have hbefore : Value.bool x = .bool false := Except.ok.inj h.before
  have hafter : Value.bool x = .bool true := Except.ok.inj h.after
  cases hbefore.symm.trans hafter

/-- If a simplified conjunction has turned, so has an operand. -/
theorem turns_of_conj (h : (a.conj b).Turns v w formula) :
    a.Turns v w formula ∨ b.Turns v w formula := by
  rcases conj_cases a b with (rfl | rfl) | (rfl | rfl) | hconj
  · rw [conj_true_left] at h
    exact .inr h
  · rw [conj_false_left] at h
    exact absurd h not_turns_bool
  · rw [conj_true_right] at h
    exact .inl h
  · rw [conj_false_right] at h
    exact absurd h not_turns_bool
  · rw [hconj] at h
    obtain ⟨hpartA, hpartB⟩ := mem_subexprs_of_binary h.part
    obtain ⟨ha, hb⟩ := holds_and_iff.1 h.after
    rcases eval_and_eq_bool.1 h.before with ⟨hfalse, -⟩ | ⟨-, hfalse⟩
    · exact .inl ⟨hpartA, hfalse, ha⟩
    · exact .inr ⟨hpartB, hfalse, hb⟩

/-- If a simplified implication has turned and its premise stays true, its conclusion has turned. -/
theorem turns_of_impl (h : (a.impl b).Turns v w formula) (ha : a.Keeps v w formula) :
    b.Turns v w formula := by
  rcases impl_cases a b with (rfl | rfl) | (rfl | ⟨rfl, hnot⟩) | himpl
  · rwa [impl_true_left] at h
  · rw [impl_false_left] at h
    exact absurd h not_turns_bool
  · rw [impl_true_right] at h
    exact absurd h not_turns_bool
  · -- The negation of a premise that stays true does not turn.
    rw [hnot] at h
    have hholds : a.Holds v := holds_of_not_eq_false h.before
    have hfalse : a.not.eval w = .ok (.bool false) :=
      eval_not (ha (mem_subexprs_of_unary h.part) hholds)
    cases hfalse.symm.trans h.after
  · rw [himpl] at h
    obtain ⟨hpartA, hpartB⟩ := mem_subexprs_of_binary h.part
    rcases eval_implies_eq_bool.1 h.before with ⟨-, hfalse⟩ | ⟨hholds, hfalse⟩
    · cases hfalse
    rcases eval_implies_eq_bool.1 h.after with ⟨hnot, -⟩ | ⟨-, hb⟩
    · cases hnot.symm.trans (ha hpartA hholds)
    · exact ⟨hpartB, hfalse, hb⟩

theorem turns_of_foldl_conj {es : List Expr} (h : (es.foldl conj a).Turns v w formula) :
    a.Turns v w formula ∨ ∃ e ∈ es, e.Turns v w formula := by
  induction es generalizing a with
  | nil => exact .inl h
  | cons e es ih =>
    rcases ih h with h | ⟨e', he', h⟩
    · exact (turns_of_conj h).imp_right fun he => ⟨e, List.mem_cons_self, he⟩
    · exact .inr ⟨e', List.mem_cons_of_mem _ he', h⟩

/-- If the conjunction of formulas has turned, so has one of them. -/
theorem turns_of_conjAll {es : List Expr} (h : (conjAll es).Turns v w formula) :
    ∃ e ∈ es, e.Turns v w formula :=
  (turns_of_foldl_conj h).resolve_left not_turns_bool

end Expr

namespace Condition

variable {v w : Valuation} {formula : Expr} {i : Implementation}

/-- If the weakest precondition of commands has turned, and what they assume stays true, so has what
one of them asserts, or what comes after them. -/
theorem turns_of_ofCmds {label : Name} {post : Expr} : ∀ {cmds : List Cmd} {e : Expr},
    ofCmds label post cmds = .ok e → e.Turns v w formula →
    (∀ a, .assume a ∈ cmds → a.Keeps v w formula) →
    (∃ a, .assert a ∈ cmds ∧ a.condition.Turns v w formula) ∨ post.Turns v w formula
  | [], _, he, h, _ => by
    cases he
    exact .inr h
  | c :: cs, _, he, h, hkeeps => by
    obtain ⟨q, hq, he⟩ := bind_eq_ok.1 he
    -- An assertion of the later commands is one of all of them.
    have hrest : q.Turns v w formula →
        (∃ a, .assert a ∈ c :: cs ∧ a.condition.Turns v w formula) ∨ post.Turns v w formula :=
      fun hturns => (turns_of_ofCmds hq hturns fun a ha =>
        hkeeps a (List.mem_cons_of_mem _ ha)).imp_left
          fun ⟨a, ha, hturns⟩ => ⟨a, List.mem_cons_of_mem _ ha, hturns⟩
    cases c with
    | assert a =>
      cases he
      rcases Expr.turns_of_conj h with h | h
      · exact .inl ⟨a, List.mem_cons_self, h⟩
      · exact hrest h
    | assume a =>
      cases he
      exact hrest (Expr.turns_of_impl h (hkeeps a List.mem_cons_self))
    | assign | havoc | call | comment | scope => cases he

/-- What the blocks of a list assume stays true. -/
def AssumptionsKept (v w : Valuation) (formula : Expr) (i : Implementation) (ids : List Nat) : Prop :=
  ∀ id ∈ ids, ∀ a, .assume a ∈ i.cmdsAt id → a.Keeps v w formula

/-- What a block of a list asserts has turned. -/
def AssertionTurns (v w : Valuation) (formula : Expr) (i : Implementation) (ids : List Nat) : Prop :=
  ∃ id ∈ ids, ∃ a, .assert a ∈ i.cmdsAt id ∧ a.condition.Turns v w formula

/-- If a condition of the table has turned, so has an assertion of the blocks of the table. -/
theorem turns_of_inlineTable : ∀ {ids : List Nat} {t : Table}, inlineTable i ids = .ok t →
    AssumptionsKept v w formula i ids → ∀ p ∈ t, p.2.Turns v w formula →
    AssertionTurns v w formula i ids
  | [], _, ht, _ => by
    cases ht
    exact fun _ hp => nomatch hp
  | id :: ids, _, h, hkept => by
    obtain ⟨t, ht, h⟩ := bind_eq_ok.1 h
    obtain ⟨b, hb, h⟩ := bind_eq_ok.1 h
    obtain ⟨post, hpost, h⟩ := bind_eq_ok.1 h
    obtain ⟨e, he, h⟩ := bind_eq_ok.1 h
    cases h
    obtain ⟨hfirst, hlater⟩ := List.forall_mem_cons.1 hkept
    -- What turns in the rest of the table does so because of a later block.
    have hrest : ∀ p ∈ t, p.2.Turns v w formula → AssertionTurns v w formula i (id :: ids) :=
      fun p hp hturns =>
        let ⟨id', hid', hturns⟩ := turns_of_inlineTable ht hlater p hp hturns
        ⟨id', List.mem_cons_of_mem _ hid', hturns⟩
    refine List.forall_mem_cons.2 ⟨fun hturns => ?_, hrest⟩
    rw [← cmdsAt_of_blockAt hb] at he
    -- Either an assertion of the block itself has turned or the condition of a successor, from the
    -- rest of the table.
    rcases turns_of_ofCmds he hturns hfirst with hturns | hturns
    · exact ⟨id, List.mem_cons_self, hturns⟩
    · obtain ⟨a, ha, hturns⟩ := Expr.turns_of_conjAll hturns
      obtain ⟨next, -, hnext⟩ := exists_mem_of_forall₂ (mapM_eq_ok_iff.1 hpost).flip ha
      exact hrest _ (Table.mem_of_get_eq_ok hnext) hturns

/-- If the condition of a body has turned and what its blocks assume stays true, then what one of
them asserts has turned. -/
theorem exists_assert_of_turns {order : List Nat} {e : Expr} (he : inlined i order = .ok e)
    (h : e.Turns v w formula) (hkept : AssumptionsKept v w formula i order) :
    AssertionTurns v w formula i order := by
  obtain ⟨t, ht, he⟩ := bind_eq_ok.1 he
  exact turns_of_inlineTable ht hkept _ (Table.mem_of_get_eq_ok he) h

end Condition

end Obligations
