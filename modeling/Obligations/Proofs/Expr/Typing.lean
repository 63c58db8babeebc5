import Obligations.Expr.Eval
import Obligations.VerificationCondition
import Obligations.Proofs.Outcome

/-!
# Typing

Expressions over truth values and integers, typed by kinds. A signature gives the kinds of names and
of the arguments and results of functions, and `Expr.kind?` computes from it the kind of an
expression that uses them, and the operators, at the right kinds. Where names and functions have
values of their kinds, a well-typed expression has a value of its kind, unless it divides by zero
(`Expr.evalAt_of_kind?`); there is no other way in which evaluation of it can fail.
-/

namespace Obligations

/-- The kinds of values that evaluation has. -/
inductive Kind where
  /-- Truth values. -/
  | bool
  /-- Integers. -/
  | int
deriving DecidableEq, Repr

/-- The kind of a value. -/
def Value.kind : Value → Kind
  | bool _ => .bool
  | int _ => .int

/-- The kind of the values of a type, if evaluation has such values. -/
def Ty.kind? : Ty → Option Kind
  | .bool => some .bool
  | .int => some .int
  | _ => none

/-- The kind of an application to an operand of a kind. -/
def UnaryOp.kind? : UnaryOp → Kind → Option Kind
  | .not, .bool => some .bool
  | .neg, .int => some .int
  | _, _ => none

/-- The kind of an application to operands of two kinds. -/
def BinaryOp.kind? : BinaryOp → Kind → Kind → Option Kind
  | .and, .bool, .bool | .or, .bool, .bool | .implies, .bool, .bool | .iff, .bool, .bool =>
    some .bool
  | .eq, k, l | .neq, k, l => if k = l then some .bool else none
  | .lt, .int, .int | .le, .int, .int | .gt, .int, .int | .ge, .int, .int => some .bool
  | .add, .int, .int | .sub, .int, .int | .mul, .int, .int | .div, .int, .int | .mod, .int, .int =>
    some .int
  | _, _, _ => none

/-- The kinds of names, and of the arguments and the results of functions. -/
structure Signature where
  /-- The kind of a name. -/
  symbol : Name → Option Kind
  /-- The kinds of the arguments of a function and of its results. -/
  function : Name → Option (List Kind × Kind)

namespace Expr

/- The kind of an expression and the kinds of a list of arguments. -/
mutual

/-- The kind of a well-typed expression. -/
def kind? (s : Signature) : Expr → Option Kind
  | literal (.bool _) => some .bool
  | literal (.int _) => some .int
  | literal (.bv _ _) => none
  | symbol n => s.symbol n
  | old a => a.kind? s
  | unary op a => (a.kind? s).bind op.kind?
  | binary op a b => (a.kind? s).bind fun k => (b.kind? s).bind (op.kind? k)
  | apply f args => (kinds? s args).bind fun ks =>
    (s.function f).bind fun (ls, l) => if ls = ks then some l else none

/-- The kinds of several well-typed expressions. -/
def kinds? (s : Signature) : List Expr → Option (List Kind)
  | [] => some []
  | a :: as => (a.kind? s).bind fun k => (kinds? s as).map (k :: ·)

end

end Expr

/-! ## Operators -/

section

variable {k l m : Kind} {x y : Value} {e : EvalError}

theorem UnaryOp.apply_of_kind? {op : UnaryOp} (hop : op.kind? k = some l) (hx : x.kind = k) :
    ∃ z, op.apply e x = .ok z ∧ z.kind = l := by
  subst hx
  cases op <;> cases x <;> cases hop <;> exact ⟨_, rfl, rfl⟩

/-- A value that the left operand alone decides has the kind of the application. -/
theorem BinaryOp.kind_decidedBy? {op : BinaryOp} {z : Value} (hop : op.kind? k l = some m)
    (hx : x.kind = k) (hz : op.decidedBy? x = some z) : z.kind = m := by
  subst hx
  cases x with
  | int i => cases op <;> cases hz
  | bool b => cases op <;> cases l <;> cases hop <;> cases b <;> cases hz <;> rfl

theorem BinaryOp.apply_of_kind? {op : BinaryOp} (hop : op.kind? k l = some m) (hx : x.kind = k)
    (hy : y.kind = l) :
    op.apply e x y = .error .divisionByZero ∨ ∃ z, op.apply e x y = .ok z ∧ z.kind = m := by
  subst hx hy
  cases op <;> cases x <;> cases y <;> cases hop
  case div.int.int.refl a b | mod.int.int.refl a b =>
    by_cases hb : b = 0
    · exact .inl (if_pos hb)
    · exact .inr ⟨_, if_neg hb, rfl⟩
  all_goals exact .inr ⟨_, rfl, rfl⟩

end

/-! ## Expressions -/

/-- A valuation gives values of the right kinds to the names that are read and to the functions that
are applied. -/
structure Signature.Supplied (s : Signature) (v : Valuation) (reads : List (Moment × Name))
    (parts : List Expr) : Prop where
  /-- A name that is read has a value of its kind. -/
  read : ∀ r ∈ reads, ∀ k, s.symbol r.2 = some k → ∃ x, v.read r.1 r.2 = .ok x ∧ x.kind = k
  /-- A function that is applied has values of its kind on arguments of the right kinds. -/
  application : ∀ f args, .apply f args ∈ parts → ∀ ks k xs, s.function f = some (ks, k) →
    xs.map Value.kind = ks → ∃ x, v.application f xs = some x ∧ x.kind = k

theorem Signature.Supplied.mono {s : Signature} {v : Valuation} {rs rs' : List (Moment × Name)}
    {es es' : List Expr} (h : s.Supplied v rs es) (hrs : rs' ⊆ rs) (hes : es' ⊆ es) :
    s.Supplied v rs' es' where
  read r hr := h.read r (hrs hr)
  application f args hf := h.application f args (hes hf)

namespace Expr

variable {s : Signature} {v : Valuation}

mutual

/-- A well-typed expression has a value of its kind or divides by zero. -/
theorem evalAt_of_kind? : ∀ (e : Expr) (t : Moment) {k : Kind}, e.kind? s = some k →
    s.Supplied v (e.readsAt t) e.subexprs →
      e.evalAt v t = .error .divisionByZero ∨ ∃ x, e.evalAt v t = .ok x ∧ x.kind = k
  | literal (.bool b), _, _, hk, _ => .inr ⟨.bool b, rfl, Option.some.inj hk⟩
  | literal (.int i), _, _, hk, _ => .inr ⟨.int i, rfl, Option.some.inj hk⟩
  | literal (.bv _ _), _, _, hk, _ => by cases hk
  | symbol n, t, k, hk, hs => .inr (hs.read (t, n) (by simp [readsAt]) k hk)
  | old a, _, _, hk, hs =>
    evalAt_of_kind? a .entry hk (hs.mono (List.Subset.refl _) (by simp [subexprs]))
  | unary op a, t, k, hk, hs => by
    obtain ⟨l, hl, hop⟩ := Option.bind_eq_some_iff.1 hk
    rcases evalAt_of_kind? a t hl (hs.mono (List.Subset.refl _) (by simp [subexprs])) with
      herr | ⟨x, hx, hxk⟩
    · exact .inl (by rw [evalAt, herr]; rfl)
    · rw [evalAt, hx]
      exact .inr (UnaryOp.apply_of_kind? hop hxk)
  | binary op a b, t, k, hk, hs => by
    obtain ⟨l, hl, hk⟩ := Option.bind_eq_some_iff.1 hk
    obtain ⟨m, hm, hop⟩ := Option.bind_eq_some_iff.1 hk
    rcases evalAt_of_kind? a t hl (hs.mono (by simp [readsAt]) (by simp [subexprs])) with
      herr | ⟨x, hx, hxk⟩
    · exact .inl (by rw [evalAt, herr]; rfl)
    rw [evalAt, hx]
    simp only [bind, Except.bind]
    -- A decided operation has its value even where the right operand divides by zero.
    cases hdec : op.decidedBy? x with
    | some r => exact .inr ⟨r, rfl, BinaryOp.kind_decidedBy? hop hxk hdec⟩
    | none =>
      rcases evalAt_of_kind? b t hm (hs.mono (by simp [readsAt]) (by simp [subexprs])) with
        herr | ⟨y, hy, hyk⟩
      · exact .inl (by rw [herr])
      · rw [hy]
        exact BinaryOp.apply_of_kind? hop hxk hyk
  | apply f args, t, k, hk, hs => by
    obtain ⟨ks, hks, hk⟩ := Option.bind_eq_some_iff.1 hk
    obtain ⟨⟨ls, l⟩, hf, hk⟩ := Option.bind_eq_some_iff.1 hk
    obtain ⟨rfl, hl⟩ := Option.ite_none_right_eq_some.1 hk
    cases hl
    rcases evalAllAt_of_kinds? args t hks (hs.mono (List.Subset.refl _) (by simp [subexprs])) with
      herr | ⟨xs, hxs, hxks⟩
    · exact .inl (by rw [evalAt, herr]; rfl)
    · obtain ⟨x, hx, hxk⟩ := hs.application f args (by simp [subexprs]) _ _ xs hf hxks
      refine .inr ⟨x, ?_, hxk⟩
      rw [evalAt, hxs]
      simp [bind, Except.bind, hx]

/-- Several well-typed expressions have values of their kinds or divide by zero. -/
theorem evalAllAt_of_kinds? : ∀ (es : List Expr) (t : Moment) {ks : List Kind},
    kinds? s es = some ks → s.Supplied v (readsAllAt t es) (subexprsAll es) →
      evalAllAt v t es = .error .divisionByZero ∨
        ∃ xs, evalAllAt v t es = .ok xs ∧ xs.map Value.kind = ks
  | [], _, _, hks, _ => .inr ⟨[], rfl, Option.some.inj hks⟩
  | a :: as, t, _, hks, hs => by
    obtain ⟨k, hk, hks⟩ := Option.bind_eq_some_iff.1 hks
    obtain ⟨ks, hrest, rfl⟩ := Option.map_eq_some_iff.1 hks
    rw [evalAllAt]
    rcases evalAt_of_kind? a t hk (hs.mono (by simp [readsAllAt]) (by simp [subexprsAll])) with
      herr | ⟨x, hx, rfl⟩
    · exact .inl (by rw [herr]; rfl)
    rcases evalAllAt_of_kinds? as t hrest (hs.mono (by simp [readsAllAt]) (by simp [subexprsAll])) with
      herr | ⟨xs, hxs, rfl⟩
    · exact .inl (by rw [hx, herr]; rfl)
    · exact .inr ⟨x :: xs, by rw [hx, hxs]; rfl, rfl⟩

end

mutual

/-- The parts of a well-typed expression are well-typed. -/
theorem kind?_isSome_of_mem_subexprs : ∀ (e : Expr) {k : Kind}, e.kind? s = some k →
    ∀ a ∈ e.subexprs, (a.kind? s).isSome
  | literal (.bool _), _, _, a, ha => by cases List.mem_singleton.1 ha; rfl
  | literal (.int _), _, _, a, ha => by cases List.mem_singleton.1 ha; rfl
  | literal (.bv _ _), _, hk, _, _ => by cases hk
  | symbol n, k, hk, a, ha => by
    cases List.mem_singleton.1 ha
    exact Option.isSome_of_eq_some hk
  | old a, _, hk, b, hb => by
    rcases List.mem_cons.1 hb with rfl | hb
    · exact Option.isSome_of_eq_some hk
    · exact kind?_isSome_of_mem_subexprs a hk b hb
  | unary _ a, _, hk, b, hb => by
    rcases List.mem_cons.1 hb with rfl | hb
    · exact Option.isSome_of_eq_some hk
    · obtain ⟨l, hl, -⟩ := Option.bind_eq_some_iff.1 hk
      exact kind?_isSome_of_mem_subexprs a hl b hb
  | binary _ a b, _, hk, c, hc => by
    rcases List.mem_cons.1 hc with rfl | hc
    · exact Option.isSome_of_eq_some hk
    · obtain ⟨l, hl, hk⟩ := Option.bind_eq_some_iff.1 hk
      obtain ⟨m, hm, -⟩ := Option.bind_eq_some_iff.1 hk
      rcases List.mem_append.1 hc with hc | hc
      · exact kind?_isSome_of_mem_subexprs a hl c hc
      · exact kind?_isSome_of_mem_subexprs b hm c hc
  | apply _ args, _, hk, b, hb => by
    rcases List.mem_cons.1 hb with rfl | hb
    · exact Option.isSome_of_eq_some hk
    · obtain ⟨ks, hks, -⟩ := Option.bind_eq_some_iff.1 hk
      exact kind?_isSome_of_mem_subexprsAll args hks b hb

/-- The same for several expressions. -/
theorem kind?_isSome_of_mem_subexprsAll : ∀ (es : List Expr) {ks : List Kind},
    kinds? s es = some ks → ∀ a ∈ subexprsAll es, (a.kind? s).isSome
  | [], _, _, _, ha => by cases ha
  | e :: es, _, hks, a, ha => by
    obtain ⟨k, hk, hks⟩ := Option.bind_eq_some_iff.1 hks
    obtain ⟨ks, hrest, rfl⟩ := Option.map_eq_some_iff.1 hks
    rcases List.mem_append.1 ha with ha | ha
    · exact kind?_isSome_of_mem_subexprs e hk a ha
    · exact kind?_isSome_of_mem_subexprsAll es hrest a ha

end

end Expr

/-! ## Verification conditions -/

/-- The kinds of the arguments and results of a declared function. -/
def Function.kinds? (f : Function) : Option (List Kind × Kind) := do
  let ks ← f.params.mapM (·.ty.kind?)
  let k ← f.result.kind?
  return (ks, k)

namespace VerificationCondition

/-- The kinds that the declarations of a condition give to names and functions. Of several
declarations the first counts. -/
def signature (vc : VerificationCondition) : Signature where
  symbol n := (vc.symbols.find? (·.1 = n)).bind (·.2.kind?)
  function f := (vc.functions.find? (·.name = f)).bind Function.kinds?

/-- The condition is a formula over truth values and integers: its symbols are of these types, and
it is well-typed. -/
structure WellTyped (vc : VerificationCondition) : Prop where
  /-- Every symbol is a truth value or an integer. -/
  symbols : ∀ p ∈ vc.symbols, p.2.kind?.isSome
  /-- The formula has a truth value. -/
  formula : vc.formula.kind? vc.signature = some .bool

end VerificationCondition

end Obligations
