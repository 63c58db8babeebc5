import Mathlib.Tactic.SplitIfs
import Obligations.Expr.Subst

/-!
# Interpretations

The stages that prepare a body treat expressions as trees. What they preserve is stated over every
interpretation of literals, operators and functions in which equality and conjunction mean what they
should: `Interpretation` holds these laws.

`valueAt_congr` says that the value of an expression depends on what it reads only, and
`valueAt_substAt` that replacing names in an expression is reading other values.
-/

namespace Obligations

namespace Expr

mutual

/-- Which names an expression reads does not depend on when it is read. -/
theorem map_snd_readsAt : ∀ (e : Expr) (t t' : Moment),
    (e.readsAt t).map (·.2) = (e.readsAt t').map (·.2)
  | literal _, _, _ => rfl
  | symbol _, _, _ => rfl
  | old _, _, _ => rfl
  | unary _ a, t, t' => map_snd_readsAt a t t'
  | binary _ a b, t, t' => by
    rw [readsAt, readsAt, List.map_append, List.map_append, map_snd_readsAt a t t',
      map_snd_readsAt b t t']
  | apply _ args, t, t' => map_snd_readsAllAt args t t'

/-- Which names several expressions read does not depend on when they are read. -/
theorem map_snd_readsAllAt : ∀ (es : List Expr) (t t' : Moment),
    (readsAllAt t es).map (·.2) = (readsAllAt t' es).map (·.2)
  | [], _, _ => rfl
  | a :: as, t, t' => by
    rw [readsAllAt, readsAllAt, List.map_append, List.map_append, map_snd_readsAt a t t',
      map_snd_readsAllAt as t t']

end

/-- Whenever an expression is read, it reads its names only. -/
theorem mem_names_of_mem_readsAt {e : Expr} {t : Moment} {p : Moment × Name}
    (h : p ∈ e.readsAt t) : p.2 ∈ e.names := by
  rw [names, map_snd_readsAt e .current t]
  exact List.mem_map_of_mem h

@[simp] theorem mem_names_symbol {x n : Name} : x ∈ (symbol n).names ↔ x = n := by
  simp [names, readsAt]

@[simp] theorem mem_names_binary {x : Name} {op : BinaryOp} {a b : Expr} :
    x ∈ (binary op a b).names ↔ x ∈ a.names ∨ x ∈ b.names := by
  simp [names, readsAt]

section

variable {f : Moment → Subst} {keepOld : Bool} {x : Name}

mutual

/-- After a substitution an expression reads names of what its own names are replaced by. -/
theorem exists_of_mem_names_substAt : ∀ (e : Expr) (t : Moment),
    x ∈ (e.substAt f keepOld t).names →
      ∃ p ∈ e.readsAt t, x ∈ ((f p.1 p.2).getD (.symbol p.2)).names
  | literal _, _, h => by cases h
  | symbol n, t, h => ⟨(t, n), by simp [readsAt], h⟩
  | old a, _, h => by
    -- The operand is read at the entry, whether `old` stays or not.
    refine exists_of_mem_names_substAt a .entry ?_
    rw [substAt] at h
    cases keepOld with
    | true =>
      rw [names, map_snd_readsAt _ .current .entry]
      exact h
    | false => exact h
  | unary _ a, t, h => exists_of_mem_names_substAt a t h
  | binary _ a b, t, h => by
    rw [substAt, names, readsAt, List.map_append, List.mem_append] at h
    rcases h with h | h
    · obtain ⟨p, hp, hx⟩ := exists_of_mem_names_substAt a t h
      exact ⟨p, by simp [readsAt, hp], hx⟩
    · obtain ⟨p, hp, hx⟩ := exists_of_mem_names_substAt b t h
      exact ⟨p, by simp [readsAt, hp], hx⟩
  | apply _ args, t, h => exists_of_mem_names_substAllAt args t h

/-- The same for several expressions. -/
theorem exists_of_mem_names_substAllAt : ∀ (es : List Expr) (t : Moment),
    x ∈ (readsAllAt .current (substAllAt f keepOld t es)).map (·.2) →
      ∃ p ∈ readsAllAt t es, x ∈ ((f p.1 p.2).getD (.symbol p.2)).names
  | [], _, h => by cases h
  | a :: as, t, h => by
    rw [substAllAt, readsAllAt, List.map_append, List.mem_append] at h
    rcases h with h | h
    · obtain ⟨p, hp, hx⟩ := exists_of_mem_names_substAt a t h
      exact ⟨p, by simp [readsAllAt, hp], hx⟩
    · obtain ⟨p, hp, hx⟩ := exists_of_mem_names_substAllAt as t h
      exact ⟨p, by simp [readsAllAt, hp], hx⟩

end

end

end Expr

/-- A meaning for literals, operators and functions. An operator or function may have no value on
some operands. The right operand of an operator may itself have no value, for the left one may
decide. -/
structure Interpretation where
  /-- The values. -/
  Carrier : Type
  /-- The value of a literal. -/
  literal : Literal → Carrier
  /-- The value of an operator on one operand. -/
  unary : UnaryOp → Carrier → Option Carrier
  /-- The value of an operator on two operands. -/
  binary : BinaryOp → Carrier → Option Carrier → Option Carrier
  /-- The value of a function on arguments. -/
  application : Name → List Carrier → Option Carrier
  /-- Truth and falsity differ. -/
  true_ne_false : literal (.bool true) ≠ literal (.bool false)
  /-- An equality is true if both sides have the same value. -/
  eq_iff : ∀ x y, binary .eq x y = some (literal (.bool true)) ↔ y = some x
  /-- A conjunction is true if both sides are. -/
  and_iff : ∀ x y, binary .and x y = some (literal (.bool true)) ↔
    x = literal (.bool true) ∧ y = some (literal (.bool true))

namespace Interpretation

/-- The value of the literal `true`. -/
def truth (I : Interpretation) : I.Carrier := I.literal (.bool true)

/-- The value of the literal `false`. -/
def falsity (I : Interpretation) : I.Carrier := I.literal (.bool false)

/-- What names denote at a moment, if they denote something. -/
abbrev Reading (I : Interpretation) := Moment → Name → Option I.Carrier

variable {I : Interpretation}

/- The value of an expression, and the values of a list of arguments. -/
mutual

/-- The value of an expression whose names are read at a moment. -/
def valueAt (I : Interpretation) (r : I.Reading) (t : Moment) : Expr → Option I.Carrier
  | .literal l => some (I.literal l)
  | .symbol n => r t n
  | .old a => I.valueAt r .entry a
  | .unary op a => (I.valueAt r t a).bind (I.unary op)
  | .binary op a b => (I.valueAt r t a).bind fun x => I.binary op x (I.valueAt r t b)
  | .apply f args => (I.valuesAt r t args).bind (I.application f)

/-- The values of several expressions. -/
def valuesAt (I : Interpretation) (r : I.Reading) (t : Moment) :
    List Expr → Option (List I.Carrier)
  | [] => some []
  | a :: as => (I.valueAt r t a).bind fun x => (I.valuesAt r t as).map (x :: ·)

end

/-- The value of an expression in the state at hand. -/
def value (I : Interpretation) (r : I.Reading) (e : Expr) : Option I.Carrier :=
  I.valueAt r .current e

/-! ## What a value depends on -/

section

variable {r r' : I.Reading}

mutual

/-- An expression has the same value wherever it reads the same. -/
theorem valueAt_congr :
    ∀ (e : Expr) (t : Moment), (∀ p ∈ e.readsAt t, r p.1 p.2 = r' p.1 p.2) →
      I.valueAt r t e = I.valueAt r' t e
  | .literal _, _, _ => rfl
  | .symbol n, t, h => h (t, n) (by simp [Expr.readsAt])
  | .old a, _, h => valueAt_congr a .entry h
  | .unary _ a, t, h => by
    rw [valueAt, valueAt, valueAt_congr a t h]
  | .binary _ a b, t, h => by
    have ha := valueAt_congr a t fun p hp => h p (by simp [Expr.readsAt, hp])
    have hb := valueAt_congr b t fun p hp => h p (by simp [Expr.readsAt, hp])
    rw [valueAt, valueAt, ha, hb]
  | .apply _ args, t, h => by
    rw [valueAt, valueAt, valuesAt_congr args t h]

/-- The same for several expressions. -/
theorem valuesAt_congr :
    ∀ (es : List Expr) (t : Moment), (∀ p ∈ Expr.readsAllAt t es, r p.1 p.2 = r' p.1 p.2) →
      I.valuesAt r t es = I.valuesAt r' t es
  | [], _, _ => rfl
  | a :: as, t, h => by
    have ha := valueAt_congr a t fun p hp => h p (by simp [Expr.readsAllAt, hp])
    have has := valuesAt_congr as t fun p hp => h p (by simp [Expr.readsAllAt, hp])
    rw [valuesAt, valuesAt, ha, has]

end

/-- An expression has the same value, whenever it is read, if all its names denote the same. -/
theorem valueAt_congr_names {e : Expr} {t : Moment} (h : ∀ n ∈ e.names, ∀ t, r t n = r' t n) :
    I.valueAt r t e = I.valueAt r' t e :=
  valueAt_congr e t fun p hp => h p.2 (Expr.mem_names_of_mem_readsAt hp) p.1

/-- The moment at which the parts of an expression are read after a substitution: where `old` is
dropped, all of them are read at the moment of the whole. -/
def momentAfter (keepOld : Bool) (whole part : Moment) : Moment := if keepOld then part else whole

mutual

/-- After a substitution an expression has the value that it has where each name denotes what
replaces it. -/
theorem valueAt_substAt {f : Moment → Subst} {keepOld : Bool} {whole : Moment} :
    ∀ (e : Expr) (t : Moment),
      (∀ p ∈ e.readsAt t, I.valueAt r' (momentAfter keepOld whole p.1)
        ((f p.1 p.2).getD (.symbol p.2)) = r p.1 p.2) →
      I.valueAt r' (momentAfter keepOld whole t) (e.substAt f keepOld t) = I.valueAt r t e
  | .literal _, _, _ => rfl
  | .symbol n, t, h => h (t, n) (by simp [Expr.readsAt])
  | .old a, t, h => by
    have ha := valueAt_substAt a .entry h
    rw [valueAt, ← ha, Expr.substAt]
    cases keepOld <;> rfl
  | .unary _ a, t, h => by
    rw [Expr.substAt, valueAt, valueAt, valueAt_substAt a t h]
  | .binary _ a b, t, h => by
    have ha := valueAt_substAt a t fun p hp => h p (by simp [Expr.readsAt, hp])
    have hb := valueAt_substAt b t fun p hp => h p (by simp [Expr.readsAt, hp])
    rw [Expr.substAt, valueAt, valueAt, ha, hb]
  | .apply _ args, t, h => by
    rw [Expr.substAt, valueAt, valueAt, valuesAt_substAllAt args t h]

/-- The same for several expressions. -/
theorem valuesAt_substAllAt {f : Moment → Subst} {keepOld : Bool} {whole : Moment} :
    ∀ (es : List Expr) (t : Moment),
      (∀ p ∈ Expr.readsAllAt t es, I.valueAt r' (momentAfter keepOld whole p.1)
        ((f p.1 p.2).getD (.symbol p.2)) = r p.1 p.2) →
      I.valuesAt r' (momentAfter keepOld whole t) (Expr.substAllAt f keepOld t es) =
        I.valuesAt r t es
  | [], _, _ => rfl
  | a :: as, t, h => by
    have ha := valueAt_substAt a t fun p hp => h p (by simp [Expr.readsAllAt, hp])
    have has := valuesAt_substAllAt as t fun p hp => h p (by simp [Expr.readsAllAt, hp])
    rw [Expr.substAllAt, valuesAt, valuesAt, ha, has]

end

/-- A substitution that keeps `old` replaces each name at its own moment. -/
theorem value_substitute {f : Subst} {e : Expr}
    (h : ∀ p ∈ e.readsAt .current, I.valueAt r' p.1 ((f p.2).getD (.symbol p.2)) = r p.1 p.2) :
    I.value r' (e.substitute f) = I.value r e := by
  have hsubst : I.valueAt r' (momentAfter true .current .current)
      (e.substAt (fun _ => f) true .current) = I.valueAt r .current e :=
    valueAt_substAt e .current h
  exact hsubst

/-- A substitution that drops `old` replaces each name by something that is read in the state at
hand. -/
theorem value_substituteOld {always onEntry : Subst} {e : Expr}
    (hcurrent : ∀ n, (.current, n) ∈ e.readsAt .current →
      I.value r' ((always n).getD (.symbol n)) = r .current n)
    (hentry : ∀ n, (.entry, n) ∈ e.readsAt .current →
      I.value r' (((onEntry n).or (always n)).getD (.symbol n)) = r .entry n) :
    I.value r' (e.substituteOld always onEntry) = I.value r e := by
  unfold Expr.substituteOld
  change I.valueAt r' (momentAfter false .current .current) _ = I.valueAt r .current e
  refine valueAt_substAt e .current fun p hp => ?_
  obtain ⟨t, n⟩ := p
  cases t with
  | current => exact hcurrent n hp
  | entry => exact hentry n hp

end

/-! ## Truth -/

section

variable {r : I.Reading} {a b : Expr}

/-- The formula is true where names denote what a reading says. -/
def Holds (I : Interpretation) (r : I.Reading) (e : Expr) : Prop := I.value r e = some I.truth

theorem holds_bool_true : I.Holds r (.bool true) := rfl

theorem not_holds_bool_false : ¬ I.Holds r (.bool false) := by
  intro h
  exact I.true_ne_false (Option.some.inj h).symm

/-- An equality is true if both sides have the same value. -/
theorem holds_eq_iff : I.Holds r (.binary .eq a b) ↔
    ∃ x, I.value r a = some x ∧ I.value r b = some x := by
  unfold Holds value
  rw [valueAt, Option.bind_eq_some_iff]
  exact exists_congr fun x => and_congr_right fun _ => I.eq_iff x _

/-- The simplified conjunction is true if both formulas are. -/
theorem holds_conj_iff : I.Holds r (a.conj b) ↔ I.Holds r a ∧ I.Holds r b := by
  -- What a formula simplifies to is told from a literal operand.
  have htrue : ∀ {e : Expr}, e.isTrue = true → I.Holds r e := by
    intro e he
    rw [show e = .bool true from of_decide_eq_true he]
    exact holds_bool_true
  have hfalse : ∀ {e : Expr}, e.isFalse = true → ¬ I.Holds r e := by
    intro e he
    rw [show e = .bool false from of_decide_eq_true he]
    exact not_holds_bool_false
  unfold Expr.conj
  split_ifs with h₁ h₂
  · rcases Bool.or_eq_true_iff.mp h₁ with h | h
    · exact (and_iff_right (htrue h)).symm
    · exact iff_of_false (hfalse h) fun hab => hfalse h hab.2
  · rcases Bool.or_eq_true_iff.mp h₂ with h | h
    · exact (and_iff_left (htrue h)).symm
    · exact iff_of_false (hfalse h) fun hab => hfalse h hab.1
  · unfold Holds value
    rw [valueAt, Option.bind_eq_some_iff]
    constructor
    · rintro ⟨x, hx, hand⟩
      obtain ⟨rfl, hb⟩ := (I.and_iff x _).1 hand
      exact ⟨hx, hb⟩
    · rintro ⟨ha, hb⟩
      exact ⟨_, ha, (I.and_iff _ _).2 ⟨rfl, hb⟩⟩

/-- The conjunction of a list is true if all formulas of the list are. -/
theorem holds_conjAll_iff {es : List Expr} :
    I.Holds r (.conjAll es) ↔ ∀ e ∈ es, I.Holds r e := by
  have hfold : ∀ (es : List Expr) (a : Expr),
      I.Holds r (es.foldl Expr.conj a) ↔ I.Holds r a ∧ ∀ e ∈ es, I.Holds r e := by
    intro es
    induction es with
    | nil => simp
    | cons e es ih =>
      intro a
      rw [List.foldl_cons, ih, holds_conj_iff, List.forall_mem_cons, and_assoc]
  unfold Expr.conjAll
  rw [hfold]
  exact and_iff_right holds_bool_true

end

end Interpretation

end Obligations
