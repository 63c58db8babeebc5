import Mathlib.Data.Int.Lemmas
import Obligations.Proofs.Expr.Substitution
import Obligations.Proofs.Expr.Typing
import Obligations.Proofs.Solver.Term

/-!
# Terms in the theories of a solver

What the S-expression of a term means to a solver: `meaning` interprets it by the functions of the
theories Core and Ints, which are total, over a `Structure` that supplies everything else. Division
is the one that leaves a remainder between zero and the divisor, and a division by zero may give
anything. Where evaluation of an expression gives a value, its S-expression means that value in every
structure that goes on from the valuation (`termText_means_eval`).
-/

namespace Obligations.Solver

/-! ## Structures -/

/-- What the theories leave open: the values of declared constants and functions, and quotients and
remainders, which are determined except for a divisor of zero. -/
structure Structure where
  /-- The value of a constant. -/
  constant : String → Option Value
  /-- The value of a function on arguments. -/
  function : String → List Value → Option Value
  /-- The quotient. -/
  div : Int → Int → Int
  /-- The remainder. -/
  mod : Int → Int → Int
  /-- The divisor times the quotient falls short of the dividend by the remainder, which is at least
  zero and less than the absolute value of the divisor. -/
  div_mod : ∀ a b, b ≠ 0 → a = b * div a b + mod a b ∧ 0 ≤ mod a b ∧ mod a b < |b|

namespace Structure

variable (M : Structure)

/-- The functions of the theories Core and Ints at the ranks that these declare. -/
def theory : String → List Value → Option Value
  | "not", [.bool a] => some (.bool !a)
  | "=>", [.bool a, .bool b] => some (.bool (!a || b))
  | "and", [.bool a, .bool b] => some (.bool (a && b))
  | "or", [.bool a, .bool b] => some (.bool (a || b))
  | "xor", [.bool a, .bool b] => some (.bool (a ^^ b))
  | "=", [a, b] => if a.kind = b.kind then some (.bool (a = b)) else none
  | "distinct", [a, b] => if a.kind = b.kind then some (.bool (a ≠ b)) else none
  | "ite", [.bool c, a, b] => if a.kind = b.kind then some (if c then a else b) else none
  | "-", [.int a] => some (.int (-a))
  | "-", [.int a, .int b] => some (.int (a - b))
  | "+", [.int a, .int b] => some (.int (a + b))
  | "*", [.int a, .int b] => some (.int (a * b))
  | "div", [.int a, .int b] => some (.int (M.div a b))
  | "mod", [.int a, .int b] => some (.int (M.mod a b))
  | "abs", [.int a] => some (.int |a|)
  | "<=", [.int a, .int b] => some (.bool (a ≤ b))
  | "<", [.int a, .int b] => some (.bool (a < b))
  | ">=", [.int a, .int b] => some (.bool (b ≤ a))
  | ">", [.int a, .int b] => some (.bool (b < a))
  | _, _ => none

end Structure

/-- The symbols of the theories Core and Ints. -/
def theorySymbols : List String :=
  ["true", "false", "not", "=>", "and", "or", "xor", "=", "distinct", "ite", "-", "+", "*", "div",
    "mod", "abs", "<=", "<", ">=", ">"]

/-- The number that a text is the numeral of: a numeral has no leading zeros. -/
def numeral? (text : String) : Option Nat :=
  (Text.readNat? text.toList).filter fun n => toString n = text

/-- The value of a text that stands for a value by itself. -/
def Structure.atom (M : Structure) (text : String) : Option Value :=
  if text = "true" then some (.bool true)
  else if text = "false" then some (.bool false)
  else match numeral? text with
    | some n => some (.int n)
    | none => M.constant text

/-- The value of a function on arguments. Words that the language keeps for itself apply nothing. -/
def Structure.apply (M : Structure) (f : String) (xs : List Value) : Option Value :=
  if f ∈ theorySymbols then M.theory f xs
  else if f ∈ reservedWords then none
  else M.function f xs

/- What an S-expression and what several mean. -/
mutual

/-- The value of an S-expression as a term. -/
def meaning (M : Structure) : SExpr → Option Value
  | .atom text => M.atom text
  | .list (.atom f :: args) => do
    let xs ← meanings M args
    M.apply f xs
  | _ => none

/-- The values of several S-expressions as terms. -/
def meanings (M : Structure) : List SExpr → Option (List Value)
  | [] => some []
  | e :: es => do
    let x ← meaning M e
    let xs ← meanings M es
    return x :: xs

end

section

variable {M : Structure} {f : String} {e : SExpr} {es : List SExpr} {x : Value} {xs : List Value}

/-- An application to arguments that have values. -/
theorem meaning_list (h : meanings M es = some xs) :
    meaning M (.list (.atom f :: es)) = M.apply f xs := by
  rw [meaning, h]
  rfl

theorem meanings_cons (he : meaning M e = some x) (hes : meanings M es = some xs) :
    meanings M (e :: es) = some (x :: xs) := by
  rw [meanings, he, hes]
  rfl

end

/-! ## Values and names -/

theorem numeral?_toString (n : Nat) : numeral? (toString n) = some n := by
  rw [numeral?, toList_toString_nat, readNat?_toDigits]
  simp

theorem numeral?_eq_none {text : String} (h : ∀ n : Nat, text ≠ toString n) :
    numeral? text = none := by
  rw [numeral?, Option.filter_eq_none_iff]
  intro n _ htext
  exact h n (by simpa using (of_decide_eq_true htext).symm)

theorem toString_nat_ne {w : String} (hw : w.toList.all Char.isDigit = false) (n : Nat) :
    toString n ≠ w := by
  rintro rfl
  rw [toList_toString_nat, List.all_eq_false] at hw
  obtain ⟨c, hc, hdigit⟩ := hw
  exact hdigit (Nat.isDigit_of_mem_toDigits (by decide) (by decide) hc)

/-- A name that a solver takes for nothing but itself: it can be written, and it is no numeral, no
word of the language and no symbol of the theories. -/
structure Plain (n : Name) : Prop where
  bar : '|' ∉ n.text.toList
  numeral : ∀ k : Nat, n.text ≠ toString k
  reserved : n.text ∉ reservedWords
  theory : n.text ∉ theorySymbols

section

variable {M : Structure} {n : Name}

theorem meaning_toString_nat (k : Nat) : meaning M (.atom (toString k)) = some (.int k) := by
  have htrue : toString k ≠ "true" := toString_nat_ne (by decide) k
  have hfalse : toString k ≠ "false" := toString_nat_ne (by decide) k
  rw [meaning, Structure.atom, if_neg htrue, if_neg hfalse, numeral?_toString]

theorem meaning_plain (h : Plain n) : meaning M (.atom n.text) = M.constant n.text := by
  have htrue : n.text ≠ "true" := fun heq => h.theory (by simp [heq, theorySymbols])
  have hfalse : n.text ≠ "false" := fun heq => h.theory (by simp [heq, theorySymbols])
  rw [meaning, Structure.atom, if_neg htrue, if_neg hfalse, numeral?_eq_none h.numeral]

theorem apply_plain (h : Plain n) (xs : List Value) :
    M.apply n.text xs = M.function n.text xs := by
  rw [Structure.apply, if_neg h.theory, if_neg h.reserved]

theorem apply_theory {f : String} (h : f ∈ theorySymbols) (xs : List Value) :
    M.apply f xs = M.theory f xs := by
  rw [Structure.apply, if_pos h]

/-- A value means itself. -/
theorem meaning_valueExpr (x : Value) : meaning M (valueExpr x) = some x := by
  cases x with
  | bool b => cases b <;> rfl
  | int i =>
    rw [valueExpr]
    split_ifs with hi
    · have habs : -(i.natAbs : Int) = i := by omega
      rw [meaning_list (meanings_cons (meaning_toString_nat i.natAbs) rfl), apply_theory (by decide),
        Structure.theory, habs]
    · have habs : (i.natAbs : Int) = i := by omega
      rw [meaning_toString_nat, habs]

end

/-! ## Operators -/

section

variable {M : Structure} {k l m : Kind} {x y : Value}

/-- Quotient and remainder are those of evaluation unless the divisor is zero. -/
theorem Structure.div_mod_eq (M : Structure) {a b : Int} (hb : b ≠ 0) :
    a / b = M.div a b ∧ a % b = M.mod a b := by
  obtain ⟨heq, hnonneg, hlt⟩ := M.div_mod a b hb
  exact (Int.ediv_emod_unique'' hb).2 ⟨by omega, hnonneg, hlt⟩

/-- The symbol of an operator on one operand. -/
def unaryText : UnaryOp → String
  | .not => "not"
  | .neg => "-"

theorem apply_unaryText {op : UnaryOp} (hop : op.kind? k = some l) (hx : x.kind = k) :
    ∃ z, M.apply (unaryText op) [x] = some z ∧ z.kind = l ∧
      ∀ err r, op.apply err x = .ok r → r = z := by
  have hsymbol : unaryText op ∈ theorySymbols := by cases op <;> decide
  rw [apply_theory hsymbol]
  subst hx
  cases op <;> cases x <;> cases hop <;> exact ⟨_, rfl, rfl, fun _ _ h => (Except.ok.inj h).symm⟩

/-- An operator on two operands means what the theories give for its symbol, be it decided by the
left operand or by both. -/
theorem apply_operatorText {op : BinaryOp} (hop : op.kind? k l = some m) (hx : x.kind = k)
    (hy : y.kind = l) :
    ∃ z, M.apply (operatorText op) [x, y] = some z ∧ z.kind = m ∧
      (∀ r, op.decidedBy? x = some r → r = z) ∧
      (op.decidedBy? x = none → ∀ err r, op.apply err x y = .ok r → r = z) := by
  have hsymbol : operatorText op ∈ theorySymbols := by cases op <;> decide
  rw [apply_theory hsymbol]
  -- Which kinds an operator takes is read off the values. Only decided operators and division need
  -- an argument.
  subst hx hy
  cases op <;> cases x <;> cases y <;> cases hop
  case and.bool.bool.refl a b | or.bool.bool.refl a b | implies.bool.bool.refl a b =>
    refine ⟨_, rfl, rfl, fun r hr => ?_, fun hnone err r hr => ?_⟩
    · cases a <;> cases hr
      rfl
    · cases a <;> cases hnone
      exact (Except.ok.inj hr).symm
  case div.int.int.refl a b =>
    refine ⟨_, rfl, rfl, fun r hr => (by cases hr), fun _ err r hr => ?_⟩
    by_cases hb : b = 0
    · rw [BinaryOp.apply, if_pos hb] at hr
      cases hr
    · rw [BinaryOp.apply, if_neg hb, (M.div_mod_eq hb).1] at hr
      exact (Except.ok.inj hr).symm
  case mod.int.int.refl a b =>
    refine ⟨_, rfl, rfl, fun r hr => (by cases hr), fun _ err r hr => ?_⟩
    by_cases hb : b = 0
    · rw [BinaryOp.apply, if_pos hb] at hr
      cases hr
    · rw [BinaryOp.apply, if_neg hb, (M.div_mod_eq hb).2] at hr
      exact (Except.ok.inj hr).symm
  all_goals exact ⟨_, rfl, rfl, fun r hr => (by cases hr), fun _ _ _ hr => (Except.ok.inj hr).symm⟩

end

/-! ## Expressions -/

/-- Every name has a value of its kind, and every function has one on arguments of its kinds. -/
structure Structure.Models (M : Structure) (s : Signature) : Prop where
  constant : ∀ n k, s.symbol n = some k → ∃ x, M.constant n.text = some x ∧ x.kind = k
  function : ∀ f ks k xs, s.function f = some (ks, k) → xs.map Value.kind = ks →
    ∃ x, M.function f.text xs = some x ∧ x.kind = k

/-- What a valuation gives a value, the structure gives this value. -/
structure Structure.Extends (M : Structure) (v : Valuation) : Prop where
  constant : ∀ n x, v.symbol n = some x → M.constant n.text = some x
  function : ∀ f xs x, v.application f xs = some x → M.function f.text xs = some x

/-- Some value of a kind. -/
def someValue : Kind → Value
  | .bool => .bool false
  | .int => .int 0

theorem kind_someValue (k : Kind) : (someValue k).kind = k := by cases k <;> rfl

/-- A structure that goes on from a valuation: what has no value there gets some value of its kind. -/
def Structure.complete (s : Signature) (v : Valuation) : Structure where
  constant text := (v.symbol ⟨text⟩).or ((s.symbol ⟨text⟩).map someValue)
  function text xs := (v.application ⟨text⟩ xs).or ((s.function ⟨text⟩).map fun r => someValue r.2)
  div a b := a / b
  mod a b := a % b
  div_mod a b hb := ⟨(Int.mul_ediv_add_emod a b).symm, Int.emod_nonneg a hb, Int.emod_lt_abs a hb⟩

theorem Structure.complete_extends (s : Signature) (v : Valuation) :
    (Structure.complete s v).Extends v where
  constant n x hx := by simp [Structure.complete, hx]
  function f xs x hx := by simp [Structure.complete, hx]

/-- A valuation whose values are of the right kinds goes on to a structure. -/
theorem Structure.complete_models {s : Signature} {v : Valuation}
    (hsymbol : ∀ n k x, s.symbol n = some k → v.symbol n = some x → x.kind = k)
    (happlication : ∀ f ks k xs x, s.function f = some (ks, k) → xs.map Value.kind = ks →
      v.application f xs = some x → x.kind = k) : (Structure.complete s v).Models s where
  constant n k hk := by
    cases hx : v.symbol n with
    | none => exact ⟨someValue k, by simp [Structure.complete, hx, hk], kind_someValue k⟩
    | some x => exact ⟨x, by simp [Structure.complete, hx], hsymbol n k x hk hx⟩
  function f ks k xs hf hxs := by
    cases hx : v.application f xs with
    | none => exact ⟨someValue k, by simp [Structure.complete, hx, hf], kind_someValue k⟩
    | some x => exact ⟨x, by simp [Structure.complete, hx], happlication f ks k xs x hf hxs hx⟩

/-- An expression with these parts and names can be written, and its names are taken for nothing
else. An application to no arguments is written like a variable. -/
structure Writable (parts : List Expr) (names : List Name) : Prop where
  old : ∀ a, .old a ∉ parts
  nullary : ∀ f, .apply f [] ∉ parts
  plain : ∀ n ∈ names, Plain n

theorem Writable.mono {es es' : List Expr} {ns ns' : List Name} (h : Writable es ns)
    (hes : es' ⊆ es) (hns : ns' ⊆ ns) : Writable es' ns' where
  old a ha := h.old a (hes ha)
  nullary f hf := h.nullary f (hes hf)
  plain n hn := h.plain n (hns hn)

section

variable {s : Signature} {v : Valuation} {M : Structure}

mutual

/-- A well-typed expression can be written. -/
theorem exists_termText : ∀ {e : Expr} {k : Kind}, e.kind? s = some k → e.OldFree →
    ∃ text, termText e = .ok text
  | .literal (.bool b), _, _, _ => ⟨_, rfl⟩
  | .literal (.int i), _, _, _ => ⟨_, rfl⟩
  | .literal (.bv _ _), _, _, _ => ⟨_, rfl⟩
  | .symbol n, _, _, _ => ⟨_, rfl⟩
  | .old a, _, _, hold => absurd List.mem_cons_self (hold a)
  | .unary op a, _, hk, hold => by
    obtain ⟨l, hl, -⟩ := Option.bind_eq_some_iff.1 hk
    obtain ⟨t, ht⟩ := exists_termText hl (Expr.oldFree_unary.1 hold)
    cases op <;> exact ⟨_, bind_eq_ok.2 ⟨t, ht, rfl⟩⟩
  | .binary op a b, _, hk, hold => by
    obtain ⟨l, hl, hk⟩ := Option.bind_eq_some_iff.1 hk
    obtain ⟨m, hm, -⟩ := Option.bind_eq_some_iff.1 hk
    obtain ⟨ha, hb⟩ := Expr.oldFree_binary.1 hold
    obtain ⟨t, ht⟩ := exists_termText hl ha
    obtain ⟨u, hu⟩ := exists_termText hm hb
    exact ⟨_, bind_eq_ok.2 ⟨t, ht, bind_eq_ok.2 ⟨u, hu, rfl⟩⟩⟩
  | .apply f [], _, _, _ => ⟨_, rfl⟩
  | .apply f (a :: as), _, hk, hold => by
    obtain ⟨ks, hks, -⟩ := Option.bind_eq_some_iff.1 hk
    obtain ⟨l, hl, hks⟩ := Option.bind_eq_some_iff.1 hks
    obtain ⟨ls, hls, -⟩ := Option.map_eq_some_iff.1 hks
    obtain ⟨ha, has⟩ := List.forall_mem_cons.1 (Expr.oldFree_apply.1 hold)
    obtain ⟨t, ht⟩ := exists_termText hl ha
    obtain ⟨ts, hts⟩ := exists_termTexts hls has
    exact ⟨_, bind_eq_ok.2 ⟨t, ht, bind_eq_ok.2 ⟨ts, hts, rfl⟩⟩⟩

/-- The same for several expressions. -/
theorem exists_termTexts : ∀ {es : List Expr} {ks : List Kind}, Expr.kinds? s es = some ks →
    (∀ e ∈ es, e.OldFree) → ∃ texts, termTexts es = .ok texts
  | [], _, _, _ => ⟨[], rfl⟩
  | a :: as, _, hks, hold => by
    obtain ⟨l, hl, hks⟩ := Option.bind_eq_some_iff.1 hks
    obtain ⟨ls, hls, -⟩ := Option.map_eq_some_iff.1 hks
    obtain ⟨ha, has⟩ := List.forall_mem_cons.1 hold
    obtain ⟨t, ht⟩ := exists_termText hl ha
    obtain ⟨ts, hts⟩ := exists_termTexts hls has
    exact ⟨_, bind_eq_ok.2 ⟨t, ht, bind_eq_ok.2 ⟨ts, hts, rfl⟩⟩⟩

end

mutual

/-- A well-typed expression means a value of its kind, which is the one that evaluation gives if it
gives one. -/
theorem meaning_termExpr (hM : M.Models s) (hv : M.Extends v) : ∀ {e : Expr} {k : Kind},
    e.kind? s = some k → Writable e.subexprs (termNames e) →
      ∃ y, meaning M (termExpr e) = some y ∧ y.kind = k ∧
        ∀ x, e.evalAt v .current = .ok x → x = y
  | .literal (.bool b), _, hk, _ =>
    ⟨.bool b, meaning_valueExpr (.bool b), Option.some.inj hk, fun _ hx => (Except.ok.inj hx).symm⟩
  | .literal (.int i), _, hk, _ =>
    ⟨.int i, meaning_valueExpr (.int i), Option.some.inj hk, fun _ hx => (Except.ok.inj hx).symm⟩
  | .literal (.bv _ _), _, hk, _ => by cases hk
  | .symbol n, k, hk, hw => by
    obtain ⟨y, hy, hkind⟩ := hM.constant n k hk
    refine ⟨y, (meaning_plain (hw.plain n List.mem_cons_self)).trans hy, hkind, fun x hx => ?_⟩
    cases hsymbol : v.symbol n with
    | none =>
      rw [Expr.evalAt, Valuation.read, hsymbol] at hx
      cases hx
    | some x' =>
      rw [Expr.evalAt, Valuation.read, hsymbol] at hx
      cases hx
      exact Option.some.inj ((hv.constant n x hsymbol).symm.trans hy)
  | .old a, _, _, hw => absurd List.mem_cons_self (hw.old a)
  | .unary op a, _, hk, hw => by
    obtain ⟨l, hl, hop⟩ := Option.bind_eq_some_iff.1 hk
    obtain ⟨y, hy, hkind, heval⟩ := meaning_termExpr hM hv hl
      (hw.mono (by simp [Expr.subexprs]) (List.Subset.refl _))
    obtain ⟨z, hz, hzkind, hzeval⟩ := apply_unaryText (M := M) hop hkind
    have hmeaning : meaning M (.list [.atom (unaryText op), termExpr a]) = some z :=
      (meaning_list (meanings_cons hy rfl)).trans hz
    refine ⟨z, ?_, hzkind, fun x hx => ?_⟩
    · cases op <;> exact hmeaning
    · obtain ⟨x', hx', hx⟩ := bind_eq_ok.1 hx
      cases heval x' hx'
      exact hzeval _ _ hx
  | .binary op a b, _, hk, hw => by
    obtain ⟨l, hl, hk⟩ := Option.bind_eq_some_iff.1 hk
    obtain ⟨m, hm, hop⟩ := Option.bind_eq_some_iff.1 hk
    obtain ⟨y, hy, hykind, hyeval⟩ := meaning_termExpr hM hv hl
      (hw.mono (by simp [Expr.subexprs]) (by simp [termNames]))
    obtain ⟨y', hy', hykind', hyeval'⟩ := meaning_termExpr hM hv hm
      (hw.mono (by simp [Expr.subexprs]) (by simp [termNames]))
    obtain ⟨z, hz, hzkind, hdecided, hboth⟩ := apply_operatorText (M := M) hop hykind hykind'
    refine ⟨z, (meaning_list (meanings_cons hy (meanings_cons hy' rfl))).trans hz, hzkind,
      fun x hx => ?_⟩
    -- A decided operation has the value that the theory gives for any right operand.
    obtain ⟨w, hwa, hx⟩ := bind_eq_ok.1 hx
    obtain rfl := hyeval w hwa
    cases hdec : op.decidedBy? w with
    | some r =>
      rw [hdec] at hx
      cases hx
      exact hdecided x hdec
    | none =>
      rw [hdec] at hx
      obtain ⟨w', hwb, hx⟩ := bind_eq_ok.1 hx
      obtain rfl := hyeval' w' hwb
      exact hboth hdec _ x hx
  | .apply f [], _, _, hw => absurd List.mem_cons_self (hw.nullary f)
  | .apply f (a :: as), _, hk, hw => by
    obtain ⟨ks, hks, hk⟩ := Option.bind_eq_some_iff.1 hk
    obtain ⟨⟨ls, l⟩, hf, hk⟩ := Option.bind_eq_some_iff.1 hk
    obtain ⟨rfl, hl⟩ := Option.ite_none_right_eq_some.1 hk
    cases hl
    obtain ⟨ys, hys, hkinds, hevals⟩ := meanings_termExprs hM hv hks
      (hw.mono (by simp [Expr.subexprs]) (by simp [termNames]))
    obtain ⟨z, hz, hkind⟩ := hM.function f _ _ ys hf hkinds
    have happly : M.apply f.text ys = some z :=
      (apply_plain (hw.plain f List.mem_cons_self) ys).trans hz
    refine ⟨z, (meaning_list hys).trans happly, hkind, fun x hx => ?_⟩
    obtain ⟨xs, hxs, hx⟩ := bind_eq_ok.1 hx
    obtain rfl := hevals xs hxs
    cases happlication : v.application f xs with
    | none =>
      rw [happlication] at hx
      cases hx
    | some x' =>
      rw [happlication] at hx
      cases hx
      exact Option.some.inj ((hv.function f xs x happlication).symm.trans hz)

/-- The same for several expressions. -/
theorem meanings_termExprs (hM : M.Models s) (hv : M.Extends v) : ∀ {es : List Expr}
    {ks : List Kind}, Expr.kinds? s es = some ks → Writable (Expr.subexprsAll es) (termNamesAll es) →
      ∃ ys, meanings M (termExprs es) = some ys ∧ ys.map Value.kind = ks ∧
        ∀ xs, Expr.evalAllAt v .current es = .ok xs → xs = ys
  | [], _, hks, _ => ⟨[], rfl, Option.some.inj hks, fun _ hxs => (Except.ok.inj hxs).symm⟩
  | a :: as, _, hks, hw => by
    obtain ⟨l, hl, hks⟩ := Option.bind_eq_some_iff.1 hks
    obtain ⟨ls, hls, rfl⟩ := Option.map_eq_some_iff.1 hks
    obtain ⟨y, hy, hkind, heval⟩ := meaning_termExpr hM hv hl
      (hw.mono (by simp [Expr.subexprsAll]) (by simp [termNamesAll]))
    obtain ⟨ys, hys, hkinds, hevals⟩ := meanings_termExprs hM hv hls
      (hw.mono (by simp [Expr.subexprsAll]) (by simp [termNamesAll]))
    refine ⟨y :: ys, meanings_cons hy hys, by rw [List.map_cons, hkind, hkinds], fun xs hxs => ?_⟩
    obtain ⟨x, hx, hxs⟩ := bind_eq_ok.1 hxs
    obtain ⟨xs', hxs', hxs⟩ := bind_eq_ok.1 hxs
    cases heval x hx
    cases hevals xs' hxs'
    exact (Except.ok.inj hxs).symm

end

end

/-- A truth that depends on a function and on a remainder. -/
def remainderExpr : Expr :=
  .binary .implies (.apply ⟨"F"⟩ [.symbol ⟨"x y"⟩])
    (.binary .lt (.binary .mod (.symbol ⟨"x y"⟩) (.int (-3))) (.int 3))

/-- The kinds of its names. -/
def remainderSignature : Signature where
  symbol n := if n = ⟨"x y"⟩ then some .int else none
  function f := if f = ⟨"F"⟩ then some ([.int], .bool) else none

end Obligations.Solver
