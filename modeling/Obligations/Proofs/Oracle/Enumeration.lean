import Mathlib
import Obligations.Oracle.Bounded
import Obligations.Proofs.Expr.Typing

/-!
# What the exhaustive search ranges over

The values that the search tries for a type are those of its domain, `BoundedOptions.domain`, each
under one number. The numbers of assignments are read in a mixed radix: below the product of the
radices every number has digits within the radices, and all such digits are those of some number
(`Bounded.exists_digits_eq`). For a well-typed condition without nested applications the search has
a space (`Bounded.exists_space`), with as many assignments as the product of the domains.
-/

namespace Obligations

/-- The values that the search tries for a type. -/
noncomputable def BoundedOptions.domain (o : BoundedOptions) : Ty → Finset Value
  | .bool => {.bool false, .bool true}
  | .int => (Finset.Icc o.minInt o.maxInt).image .int
  | _ => ∅

/-- The values that the search tries for applications of a function. -/
noncomputable def BoundedOptions.results (o : BoundedOptions) (vc : VerificationCondition) (f : Name) :
    Finset Value :=
  (vc.functions.find? (·.name = f)).elim ∅ fun d => o.domain d.result

namespace Bounded

variable {o : BoundedOptions} {ty : Ty} {c : Choices} {x : Value}

/-- The number of assignments of values to the symbols of a condition and to the distinct
applications in its formula. -/
noncomputable def assignments (o : BoundedOptions) (vc : VerificationCondition) : Nat :=
  (vc.symbols.map fun p => (o.domain p.2).card).prod *
    ((applications vc.formula).map fun a => (o.results vc a.function).card).prod

/-! ## Values and their numbers -/

/-- The number of a value. -/
def Choices.digit : Choices → Value → Nat
  | bools, .bool b => if b then 1 else 0
  | ints least _, .int i => (i - least).toNat
  | _, _ => 0

theorem choices?_isSome (h : ty.kind?.isSome) : ∃ c, choices? o ty = some c := by
  cases ty <;> cases h <;> exact ⟨_, rfl⟩

theorem card_domain (hc : choices? o ty = some c) : (o.domain ty).card = c.size := by
  cases ty with
  | bool =>
    cases hc
    rfl
  | int =>
    cases hc
    rw [BoundedOptions.domain, Finset.card_image_of_injective _ fun i j h => Value.int.inj h,
      Int.card_Icc, Choices.size, add_sub_right_comm]
  | bv | map | user => cases hc

/-- A number below the size is that of a value of the domain. -/
theorem value_mem_domain (hc : choices? o ty = some c) {d : Nat} (hd : d < c.size) :
    c.value d ∈ o.domain ty := by
  cases ty with
  | bool =>
    cases hc
    by_cases hd : d = 1 <;> simp [Choices.value, BoundedOptions.domain, hd]
  | int =>
    cases hc
    rw [Choices.size] at hd
    rw [BoundedOptions.domain, Finset.mem_image]
    exact ⟨_, Finset.mem_Icc.2 ⟨by omega, by omega⟩, rfl⟩
  | bv | map | user => cases hc

/-- Every value of the domain has a number below the size. -/
theorem digit_lt_size (hc : choices? o ty = some c) (hx : x ∈ o.domain ty) :
    c.digit x < c.size ∧ c.value (c.digit x) = x := by
  cases ty with
  | bool =>
    cases hc
    rw [BoundedOptions.domain, Finset.mem_insert, Finset.mem_singleton] at hx
    rcases hx with rfl | rfl <;> exact ⟨by decide, rfl⟩
  | int =>
    cases hc
    rw [BoundedOptions.domain, Finset.mem_image] at hx
    obtain ⟨i, hi, rfl⟩ := hx
    rw [Finset.mem_Icc] at hi
    constructor
    · rw [Choices.digit, Choices.size]
      omega
    · rw [Choices.digit, Choices.value, Int.toNat_of_nonneg (by omega), add_sub_cancel]
  | bv | map | user => cases hc

theorem kind_of_mem_domain (hx : x ∈ o.domain ty) : ty.kind? = some x.kind := by
  cases ty with
  | bool =>
    rw [BoundedOptions.domain, Finset.mem_insert, Finset.mem_singleton] at hx
    rcases hx with rfl | rfl <;> rfl
  | int =>
    rw [BoundedOptions.domain, Finset.mem_image] at hx
    obtain ⟨i, -, rfl⟩ := hx
    rfl
  | bv | map | user => cases hx

/-! ## Digits -/

theorem digits_lt {rs : List Nat} (hrs : rs.prod ≠ 0) (k : Nat) :
    List.Forall₂ (· < ·) (digits rs k) rs := by
  induction rs generalizing k with
  | nil => exact .nil
  | cons r rs ih =>
    rw [List.prod_cons, Nat.mul_ne_zero_iff] at hrs
    exact .cons (Nat.mod_lt _ (Nat.pos_of_ne_zero hrs.1)) (ih hrs.2 _)

/-- All digits within the radices are those of a number below their product. -/
theorem exists_digits_eq {rs ds : List Nat} (h : List.Forall₂ (· < ·) ds rs) :
    ∃ k < rs.prod, digits rs k = ds := by
  induction h with
  | nil => exact ⟨0, Nat.one_pos, rfl⟩
  | @cons d r ds rs hd _ ih =>
    obtain ⟨k, hk, hdigits⟩ := ih
    refine ⟨d + r * k, ?_, ?_⟩
    · calc
        d + r * k < r + r * k := Nat.add_lt_add_right hd _
        _ = r * (k + 1) := by rw [Nat.mul_succ, Nat.add_comm]
        _ ≤ r * rs.prod := Nat.mul_le_mul_left r hk
        _ = (r :: rs).prod := List.prod_cons.symm
    · have hdiv : (d + r * k) / r = k := by
        rw [Nat.add_mul_div_left _ _ (Nat.zero_lt_of_lt hd), Nat.div_eq_of_lt hd, Nat.zero_add]
      rw [digits, Nat.add_mul_mod_self_left, Nat.mod_eq_of_lt hd, hdiv, hdigits]

/-! ## The space of a condition -/

/-- The unknowns of a space are the symbols and the applications of a condition, each with the
choices for its type. -/
structure Space.Describes (s : Space) (o : BoundedOptions) (vc : VerificationCondition) : Prop where
  /-- The symbols with the choices for their types. -/
  symbols : List.Forall₂ (fun p q => q.1 = p.1 ∧ choices? o p.2 = some q.2) vc.symbols s.symbols
  /-- The applications with the choices for the results of the functions. -/
  applications : List.Forall₂ (fun a q => q.1 = a ∧ ∃ f,
    vc.functions.find? (·.name = a.function) = some f ∧ choices? o f.result = some q.2)
    (Bounded.applications vc.formula) s.applications

theorem mem_applications {e : Expr} {a : Application} :
    a ∈ applications e ↔ .apply a.function a.args ∈ e.subexprs := by
  rw [applications, List.mem_eraseDups, List.mem_filterMap]
  constructor
  · rintro ⟨b, hb, hab⟩
    cases b <;> cases hab
    exact hb
  · exact fun h => ⟨_, h, rfl⟩

/-- A function that a well-typed condition applies is declared. -/
theorem exists_function {vc : VerificationCondition} (hvc : vc.WellTyped) {a : Application}
    (ha : a ∈ applications vc.formula) :
    ∃ f ks k, vc.functions.find? (·.name = a.function) = some f ∧ f.kinds? = some (ks, k) ∧
      Expr.kinds? vc.signature a.args = some ks := by
  obtain ⟨k, hk⟩ := Option.isSome_iff_exists.1 <|
    Expr.kind?_isSome_of_mem_subexprs _ hvc.formula _ (mem_applications.1 ha)
  obtain ⟨ks, hks, hk⟩ := Option.bind_eq_some_iff.1 hk
  obtain ⟨⟨ls, l⟩, hfunction, hk⟩ := Option.bind_eq_some_iff.1 hk
  obtain ⟨f, hfind, hf⟩ := Option.bind_eq_some_iff.1 hfunction
  obtain ⟨rfl, -⟩ := Option.ite_none_right_eq_some.1 hk
  exact ⟨f, ls, l, hfind, hf, hks⟩

theorem kind?_result {f : Function} {ks : List Kind} {k : Kind} (hf : f.kinds? = some (ks, k)) :
    f.result.kind? = some k := by
  obtain ⟨ls, -, hf⟩ := Option.bind_eq_some_iff.1 hf
  obtain ⟨l, hl, hf⟩ := Option.bind_eq_some_iff.1 hf
  cases hf
  exact hl

variable {vc : VerificationCondition} {s : Space}

/-- A well-typed condition without nested applications has a space. -/
theorem exists_space (hvc : vc.WellTyped)
    (hnested : ∀ a ∈ applications vc.formula, a.isNested = false) (query : String) :
    ∃ s, space o query vc = .ok s ∧ s.Describes o vc := by
  unfold space
  refine exists_bind_eq_ok (exists_mapM_eq_ok
    (R := fun p q => q.1 = p.1 ∧ choices? o p.2 = some q.2) fun p hp => ?_)
    fun symbols hsymbols => ?_
  · obtain ⟨c, hc⟩ := choices?_isSome (o := o) (hvc.symbols p hp)
    simp only [hc]
    exact ⟨_, rfl, rfl, rfl⟩
  have hany : (applications vc.formula).any (·.isNested) = false :=
    List.any_eq_false.2 fun a ha => by
      rw [hnested a ha]
      exact Bool.false_ne_true
  simp only [hany]
  rw [if_neg Bool.false_ne_true]
  refine exists_bind_eq_ok (exists_mapM_eq_ok (R := fun a q => q.1 = a ∧ ∃ f,
    vc.functions.find? (·.name = a.function) = some f ∧ choices? o f.result = some q.2)
    fun a ha => ?_) fun apps happs => ⟨⟨symbols, apps⟩, rfl, hsymbols, happs⟩
  obtain ⟨f, ks, k, hfind, hf, -⟩ := exists_function hvc ha
  obtain ⟨c, hc⟩ := choices?_isSome (o := o) (Option.isSome_of_eq_some (kind?_result hf))
  simp only [hfind, hc]
  exact ⟨_, rfl, rfl, f, rfl, hc⟩

/-- The number of assignments is the product of the numbers of choices. -/
theorem prod_radices (hs : s.Describes o vc) : s.radices.prod = assignments o vc := by
  have hsymbols : s.symbols.map (·.2.size) = vc.symbols.map fun p => (o.domain p.2).card :=
    (map_eq_of_forall₂ hs.symbols fun p q h => card_domain h.2).symm
  have happs : s.applications.map (·.2.size) =
      (applications vc.formula).map fun a => (o.results vc a.function).card := by
    refine (map_eq_of_forall₂ hs.applications fun a q h => ?_).symm
    obtain ⟨-, f, hfind, hc⟩ := h
    rw [BoundedOptions.results, hfind]
    exact card_domain hc
  rw [Space.radices, List.prod_append, hsymbols, happs, assignments]

end Bounded

end Obligations
