/-!
# Disjunctions of short conjunctions

The antecedent of a summary clause is a disjunction of conjunctions of signed predicates. A
`Conjunct` says of each of `n` predicates whether it occurs and with which sign, and an `Antichain`
holds conjunctions of bounded length none of which implies another.

`Antichain.exclude` strengthens an antichain so that it no longer holds under a given valuation of
the predicates: each conjunction is extended by every literal that is false there, results that are
too long are dropped, and of two results one of which implies the other the weaker is kept.
`exclude_eq_self` says that this changes nothing where the antichain was false already, and
`weight_exclude_lt` that otherwise fewer valuations satisfy it.
-/

namespace Obligations.Summary

/-! ## Conjunctions -/

/-- A conjunction of signed predicates: for each predicate its sign, if it occurs. -/
abbrev Conjunct (n : Nat) := Vector (Option Bool) n

/-- A truth value for each predicate. -/
abbrev Signs (n : Nat) := Vector Bool n

namespace Conjunct

variable {n : Nat}

/-- Whether a relation holds between two conjunctions at every predicate. -/
def all₂ (r : Option Bool → Option Bool → Bool) (c d : Conjunct n) : Bool :=
  (Vector.zipWith r c d).all id

theorem all₂_iff {r : Option Bool → Option Bool → Bool} {k d : Conjunct n} :
    all₂ r k d = true ↔ ∀ (i : Nat) (h : i < n), r k[i] d[i] = true := by
  simp [all₂, Vector.all_eq_true]

/-- The conjunction of one signed predicate. -/
def literal (i : Fin n) (sign : Bool) : Conjunct n :=
  Vector.ofFn fun j => if j = i then some sign else none

/-- The number of predicates that occur. -/
def size (c : Conjunct n) : Nat := c.toList.countP Option.isSome

/-- Whether every signed predicate of the second conjunction occurs in the first. -/
def implies (c d : Conjunct n) : Bool := all₂ (fun x y => y.isNone || x == y) c d

/-- Whether no predicate occurs with different signs. -/
def compatible (c d : Conjunct n) : Bool :=
  all₂ (fun x y => x.isNone || y.isNone || x == y) c d

/-- The signed predicates of both. -/
def merge (c d : Conjunct n) : Conjunct n := Vector.zipWith Option.or c d

/-- The conjunction of both, if it can hold and is not too long. -/
def and? (bound : Nat) (c d : Conjunct n) : Option (Conjunct n) :=
  if c.compatible d ∧ (c.merge d).size ≤ bound then some (c.merge d) else none

/-- Whether a conjunction holds under a valuation. -/
def holds (v : Signs n) (c : Conjunct n) : Bool := implies (v.map some) c

theorem implies_iff {k d : Conjunct n} :
    k.implies d = true ↔ ∀ (i : Nat) (h : i < n), d[i] = none ∨ k[i] = d[i] := by
  simp [implies, all₂_iff]

theorem implies_refl (c : Conjunct n) : c.implies c = true := implies_iff.2 (by simp)

theorem implies_trans {c d e : Conjunct n} (h : c.implies d = true) (h' : d.implies e = true) :
    c.implies e = true := by
  rw [implies_iff] at *
  intro i hi
  have := h i hi
  have := h' i hi
  grind

theorem implies_antisymm {c d : Conjunct n} (h : c.implies d = true) (h' : d.implies c = true) :
    c = d := by
  rw [implies_iff] at *
  apply Vector.ext
  intro i hi
  have := h i hi
  have := h' i hi
  grind

theorem compatible_iff {k d : Conjunct n} :
    k.compatible d = true ↔ ∀ (i : Nat) (h : i < n), k[i] = none ∨ d[i] = none ∨ k[i] = d[i] := by
  simp [compatible, all₂_iff, or_assoc]

theorem and?_eq_some {bound : Nat} {k d e : Conjunct n} (h : k.and? bound d = some e) :
    e.size ≤ bound ∧ e.implies k = true ∧ e.implies d = true := by
  unfold and? at h
  split at h
  · rename_i hc
    obtain ⟨hc, hs⟩ := hc
    cases h
    refine ⟨hs, ?_, ?_⟩ <;> rw [implies_iff] <;> rw [compatible_iff] at hc <;> intro i hi <;>
      have := hc i hi <;> simp only [merge, Vector.getElem_zipWith] <;>
      cases h1 : k[i] <;> cases h2 : d[i] <;> grind
  · simp at h

theorem holds_of_implies {v : Signs n} {c d : Conjunct n} (h : c.holds v = true)
    (h' : c.implies d = true) : d.holds v = true :=
  implies_trans h h'

/-- The signed predicates that a valuation refutes although it gives the predicates this value. -/
def refuted (v : Signs n) (b : Bool) : List (Conjunct n) :=
  ((List.finRange n).filter fun i => v[i] = b).map fun i => literal i !b

/-- The literals that are false under a valuation: first the predicates that are false there, then
the negations of those that are true. A bound of zero leaves none. -/
def falseLiterals (bound : Nat) (v : Signs n) : List (Conjunct n) :=
  if bound = 0 then [] else refuted v false ++ refuted v true

/-- A literal that is false under a valuation does not hold there. -/
theorem not_holds_of_mem_falseLiterals {bound : Nat} {v : Signs n} {c : Conjunct n}
    (h : c ∈ falseLiterals bound v) : c.holds v = false := by
  have key : ∀ (i : Fin n) (b : Bool), v[i] = b → (literal i !b).holds v = false := by
    intro i b hb
    rw [Bool.eq_false_iff, ne_eq, holds, implies_iff]
    intro hc
    have := hc i.val i.isLt
    simp [literal] at this hb
    cases b <;> simp_all
  unfold falseLiterals at h
  split at h
  · simp at h
  · simp only [refuted, List.mem_filter, List.mem_append, List.mem_map] at h
    obtain ⟨i, ⟨_, hi⟩, rfl⟩ | ⟨i, ⟨_, hi⟩, rfl⟩ := h
    · exact key i false (by simpa using hi)
    · exact key i true (by simpa using hi)

/-- A conjunction that is false under a valuation has a literal that is false there, and stays the
same when that literal is added. -/
theorem exists_falseLiteral {bound : Nat} {v : Signs n} {k : Conjunct n} (hs : k.size ≤ bound)
    (h : k.holds v = false) : ∃ l ∈ falseLiterals bound v, k.and? bound l = some k := by
  rw [Bool.eq_false_iff, ne_eq, holds, implies_iff] at h
  simp only [Classical.not_forall, not_or] at h
  obtain ⟨i, hi, hn, hd⟩ := h
  -- The conjunction has a predicate with a sign that the valuation refutes.
  obtain ⟨b, hb⟩ : ∃ b, k[i] = some b := Option.ne_none_iff_exists'.1 hn
  have hv : v[i] = !b := by
    cases hvi : v[i] <;> cases b <;> simp_all
  -- So it is not empty, and the bound is not zero.
  have hpos : 0 < k.size := by
    rw [size, List.countP_pos_iff]
    exact ⟨k[i], by simp, by simp [hb]⟩
  refine ⟨literal ⟨i, hi⟩ b, ?_, ?_⟩
  · rw [falseLiterals, if_neg (by omega)]
    simp only [refuted, List.mem_filter, List.mem_append, List.mem_map]
    cases b
    · exact .inr ⟨⟨i, hi⟩, ⟨by simp, by simpa using hv⟩, rfl⟩
    · exact .inl ⟨⟨i, hi⟩, ⟨by simp, by simpa using hv⟩, rfl⟩
  -- That literal occurs in the conjunction already.
  · have hm : k.merge (literal ⟨i, hi⟩ b) = k := by
      apply Vector.ext
      intro j hj
      simp only [merge, literal, Vector.getElem_zipWith, Vector.getElem_ofFn, Fin.mk.injEq]
      by_cases hij : j = i
      · subst hij; simp [hb]
      · simp [hij]
    have hc : k.compatible (literal ⟨i, hi⟩ b) = true := by
      rw [compatible_iff]
      intro j hj
      by_cases hij : j = i
      · subst hij; simp [literal, hb]
      · simp [literal, hij]
    simp [and?, hc, hm, hs]

end Conjunct

/-! ## Disjunctions -/

/-- A disjunction of conjunctions of at most `bound` signed predicates, none of which implies
another. -/
structure Antichain (n bound : Nat) where
  /-- The conjunctions. -/
  conjuncts : List (Conjunct n)
  /-- None implies another. -/
  incomparable : conjuncts.Pairwise fun c d => c.implies d = false ∧ d.implies c = false
  /-- None is too long. -/
  short : ∀ c ∈ conjuncts, c.size ≤ bound
deriving DecidableEq

namespace Antichain

variable {n bound : Nat}

/-- The disjunction of nothing. -/
def empty : Antichain n bound := ⟨[], .nil, by simp⟩

/-- Whether the disjunction holds under a valuation. -/
def holds (a : Antichain n bound) (v : Signs n) : Bool := a.conjuncts.any (Conjunct.holds v)

/-- The conjunctions that remain when another one is added: all, if the new one implies one of them,
and otherwise those that do not imply the new one, followed by it. -/
def addTo (cs : List (Conjunct n)) (c : Conjunct n) : List (Conjunct n) :=
  if cs.any c.implies then cs else cs.filter (fun d => !d.implies c) ++ [c]

/-- Adds a conjunction. -/
def add (a : Antichain n bound) (c : Conjunct n) (h : c.size ≤ bound) : Antichain n bound where
  conjuncts := addTo a.conjuncts c
  incomparable := by
    unfold addTo
    split
    · exact a.incomparable
    · rename_i hc
      rw [List.pairwise_append]
      refine ⟨a.incomparable.sublist List.filter_sublist, by simp, ?_⟩
      intro d hd e he
      obtain rfl : e = c := by simpa using he
      simp only [List.mem_filter, Bool.not_eq_eq_eq_not, Bool.not_true] at hd
      refine ⟨hd.2, ?_⟩
      rw [Bool.eq_false_iff]
      exact fun h => hc (List.any_eq_true.2 ⟨d, hd.1, h⟩)
  short := by
    unfold addTo
    split
    · exact a.short
    · intro d hd
      simp only [List.mem_append, List.mem_filter, List.mem_singleton] at hd
      obtain ⟨hd, _⟩ | rfl := hd
      · exact a.short d hd
      · exact h

/-- Adds the conjunction of two conjunctions, unless it cannot hold or is too long. -/
def addBoth (a : Antichain n bound) (c d : Conjunct n) : Antichain n bound :=
  match h : c.and? bound d with
  | none => a
  | some e => a.add e (Conjunct.and?_eq_some h).1

/-- Adds the conjunctions of one conjunction with each of a list. -/
def addProducts (a : Antichain n bound) (c : Conjunct n) (ds : List (Conjunct n)) :
    Antichain n bound :=
  ds.foldl (fun a d => a.addBoth c d) a

/-- The conjunction of two disjunctions as a disjunction. -/
def product (bound : Nat) (cs ds : List (Conjunct n)) : Antichain n bound :=
  cs.foldl (fun a c => a.addProducts c ds) empty

/-- The disjunction that always holds: one conjunction without any predicate. -/
def always : Antichain n bound := empty.add (Vector.replicate n none) (by
  simp [Conjunct.size, List.countP_replicate])

/-- Whether the disjunction has a conjunction without any predicate, and so always holds. -/
def isAlways (a : Antichain n bound) : Bool := a.conjuncts = [Vector.replicate n none]

/-- Strengthens a disjunction so that it does not hold under a valuation. -/
def exclude (a : Antichain n bound) (v : Signs n) : Antichain n bound :=
  product bound a.conjuncts (Conjunct.falseLiterals bound v)

/-! ### What strengthening keeps -/

theorem mem_addTo {cs : List (Conjunct n)} {c d : Conjunct n} (h : d ∈ addTo cs c) :
    d ∈ cs ∨ d = c := by
  unfold addTo at h
  split at h
  · exact .inl h
  · simp only [List.mem_append, List.mem_filter, List.mem_singleton] at h
    exact h.imp And.left id

theorem mem_addBoth {a : Antichain n bound} {c d e : Conjunct n}
    (h : e ∈ (a.addBoth c d).conjuncts) : e ∈ a.conjuncts ∨ c.and? bound d = some e := by
  unfold addBoth at h
  split at h
  · exact .inl h
  · rename_i f hf
    obtain h | rfl := mem_addTo h
    · exact .inl h
    · exact .inr hf

theorem mem_addProducts {a : Antichain n bound} {c e : Conjunct n} {ds : List (Conjunct n)}
    (h : e ∈ (a.addProducts c ds).conjuncts) :
    e ∈ a.conjuncts ∨ ∃ d ∈ ds, c.and? bound d = some e := by
  induction ds generalizing a with
  | nil => exact .inl h
  | cons d ds ih =>
    obtain h | ⟨d', hd', h⟩ := ih h
    · obtain h | h := mem_addBoth h
      · exact .inl h
      · exact .inr ⟨d, by simp, h⟩
    · exact .inr ⟨d', by simp [hd'], h⟩

theorem mem_foldl_addProducts {a : Antichain n bound} {e : Conjunct n}
    {cs ds : List (Conjunct n)}
    (h : e ∈ (cs.foldl (fun a c => a.addProducts c ds) a).conjuncts) :
    e ∈ a.conjuncts ∨ ∃ c ∈ cs, ∃ d ∈ ds, c.and? bound d = some e := by
  induction cs generalizing a with
  | nil => exact .inl h
  | cons c cs ih =>
    obtain h | ⟨c', hc', d, hd, h⟩ := ih h
    · obtain h | ⟨d, hd, h⟩ := mem_addProducts h
      · exact .inl h
      · exact .inr ⟨c, by simp, d, hd, h⟩
    · exact .inr ⟨c', by simp [hc'], d, hd, h⟩

/-- Every conjunction of a product joins one of the first list with one of the second. -/
theorem mem_product {cs ds : List (Conjunct n)} {e : Conjunct n}
    (h : e ∈ (product bound cs ds).conjuncts) :
    ∃ c ∈ cs, ∃ d ∈ ds, c.and? bound d = some e := by
  obtain h | h := mem_foldl_addProducts h
  · simp [empty] at h
  · exact h

/-- Strengthening keeps a disjunction false where it was false. -/
theorem holds_of_holds_exclude {a : Antichain n bound} {v w : Signs n}
    (h : (a.exclude v).holds w = true) : a.holds w = true := by
  obtain ⟨e, he, hw⟩ := List.any_eq_true.1 h
  obtain ⟨c, hc, d, _, hcd⟩ := mem_product he
  exact List.any_eq_true.2
    ⟨c, hc, Conjunct.holds_of_implies hw (Conjunct.and?_eq_some hcd).2.1⟩

/-- Strengthening makes a disjunction false under the given valuation. -/
theorem holds_exclude_self (a : Antichain n bound) (v : Signs n) :
    (a.exclude v).holds v = false := by
  rw [Bool.eq_false_iff]
  intro h
  obtain ⟨e, he, hv⟩ := List.any_eq_true.1 h
  obtain ⟨c, _, d, hd, hcd⟩ := mem_product he
  have := Conjunct.holds_of_implies hv (Conjunct.and?_eq_some hcd).2.2
  simp [Conjunct.not_holds_of_mem_falseLiterals hd] at this

/-! ### Strengthening where nothing is to do -/

/-- What `addProducts` has added for a conjunction `c` between two literals, if nothing that was
there before is comparable with `c`: either `c` alone, or conjunctions that imply it properly. -/
def Between (c : Conjunct n) (added : List (Conjunct n)) : Prop :=
  added = [c] ∨ ∀ d ∈ added, d.implies c = true ∧ d ≠ c

theorem addTo_of_between {cs added : List (Conjunct n)} {c e : Conjunct n}
    (hcs : ∀ d ∈ cs, c.implies d = false ∧ d.implies c = false) (he : e.implies c = true)
    (h : Between c added) :
    ∃ added', addTo (cs ++ added) e = cs ++ added' ∧ Between c added' ∧
      (e = c ∨ added = [c] → added' = [c]) := by
  unfold addTo
  split
  · rename_i hany
    refine ⟨added, rfl, h, ?_⟩
    rintro (rfl | rfl)
    · obtain ⟨d, hd, hed⟩ := List.any_eq_true.1 hany
      rcases List.mem_append.1 hd with hd | hd
      · simp [(hcs d hd).1] at hed
      · rcases h with rfl | h
        · rfl
        · exact absurd (Conjunct.implies_antisymm (h d hd).1 hed) (h d hd).2
    · rfl
  · rename_i hany
    -- Nothing from before implies `e`, for it would imply `c` as well.
    have hkeep : cs.filter (fun d => !d.implies e) = cs := by
      rw [List.filter_eq_self]
      intro d hd
      rw [Bool.not_eq_true', Bool.eq_false_iff]
      intro hde
      have := (hcs d hd).2
      simp [Conjunct.implies_trans hde he] at this
    -- If `c` itself had been added, `e` would not be new.
    have hproper : ∀ d ∈ added, d.implies c = true ∧ d ≠ c := by
      obtain rfl | h := h
      · exact absurd (List.any_eq_true.2 ⟨c, by simp, he⟩) hany
      · exact h
    refine ⟨added.filter (fun d => !d.implies e) ++ [e], by simp [List.filter_append, hkeep], ?_⟩
    by_cases hec : e = c
    · subst hec
      have : added.filter (fun d => !d.implies e) = [] := by
        rw [List.filter_eq_nil_iff]
        intro d hd
        simp [(hproper d hd).1]
      simp [this, Between]
    · refine ⟨.inr ?_, ?_⟩
      · intro d hd
        simp only [List.mem_append, List.mem_filter, List.mem_singleton] at hd
        obtain ⟨hd, _⟩ | rfl := hd
        · exact hproper d hd
        · exact ⟨he, hec⟩
      · rintro (rfl | rfl)
        · exact absurd rfl hec
        · exact absurd rfl (hproper c (by simp)).2

/-- The products of `c` with literals, one of which it has already, add `c` and nothing else to
conjunctions that are not comparable with it. -/
theorem addProducts_of_between {a : Antichain n bound} {cs added ds : List (Conjunct n)}
    {c : Conjunct n} (ha : a.conjuncts = cs ++ added)
    (hcs : ∀ d ∈ cs, c.implies d = false ∧ d.implies c = false) (h : Between c added)
    (hc : added = [c] ∨ ∃ d ∈ ds, c.and? bound d = some c) :
    (a.addProducts c ds).conjuncts = cs ++ [c] := by
  induction ds generalizing a added with
  | nil =>
    obtain rfl | ⟨d, hd, _⟩ := hc
    · exact ha
    · simp at hd
  | cons d ds ih =>
    have hstep : ∃ added', (a.addBoth c d).conjuncts = cs ++ added' ∧ Between c added' ∧
        (added = [c] ∨ c.and? bound d = some c → added' = [c]) := by
      unfold addBoth
      split
      · rename_i hn
        exact ⟨added, ha, h, by rintro (h | h) <;> simp_all⟩
      · rename_i e he
        obtain ⟨added', h1, h2, h3⟩ := addTo_of_between hcs (Conjunct.and?_eq_some he).2.1 h
        refine ⟨added', ?_, h2, ?_⟩
        · simp [add, ha, h1]
        · rintro (hh | hh)
          · exact h3 (.inr hh)
          · rw [he] at hh
            exact h3 (.inl (Option.some.inj hh))
    obtain ⟨added', h1, h2, h3⟩ := hstep
    refine ih h1 h2 ?_
    obtain hc | ⟨d', hd', hd⟩ := hc
    · exact .inl (h3 (.inl hc))
    · rcases List.mem_cons.1 hd' with rfl | hd'
      · exact .inl (h3 (.inr hd))
      · exact .inr ⟨d', hd', hd⟩

theorem foldl_addProducts_of_incomparable {a : Antichain n bound} {cs ds : List (Conjunct n)}
    (h : (a.conjuncts ++ cs).Pairwise fun c d => c.implies d = false ∧ d.implies c = false)
    (hc : ∀ c ∈ cs, ∃ d ∈ ds, c.and? bound d = some c) :
    (cs.foldl (fun a c => a.addProducts c ds) a).conjuncts = a.conjuncts ++ cs := by
  induction cs generalizing a with
  | nil => simp
  | cons c cs ih =>
    -- The products of the first conjunction leave that conjunction and no other.
    have hone : (a.addProducts c ds).conjuncts = a.conjuncts ++ [c] := by
      have hnone : Between c ([] : List (Conjunct n)) := .inr (by simp)
      refine addProducts_of_between (by simp) ?_ hnone (.inr (hc c (by simp)))
      intro d hd
      exact And.symm ((List.pairwise_append.1 h).2.2 d hd c (by simp))
    rw [List.foldl_cons, ih]
    · simp [hone]
    · rw [hone]
      simpa using h
    · exact fun c' hc' => hc c' (by simp [hc'])

/-- Strengthening changes nothing if the disjunction is false under the valuation already. -/
theorem exclude_eq_self {a : Antichain n bound} {v : Signs n} (h : a.holds v = false) :
    a.exclude v = a := by
  have key : (a.exclude v).conjuncts = a.conjuncts := by
    unfold exclude product
    rw [foldl_addProducts_of_incomparable]
    · rfl
    · simpa [empty] using a.incomparable
    · intro c hc
      refine Conjunct.exists_falseLiteral (a.short c hc) ?_
      rw [Bool.eq_false_iff]
      exact fun hv => Bool.eq_false_iff.1 h (List.any_eq_true.2 ⟨c, hc, hv⟩)
  cases a
  cases hx : exclude _ v
  simp_all

/-! ## Counting valuations -/

/-- All lists of truth values of a length. -/
def boolLists : Nat → List (List Bool)
  | 0 => [[]]
  | n + 1 => (boolLists n).flatMap fun l => [false :: l, true :: l]

theorem mem_boolLists {l : List Bool} : l ∈ boolLists l.length := by
  induction l with
  | nil => simp [boolLists]
  | cons b l ih =>
    simp only [List.length_cons, boolLists, List.mem_flatMap]
    exact ⟨l, ih, by cases b <;> simp⟩

/-- The truth values of a list, one for each predicate; those that are missing are false. -/
def signsOf (n : Nat) (l : List Bool) : Signs n := Vector.ofFn fun i => l[i.val]?.getD false

/-- All valuations of `n` predicates. -/
def allSigns (n : Nat) : List (Signs n) := (boolLists n).map (signsOf n)

theorem mem_allSigns (v : Signs n) : v ∈ allSigns n := by
  have hl : v.toList ∈ boolLists n := by
    have := mem_boolLists (l := v.toList)
    simpa using this
  refine List.mem_map.2 ⟨v.toList, hl, ?_⟩
  apply Vector.ext
  intro i hi
  simp [signsOf]

/-- The number of valuations under which a disjunction holds. -/
def weight (a : Antichain n bound) : Nat := (allSigns n).countP a.holds

theorem weight_le (a : Antichain n bound) : a.weight ≤ (allSigns n).length :=
  List.countP_le_length

theorem countP_lt_of_imp {α : Type} {p q : α → Bool} {l : List α} {x : α} (hx : x ∈ l)
    (hp : p x = false) (hq : q x = true) (h : ∀ y, p y = true → q y = true) :
    l.countP p < l.countP q := by
  obtain ⟨l₁, l₂, rfl⟩ := List.append_of_mem hx
  have h₁ := List.countP_mono_left (p := p) (q := q) (l := l₁) fun y _ => h y
  have h₂ := List.countP_mono_left (p := p) (q := q) (l := l₂) fun y _ => h y
  simp only [List.countP_append, List.countP_cons, hp, hq]
  simp
  omega

/-- Strengthening that changes a disjunction leaves fewer valuations under which it holds. -/
theorem weight_exclude_lt {a : Antichain n bound} {v : Signs n} (h : a.exclude v ≠ a) :
    (a.exclude v).weight < a.weight := by
  have hv : a.holds v = true := by
    rw [← Bool.not_eq_false]
    exact fun hf => h (exclude_eq_self hf)
  exact countP_lt_of_imp (mem_allSigns v) (holds_exclude_self a v) hv
    fun _ => holds_of_holds_exclude

end Antichain

end Obligations.Summary
