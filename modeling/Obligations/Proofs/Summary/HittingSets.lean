import Mathlib.Data.Fintype.Prod
import Mathlib.Data.List.FinRange
import Mathlib.Order.Minimal
import Obligations.Summary.Antichain

/-!
# Antichains as families of minimal sets

A conjunction of signed predicates is a finite set of them (`Conjunct.toFinset`): to imply is to
contain, and to join two conjunctions is to unite their sets, if the union has no predicate with
both signs and is not too large. A set hits some valuations (`Hits`) if it is such a set and has, for
each of them, a literal that is false there.

A disjunction generates a property of sets (`Antichain.Generates`) if each of its conjunctions has
the property and every set with the property contains one of them. Since none of the conjunctions
contains another, they are then exactly the minimal sets with the property
(`Antichain.Generates.mem_map_iff`). Excluding a valuation goes from the sets that hit the valuations
so far to those that hit this one as well (`Antichain.Generates.exclude`): a conjunction that is
dropped because it is too long has no set above it that hits them all, and one that is absorbed
leaves a smaller one in its place (`Antichain.covers_addTo`).
-/

namespace Obligations.Summary

variable {n bound : Nat}

namespace Conjunct

variable {k d e : Conjunct n} {S : Finset (Fin n × Bool)}

/-- The signed predicates of a conjunction. -/
def toFinset (k : Conjunct n) : Finset (Fin n × Bool) :=
  Finset.univ.filter fun l => k[l.1] = some l.2

@[simp] theorem mem_toFinset {l : Fin n × Bool} : l ∈ k.toFinset ↔ k[l.1] = some l.2 := by
  unfold toFinset
  rw [Finset.mem_filter]
  exact and_iff_right (Finset.mem_univ l)

/-- A conjunction implies another if it has all its signed predicates. -/
theorem implies_iff_subset : k.implies d = true ↔ d.toFinset ⊆ k.toFinset := by
  rw [implies_iff]
  constructor
  · rintro h ⟨i, b⟩ hd
    rw [mem_toFinset] at hd ⊢
    rcases h i i.isLt with hnone | heq
    · rw [Fin.getElem_fin, hnone] at hd
      cases hd
    · exact heq.trans hd
  · intro h i hi
    cases hd : d[i] with
    | none => exact .inl rfl
    | some b => exact .inr (mem_toFinset.1 (h (mem_toFinset.2 hd : ((⟨i, hi⟩ : Fin n), b) ∈ _)))

theorem toFinset_injective : Function.Injective (toFinset (n := n)) := fun _ _ h =>
  implies_antisymm (implies_iff_subset.2 h.ge) (implies_iff_subset.2 h.le)

/-- No predicate is in the set with both signs. -/
def Consistent (S : Finset (Fin n × Bool)) : Prop := ∀ i, ¬ ((i, true) ∈ S ∧ (i, false) ∈ S)

theorem consistent_toFinset (k : Conjunct n) : Consistent k.toFinset := by
  rintro i ⟨htrue, hfalse⟩
  rw [mem_toFinset] at htrue hfalse
  exact Bool.noConfusion (Option.some.inj (htrue.symm.trans hfalse))

/-- A predicate occurs in a consistent set with one sign. -/
theorem Consistent.eq (h : Consistent S) {i : Fin n} {a b : Bool} (ha : (i, a) ∈ S)
    (hb : (i, b) ∈ S) : a = b := by
  cases a <;> cases b
  · rfl
  · exact absurd ⟨hb, ha⟩ (h i)
  · exact absurd ⟨ha, hb⟩ (h i)
  · rfl

/-- The set has as many members as the conjunction has signed predicates. -/
theorem card_toFinset (k : Conjunct n) : k.toFinset.card = k.size := by
  have hfst : Set.InjOn Prod.fst (k.toFinset : Set (Fin n × Bool)) := by
    rintro ⟨i, a⟩ ha ⟨_, b⟩ hb rfl
    exact congrArg _ ((consistent_toFinset k).eq ha hb)
  -- The predicates that occur, as a set and as a list.
  have himage : k.toFinset.image Prod.fst =
      ((List.finRange n).filter fun i => k[i].isSome).toFinset := by
    ext i
    simp [Option.isSome_iff_exists]
  have hlist : k.toList = (List.finRange n).map fun i => k[i] :=
    List.ext_getElem (by simp) fun i _ _ => by simp
  rw [← Finset.card_image_of_injOn hfst, himage,
    List.toFinset_card_of_nodup ((List.nodup_finRange n).filter _), size, hlist, List.countP_map,
    List.countP_eq_length_filter]
  rfl

/-! ## Joining conjunctions -/

/-- The conjunction of two conjunctions has the signed predicates of both. -/
theorem toFinset_and? (h : k.and? bound d = some e) : e.toFinset = k.toFinset ∪ d.toFinset := by
  unfold and? at h
  split_ifs at h with hk
  cases h
  have hcompatible := compatible_iff.1 hk.1
  ext ⟨i, b⟩
  have hi := hcompatible i i.isLt
  rw [Finset.mem_union, mem_toFinset, mem_toFinset, mem_toFinset]
  simp only [merge, Fin.getElem_fin, Vector.getElem_zipWith]
  rcases hi with hi | hi | hi <;> rw [hi] <;> simp

/-- Two conjunctions within a consistent set that is not too large have a conjunction within it. -/
theorem exists_and?_eq_some (hS : Consistent S) (hcard : S.card ≤ bound) (hk : k.toFinset ⊆ S)
    (hd : d.toFinset ⊆ S) : ∃ e, k.and? bound d = some e ∧ e.toFinset ⊆ S := by
  -- Where both conjunctions have a literal for a predicate, the consistent set has it once.
  have hcompatible : k.compatible d = true := by
    rw [compatible_iff]
    intro i hi
    cases hki : k[i] with
    | none => exact .inl rfl
    | some a =>
      cases hdi : d[i] with
      | none => exact .inr (.inl rfl)
      | some b =>
        have ha : ((⟨i, hi⟩ : Fin n), a) ∈ S := hk (mem_toFinset.2 hki)
        have hb : ((⟨i, hi⟩ : Fin n), b) ∈ S := hd (mem_toFinset.2 hdi)
        exact .inr (.inr (congrArg some (hS.eq ha hb)))
  have hsub : (k.merge d).toFinset ⊆ S := by
    rintro ⟨i, b⟩ hmem
    rw [mem_toFinset] at hmem
    simp only [merge, Fin.getElem_fin, Vector.getElem_zipWith, Option.or_eq_some_iff] at hmem
    rcases hmem with hmem | ⟨-, hmem⟩
    · exact hk (mem_toFinset.2 hmem)
    · exact hd (mem_toFinset.2 hmem)
  refine ⟨k.merge d, if_pos ⟨hcompatible, ?_⟩, hsub⟩
  rw [← card_toFinset]
  exact (Finset.card_le_card hsub).trans hcard

theorem toFinset_literal (i : Fin n) (b : Bool) : (literal i b).toFinset = {(i, b)} := by
  ext ⟨j, a⟩
  rw [mem_toFinset, Finset.mem_singleton]
  by_cases hj : j = i
  · subst hj
    simp [literal, eq_comm]
  · simp [literal, hj]

/-- The false literals under a valuation, unless no literal is short enough. -/
theorem mem_falseLiterals {v : Signs n} : k ∈ falseLiterals bound v ↔
    bound ≠ 0 ∧ ∃ l : Fin n × Bool, v[l.1] = !l.2 ∧ k = literal l.1 l.2 := by
  unfold falseLiterals
  split_ifs with hbound
  · simp [hbound]
  · rw [and_iff_right hbound]
    simp only [refuted, List.mem_append, List.mem_map, List.mem_filter, List.mem_finRange, true_and,
      decide_eq_true_eq, Prod.exists, Bool.exists_bool]
    constructor
    · rintro (⟨i, hi, rfl⟩ | ⟨i, hi, rfl⟩)
      · exact ⟨i, .inr ⟨hi, rfl⟩⟩
      · exact ⟨i, .inl ⟨hi, rfl⟩⟩
    · rintro ⟨i, ⟨hi, rfl⟩ | ⟨hi, rfl⟩⟩
      · exact .inr ⟨i, hi, rfl⟩
      · exact .inl ⟨i, hi, rfl⟩

end Conjunct

/-- A consistent set of signed predicates that is not too large and has, for each of some valuations,
a literal that is false there. -/
structure Hits (bound : Nat) (vs : List (Signs n)) (S : Finset (Fin n × Bool)) : Prop where
  /-- The set is not too large. -/
  card_le : S.card ≤ bound
  /-- It has no predicate with both signs. -/
  consistent : Conjunct.Consistent S
  /-- It has a false literal under each valuation. -/
  refutes : ∀ v ∈ vs, ∃ l ∈ S, v[l.1] = !l.2

namespace Antichain

variable {a : Antichain n bound} {c d e : Conjunct n} {cs ds : List (Conjunct n)}
  {P : Finset (Fin n × Bool) → Prop} {S : Finset (Fin n × Bool)}

/-! ## What absorption keeps -/

/-- A conjunction is one of a list or has been absorbed by one that it implies. -/
def Covers (cs : List (Conjunct n)) (c : Conjunct n) : Prop := ∃ d ∈ cs, c.implies d = true

/-- Adding a conjunction covers it and uncovers nothing. -/
theorem covers_addTo (h : Covers cs d ∨ d = c) : Covers (addTo cs c) d := by
  unfold addTo
  split_ifs with hany
  · rcases h with h | rfl
    · exact h
    · exact List.any_eq_true.1 hany
  · have hc : Covers (cs.filter (fun d => !d.implies c) ++ [c]) c :=
      ⟨c, List.mem_append_right _ (List.mem_singleton_self c), Conjunct.implies_refl c⟩
    rcases h with ⟨k, hk, hdk⟩ | rfl
    · by_cases hkc : k.implies c = true
      · -- What covered the conjunction is absorbed by the new one.
        obtain ⟨k', hk', hck'⟩ := hc
        exact ⟨k', hk', Conjunct.implies_trans (Conjunct.implies_trans hdk hkc) hck'⟩
      · exact ⟨k, List.mem_append_left _ (List.mem_filter.2 ⟨hk, by simpa using hkc⟩), hdk⟩
    · exact hc

theorem covers_addBoth (h : Covers a.conjuncts e ∨ c.and? bound d = some e) :
    Covers (a.addBoth c d).conjuncts e := by
  unfold addBoth
  split
  next hnone => exact h.resolve_right (by simp [hnone])
  next k hk => exact covers_addTo (h.imp_right fun he => Option.some.inj (he.symm.trans hk))

theorem covers_addProducts (h : Covers a.conjuncts e ∨ ∃ d ∈ ds, c.and? bound d = some e) :
    Covers (a.addProducts c ds).conjuncts e := by
  induction ds generalizing a with
  | nil => exact h.resolve_right (by simp)
  | cons d ds ih =>
    refine ih ?_
    rcases h with h | ⟨d', hd', he⟩
    · exact .inl (covers_addBoth (.inl h))
    · rcases List.mem_cons.1 hd' with rfl | hd'
      · exact .inl (covers_addBoth (.inr he))
      · exact .inr ⟨d', hd', he⟩

/-- A product of two lists covers every conjunction of one of the first with one of the second. -/
theorem covers_product (hc : c ∈ cs) (hd : d ∈ ds) (he : c.and? bound d = some e) :
    Covers (product bound cs ds).conjuncts e := by
  suffices h : ∀ a : Antichain n bound, Covers a.conjuncts e ∨ c ∈ cs →
      Covers (cs.foldl (fun a c => a.addProducts c ds) a).conjuncts e from h empty (.inr hc)
  clear hc
  induction cs with
  | nil => exact fun a h => h.resolve_right List.not_mem_nil
  | cons k cs ih =>
    refine fun a h => ih _ ?_
    rcases h with h | h
    · exact .inl (covers_addProducts (.inl h))
    · rcases List.mem_cons.1 h with rfl | h
      · exact .inl (covers_addProducts (.inr ⟨d, hd, he⟩))
      · exact .inr h

/-! ## Generating minimal sets -/

/-- The conjunctions of a disjunction have a property, and every set with the property contains one
of them. -/
structure Generates (a : Antichain n bound) (P : Finset (Fin n × Bool) → Prop) : Prop where
  /-- Each conjunction has the property. -/
  sound : ∀ c ∈ a.conjuncts, P c.toFinset
  /-- Every set with the property contains a conjunction. -/
  covers : ∀ S, P S → ∃ c ∈ a.conjuncts, c.toFinset ⊆ S

theorem nodup_conjuncts (a : Antichain n bound) : a.conjuncts.Nodup := by
  refine a.incomparable.imp fun {c d} h heq => ?_
  rw [heq, Conjunct.implies_refl] at h
  cases h.1

/-- A conjunction of a disjunction that contains another is that one. -/
theorem eq_of_subset (hc : c ∈ a.conjuncts) (hd : d ∈ a.conjuncts)
    (h : d.toFinset ⊆ c.toFinset) : d = c := by
  by_contra hne
  have : Std.Symm fun c d : Conjunct n => c.implies d = false ∧ d.implies c = false :=
    ⟨fun _ _ h => h.symm⟩
  have hfalse := (a.incomparable.forall hc hd (Ne.symm hne)).1
  rw [Conjunct.implies_iff_subset.2 h] at hfalse
  cases hfalse

/-- The conjunctions of a disjunction that generates a property are the minimal sets with it. -/
theorem Generates.mem_map_iff (h : a.Generates P) :
    S ∈ a.conjuncts.map Conjunct.toFinset ↔ Minimal P S := by
  rw [List.mem_map]
  constructor
  · rintro ⟨c, hc, rfl⟩
    refine ⟨h.sound c hc, fun T hT hle => ?_⟩
    obtain ⟨d, hd, hsub⟩ := h.covers T hT
    exact eq_of_subset hc hd (hsub.trans hle) ▸ hsub
  · intro hmin
    obtain ⟨c, hc, hsub⟩ := h.covers S hmin.1
    exact ⟨c, hc, hsub.antisymm (hmin.2 (h.sound c hc) hsub)⟩

/-- The disjunction that always holds has one conjunction, the empty set. -/
theorem generates_always : (always : Antichain n bound).Generates (Hits bound []) := by
  have hempty : Conjunct.toFinset (Vector.replicate n none) = ∅ := by
    ext l
    simp
  have honly : (always : Antichain n bound).conjuncts = [Vector.replicate n none] := rfl
  refine ⟨fun c hc => ?_, fun S _ => ⟨_, honly ▸ List.mem_singleton_self _, ?_⟩⟩
  · rw [honly, List.mem_singleton] at hc
    rw [hc, hempty]
    refine ⟨Nat.zero_le _, fun i h => absurd h.1 (Finset.notMem_empty _), fun v hv => ?_⟩
    exact absurd hv List.not_mem_nil
  · rw [hempty]
    exact Finset.empty_subset S

/-- Excluding a valuation goes from the sets that hit some valuations to those that hit this one as
well. -/
theorem Generates.exclude {vs : List (Signs n)} (h : a.Generates (Hits bound vs)) (v : Signs n) :
    (a.exclude v).Generates (Hits bound (vs ++ [v])) := by
  constructor
  · intro e he
    obtain ⟨c, hc, d, hd, hcd⟩ := mem_product he
    obtain ⟨-, l, hl, rfl⟩ := Conjunct.mem_falseLiterals.1 hd
    have hunion := Conjunct.toFinset_and? hcd
    rw [Conjunct.toFinset_literal] at hunion
    refine ⟨?_, Conjunct.consistent_toFinset e, fun w hw => ?_⟩
    · rw [Conjunct.card_toFinset]
      exact (a.exclude v).short e he
    · rw [hunion]
      rcases List.mem_append.1 hw with hw | hw
      · obtain ⟨l', hl', hfalse⟩ := (h.sound c hc).refutes w hw
        exact ⟨l', Finset.mem_union_left _ hl', hfalse⟩
      · rw [List.mem_singleton.1 hw]
        exact ⟨l, Finset.mem_union_right _ (Finset.mem_singleton_self l), hl⟩
  · intro S hS
    obtain ⟨l, hl, hfalse⟩ := hS.refutes v (List.mem_append_right _ (List.mem_singleton_self v))
    obtain ⟨c, hc, hsub⟩ := h.covers S
      ⟨hS.card_le, hS.consistent, fun w hw => hS.refutes w (List.mem_append_left _ hw)⟩
    -- The set has a literal, so one literal alone is not too long.
    have hbound : bound ≠ 0 := by
      have hpos : 0 < S.card := Finset.card_pos.2 ⟨l, hl⟩
      have hle := hS.card_le
      omega
    have hliteral : (Conjunct.literal l.1 l.2).toFinset ⊆ S := by
      rw [Conjunct.toFinset_literal]
      exact Finset.singleton_subset_iff.2 hl
    obtain ⟨e, he, hesub⟩ := Conjunct.exists_and?_eq_some hS.consistent hS.card_le hsub hliteral
    obtain ⟨k, hk, hek⟩ := covers_product hc
      (Conjunct.mem_falseLiterals.2 ⟨hbound, l, hfalse, rfl⟩) he
    exact ⟨k, hk, (Conjunct.implies_iff_subset.1 hek).trans hesub⟩

/-- Excluding several valuations in turn leaves the sets that hit all of them. -/
theorem generates_foldl_exclude (vs : List (Signs n)) :
    (vs.foldl Antichain.exclude (always : Antichain n bound)).Generates (Hits bound vs) := by
  suffices h : ∀ (us : List (Signs n)) (a : Antichain n bound), a.Generates (Hits bound us) →
      (vs.foldl Antichain.exclude a).Generates (Hits bound (us ++ vs)) from
    h [] always generates_always
  induction vs with
  | nil => exact fun us a h => (List.append_nil us).symm ▸ h
  | cons v vs ih =>
    intro us a h
    rw [List.append_cons us v vs]
    exact ih _ _ (h.exclude v)

end Antichain

end Obligations.Summary
