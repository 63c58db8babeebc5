import Mathlib
import Obligations.Proofs.Summary.Order

/-!
# Summaries by observed values are exact

Joins from the summary that admits nothing succeed exactly if every end state gives an integer to
every variable (`foldlM_joinConstants_eq_ok_iff`). Then a variable is recorded with the set of its
integers if this has no more elements than the bound, and as unconstrained otherwise, except that
the first integer is always recorded (`Observed.foldl_observe_unobserved`). So the summary is exact
up to the bound (`Exact`), whatever the end states, as soon as the bound admits one value; with a
bound of zero the record of a variable depends on whether an end state is joined once or twice
(`constants_exact_iff`, `constants_not_exact_zero`).
-/

namespace Obligations

/-- The integer that a variable has in an end state. -/
def EndState.integer? (t : EndState) (x : Name) : Option Int := (t.current? x).bind (·.asInt?)

theorem EndState.integer?_eq_some_iff {t : EndState} {x : Name} {k : Int} :
    t.integer? x = some k ↔ t.current? x = some (.int k) := by
  unfold integer?
  cases t.current? x with
  | none => simp
  | some a => cases a <;> simp [Value.asInt?]

namespace Summary

variable {bound : Nat} {p : Program} {i : Implementation} {t : EndState} {ts : List EndState}
  {s s' start : ConstantSummary}

/-- The integers that a variable has in some end states, in turn. -/
def integers (ts : List EndState) (x : Name) : List Int := ts.filterMap (·.integer? x)

/-- The set of the integers that a variable has in some end states. -/
def observations (ts : List EndState) (x : Name) : Finset Int := (integers ts x).toFinset

/-- A set of integers as it is recorded: in ascending order, unless it has too many elements. -/
def Observed.ofSet (bound : Nat) (ks : Finset Int) : Observed :=
  if ks.card ≤ bound then .values (ks.sort (· ≤ ·)) else .unconstrained

/-- A summary records exactly, up to a bound, the integers that its variables have in the end states
that were joined to another summary. -/
structure Exact (bound : Nat) (start : ConstantSummary) (ts : List EndState)
    (s : ConstantSummary) : Prop where
  /-- Of each variable the set of its integers is recorded. -/
  recorded : s = start.map fun v => (v.1, Observed.ofSet bound (observations ts v.1))
  /-- The same end states, in any order and each any number of times, make the same summary. -/
  same_states : ∀ ts' : List EndState,
    (∀ f, f ∈ ts'.map NameMap.find? ↔ f ∈ ts.map NameMap.find?) →
      ts'.foldlM (constants bound).join start = .ok s
  /-- No more values of a variable are tracked than the bound. -/
  length_le : ∀ x vs, (x, .values vs) ∈ s → vs.length ≤ bound
  /-- The formula is true in the end states that give each variable with no more integers than the
  bound one of them. -/
  admits_iff : ∀ u c, EndState.OwnTerms u c → ((constants bound).Admits s u c ↔
    ∀ v ∈ start, (observations ts v.1).card ≤ bound →
      ∃ k ∈ observations ts v.1, u.current? v.1 = some (.int k))

/-! ## One variable -/

/-- Adding an integer to the ascending list of a set makes the ascending list of the greater set. -/
theorem insertValue_sort (k : Int) (ks : Finset Int) :
    insertValue k (ks.sort (· ≤ ·)) = (insert k ks).sort (· ≤ ·) := by
  have hascending : (ks.sort (· ≤ ·)).Pairwise (· < ·) := (Finset.sortedLT_sort ks).pairwise
  have hinserted : (insertValue k (ks.sort (· ≤ ·))).Pairwise (· < ·) :=
    pairwise_insertValue hascending
  have hset : (insertValue k (ks.sort (· ≤ ·))).toFinset = insert k ks := by
    ext v
    rw [List.mem_toFinset, mem_insertValue, Finset.mem_sort, Finset.mem_insert]
  rw [← hset]
  have hnodup := hinserted.imp fun hlt => Int.ne_of_lt hlt
  exact ((List.toFinset_sort (· ≤ ·) hnodup).2 (hinserted.imp fun hlt => Int.le_of_lt hlt)).symm

namespace Observed

/-- A further integer is added to a set that is recorded, unless that makes it too large. -/
theorem observe_values_sort (bound : Nat) (k : Int) (ks : Finset Int) :
    observe bound k (.values (ks.sort (· ≤ ·))) = .ofSet bound (insert k ks) := by
  simp only [observe, insertValue_sort, Finset.length_sort, ofSet, ← Nat.not_le, ite_not]

/-- The same if the set is recorded only in so far as it is not too large. -/
theorem observe_ofSet (bound : Nat) (k : Int) (ks : Finset Int) :
    observe bound k (.ofSet bound ks) = .ofSet bound (insert k ks) := by
  by_cases hcard : ks.card ≤ bound
  · rw [ofSet, if_pos hcard, observe_values_sort]
  · have hcard' : ¬ (insert k ks).card ≤ bound := fun hle =>
      hcard ((Finset.card_le_card (Finset.subset_insert k ks)).trans hle)
    rw [ofSet, ofSet, if_neg hcard, if_neg hcard']
    rfl

theorem foldl_observe_ofSet (bound : Nat) (vs : List Int) (ks : Finset Int) :
    vs.foldl (fun o k => observe bound k o) (.ofSet bound ks) = .ofSet bound (vs.toFinset ∪ ks) := by
  induction vs generalizing ks with
  | nil => rw [List.foldl_nil, List.toFinset_nil, Finset.empty_union]
  | cons v vs ih =>
    rw [List.foldl_cons, observe_ofSet, ih, List.toFinset_cons, Finset.union_insert,
      Finset.insert_union]

/-- If the bound admits one value, the set of some integers is recorded exactly up to the bound. -/
theorem foldl_observe_unobserved (hbound : 1 ≤ bound) {vs : List Int} (hne : vs ≠ []) :
    vs.foldl (fun o k => observe bound k o) .unobserved = .ofSet bound vs.toFinset := by
  cases vs with
  | nil => exact absurd rfl hne
  | cons v vs =>
    have hfirst : observe bound v .unobserved = .ofSet bound {v} := by
      rw [ofSet, Finset.card_singleton, if_pos hbound, Finset.sort_singleton]
      rfl
    rw [List.foldl_cons, hfirst, foldl_observe_ofSet, List.toFinset_cons, Finset.union_comm,
      Finset.insert_eq]

end Observed

/-! ## Joins -/

theorem endInteger_eq_ok_iff {x : Name} {k : Int} :
    endInteger t x = .ok k ↔ t.current? x = some (.int k) := by
  unfold endInteger
  split <;> simp_all

/-- A join succeeds exactly if the end state gives every variable an integer, and adds these. -/
theorem joinConstants_eq_ok_iff : joinConstants bound t s = .ok s' ↔
    (∀ v ∈ s, ∃ k, t.current? v.1 = some (.int k)) ∧
      s' = s.map fun v => (v.1, (t.integer? v.1).elim v.2 fun k => v.2.observe bound k) := by
  induction s generalizing s' with
  | nil =>
    constructor
    · rintro ⟨⟩
      exact ⟨fun _ hv => absurd hv List.not_mem_nil, rfl⟩
    · rintro ⟨-, rfl⟩
      rfl
  | cons v rest ih =>
    obtain ⟨x, o⟩ := v
    rw [joinConstants, bind_eq_ok, List.forall_mem_cons, List.map_cons]
    constructor
    · rintro ⟨k, hk, h⟩
      obtain ⟨rest', hrest, h⟩ := bind_eq_ok.1 h
      cases h
      have hx := endInteger_eq_ok_iff.1 hk
      obtain ⟨hall, rfl⟩ := ih.1 hrest
      exact ⟨⟨⟨k, hx⟩, hall⟩, by rw [EndState.integer?_eq_some_iff.2 hx]; rfl⟩
    · rintro ⟨⟨⟨k, hx⟩, hall⟩, rfl⟩
      refine ⟨k, endInteger_eq_ok_iff.2 hx, bind_eq_ok.2 ⟨_, ih.2 ⟨hall, rfl⟩, ?_⟩⟩
      rw [EndState.integer?_eq_some_iff.2 hx]
      rfl

/-- Joins succeed exactly if all end states give every variable an integer. Each variable is then
known by its own integers, in turn. -/
theorem foldlM_joinConstants_eq_ok_iff : ts.foldlM (constants bound).join s = .ok s' ↔
    (∀ t ∈ ts, ∀ v ∈ s, ∃ k, t.current? v.1 = some (.int k)) ∧
      s' = s.map fun v => (v.1, (integers ts v.1).foldl (fun o k => o.observe bound k) v.2) := by
  induction ts generalizing s with
  | nil =>
    have hsame : (s.map fun v => (v.1, (integers [] v.1).foldl (fun o k => o.observe bound k) v.2)) =
        s := List.map_id' s
    rw [hsame]
    constructor
    · rintro ⟨⟩
      exact ⟨fun _ ht => absurd ht List.not_mem_nil, rfl⟩
    · rintro ⟨-, rfl⟩
      rfl
  | cons t ts ih =>
    -- The integer of the first state comes first among those of a variable.
    have hfirst : ∀ v : Name × Observed,
        (integers (t :: ts) v.1).foldl (fun o k => o.observe bound k) v.2 =
          (integers ts v.1).foldl (fun o k => o.observe bound k)
            ((t.integer? v.1).elim v.2 fun k => v.2.observe bound k) := by
      intro v
      unfold integers
      rw [List.filterMap_cons]
      cases t.integer? v.1 <;> rfl
    rw [List.foldlM_cons, bind_eq_ok, List.forall_mem_cons]
    simp only [hfirst]
    constructor
    · rintro ⟨s₁, hjoin, hrest⟩
      obtain ⟨ht, rfl⟩ := joinConstants_eq_ok_iff.1 hjoin
      obtain ⟨hts, rfl⟩ := ih.1 hrest
      refine ⟨⟨ht, fun t' ht' v hv => ?_⟩, ?_⟩
      · have hmem : (v.1, (t.integer? v.1).elim v.2 fun k => v.2.observe bound k) ∈
            s.map fun v => (v.1, (t.integer? v.1).elim v.2 fun k => v.2.observe bound k) :=
          List.mem_map.2 ⟨v, hv, rfl⟩
        exact (hts t' ht' _ hmem :)
      · rw [List.map_map]
        rfl
    · rintro ⟨⟨ht, hts⟩, rfl⟩
      refine ⟨_, joinConstants_eq_ok_iff.2 ⟨ht, rfl⟩, ih.2 ⟨fun t' ht' => ?_, ?_⟩⟩
      · exact List.forall_mem_map.2 fun v hv => hts t' ht' v hv
      · rw [List.map_map]
        rfl

/-! ## Exactness -/

theorem mem_observations {x : Name} {k : Int} :
    k ∈ observations ts x ↔ ∃ t ∈ ts, t.current? x = some (.int k) := by
  unfold observations integers
  simp only [List.mem_toFinset, List.mem_filterMap, EndState.integer?_eq_some_iff]

/-- What a name denotes in an end state depends on what the state gives for names only. -/
theorem current?_congr {u : EndState} (h : u.find? = t.find?) (x : Name) :
    u.current? x = t.current? x := by
  unfold NameMap.current?
  rw [h]

/-- The bottom summary is about variables of which nothing is known. -/
theorem eq_unobserved_of_bottom (h : (constants bound).bottom p i = .ok start) :
    ∀ v ∈ start, v.2 = .unobserved := by
  unfold constants at h
  dsimp only at h
  split at h
  · cases h
  · cases h
    exact List.forall_mem_map.2 fun _ _ => rfl

/-- If the bound admits one value, joins from the summary that admits nothing record the set of the
integers of each variable up to the bound. -/
theorem foldlM_join_bottom_iff (hbound : start ≠ [] → 1 ≤ bound)
    (hbottom : (constants bound).bottom p i = .ok start) (hne : ts ≠ []) :
    ts.foldlM (constants bound).join start = .ok s ↔
      (∀ t ∈ ts, ∀ v ∈ start, ∃ k, t.current? v.1 = some (.int k)) ∧
        s = start.map fun v => (v.1, .ofSet bound (observations ts v.1)) := by
  rw [foldlM_joinConstants_eq_ok_iff]
  refine and_congr_right fun hall => ?_
  have hrecord : ∀ v ∈ start,
      (v.1, (integers ts v.1).foldl (fun o k => o.observe bound k) v.2) =
        (v.1, Observed.ofSet bound (observations ts v.1)) := by
    intro v hv
    -- Some state has an integer for the variable.
    obtain ⟨t, ht⟩ := List.exists_mem_of_ne_nil ts hne
    obtain ⟨k, hk⟩ := hall t ht v hv
    have hsome : k ∈ integers ts v.1 :=
      List.mem_filterMap.2 ⟨t, ht, EndState.integer?_eq_some_iff.2 hk⟩
    rw [eq_unobserved_of_bottom hbottom v hv, Observed.foldl_observe_unobserved
      (hbound (List.ne_nil_of_mem hv)) (List.ne_nil_of_mem hsome)]
    rfl
  rw [List.map_congr_left hrecord]

theorem exact_of_joins (hbound : start ≠ [] → 1 ≤ bound)
    (hbottom : (constants bound).bottom p i = .ok start) (hne : ts ≠ [])
    (h : ts.foldlM (constants bound).join start = .ok s) : Exact bound start ts s := by
  obtain ⟨hall, hs⟩ := (foldlM_join_bottom_iff hbound hbottom hne).1 h
  refine ⟨hs, fun ts' hsame => ?_, fun x vs hmem => ?_, fun u c hc => ?_⟩
  · -- A state of the one list looks like one of the other.
    have hlooks : ∀ t' ∈ ts', ∃ t ∈ ts, t.find? = t'.find? := fun t' ht' =>
      List.mem_map.1 ((hsame _).1 (List.mem_map_of_mem ht'))
    have hlooks' : ∀ t ∈ ts, ∃ t' ∈ ts', t'.find? = t.find? := fun t ht =>
      List.mem_map.1 ((hsame _).2 (List.mem_map_of_mem ht))
    have hset : observations ts' = observations ts := by
      funext x
      ext k
      rw [mem_observations, mem_observations]
      constructor
      · rintro ⟨t', ht', hk⟩
        obtain ⟨t, ht, heq⟩ := hlooks t' ht'
        exact ⟨t, ht, (current?_congr heq x).trans hk⟩
      · rintro ⟨t, ht, hk⟩
        obtain ⟨t', ht', heq⟩ := hlooks' t ht
        exact ⟨t', ht', (current?_congr heq x).trans hk⟩
    have hne' : ts' ≠ [] := by
      obtain ⟨t, ht⟩ := List.exists_mem_of_ne_nil ts hne
      obtain ⟨t', ht', -⟩ := hlooks' t ht
      exact List.ne_nil_of_mem ht'
    refine (foldlM_join_bottom_iff hbound hbottom hne').2 ⟨fun t' ht' v hv => ?_, hset ▸ hs⟩
    obtain ⟨t, ht, heq⟩ := hlooks t' ht'
    obtain ⟨k, hk⟩ := hall t ht v hv
    exact ⟨k, (current?_congr heq v.1).symm.trans hk⟩
  · rw [hs] at hmem
    obtain ⟨v, hv, heq⟩ := List.mem_map.1 hmem
    obtain ⟨rfl, hvalues⟩ := Prod.mk.inj heq
    unfold Observed.ofSet at hvalues
    split_ifs at hvalues with hcard
    cases hvalues
    rwa [Finset.length_sort]
  -- A variable is permitted if it has an observed value, or if too many have been observed.
  · have hpermits : ∀ v : Name × Observed, (Observed.ofSet bound (observations ts v.1)).Permits
        (u.current? v.1) ↔ ((observations ts v.1).card ≤ bound →
          ∃ k ∈ observations ts v.1, u.current? v.1 = some (.int k)) := by
      intro v
      unfold Observed.ofSet
      split_ifs with hcard
      · simp only [Observed.Permits, Finset.mem_sort, hcard, true_implies]
      · exact iff_of_true trivial fun hle => absurd hle hcard
    have hrender : (constants bound).Admits s u c ↔ s.Permits u :=
      (ConstantSummary.permits_iff hc.valuesOf).symm
    rw [hrender, hs, ConstantSummary.Permits, List.forall_mem_map]
    exact forall₂_congr fun v _ => hpermits v

/-- An end state that gives zero to every variable of a summary. -/
def allZero (s : ConstantSummary) : EndState := .ofList ((s.map (·.1)).map fun x => (x, .int 0))

theorem current?_allZero {v : Name × Observed} (hv : v ∈ s) :
    (allZero s).current? v.1 = some (.int 0) := by
  unfold NameMap.current? allZero
  rw [NameMap.find?_ofList_map_self, if_pos (List.mem_map_of_mem hv)]
  rfl

/-- After one end state a variable has one value, whatever the bound. -/
theorem exists_join_allZero (bound : Nat) (hstart : ∀ v ∈ start, v.2 = .unobserved)
    {v : Name × Observed} (hv : v ∈ start) :
    ∃ s, [allZero start].foldlM (constants bound).join start = .ok s ∧ (v.1, .values [0]) ∈ s := by
  have hvalue : integers [allZero start] v.1 = [0] := by
    unfold integers
    rw [List.filterMap_cons, EndState.integer?_eq_some_iff.2 (current?_allZero hv)]
    rfl
  have hall : ∀ t ∈ [allZero start], ∀ v ∈ start, ∃ k, t.current? v.1 = some (.int k) :=
    List.forall_mem_singleton.2 fun v hv => ⟨0, current?_allZero hv⟩
  refine ⟨_, foldlM_joinConstants_eq_ok_iff.2 ⟨hall, rfl⟩, List.mem_map.2 ⟨v, hv, ?_⟩⟩
  rw [hvalue, hstart v hv]
  rfl

/-- Summaries by observed values are exact up to the bound, whatever end states are joined, exactly if
the bound admits one value or there is no variable to observe. -/
theorem constants_exact_iff (hbottom : (constants bound).bottom p i = .ok start) :
    (∀ ts s, ts ≠ [] → ts.foldlM (constants bound).join start = .ok s → Exact bound start ts s) ↔
      (start ≠ [] → 1 ≤ bound) := by
  constructor
  · intro hexact hstart
    obtain ⟨v, hv⟩ := List.exists_mem_of_ne_nil start hstart
    -- After one end state one value is tracked, whatever the bound.
    obtain ⟨s, hjoin, hmem⟩ := exists_join_allZero bound (eq_unobserved_of_bottom hbottom) hv
    exact (hexact _ s (List.cons_ne_nil _ _) hjoin).length_le v.1 [0] hmem
  · exact fun hbound ts s hne h => exact_of_joins hbound hbottom hne h

/-! ## A procedure with one output -/

/-- A procedure that answers an integer `r`. -/
def answering : Procedure := ⟨⟨"P"⟩, [], [⟨⟨"r"⟩, .int, none, .output⟩], [], [], [], []⟩

def answeringBody : Implementation := ⟨⟨"P"⟩, [], [⟨⟨"r"⟩, .int, none, .output⟩], [], [], [], 0⟩

/-- An end state in which the answer has a value. -/
def answer (k : Int) : EndState := .ofList [(⟨"r"⟩, .int k)]

theorem bottom_answering (bound : Nat) :
    (constants bound).bottom ⟨[], [], [answering], [answeringBody]⟩ answeringBody =
      .ok [(⟨"r"⟩, .unobserved)] := rfl

/-- With the bound 2 the answers 7, 5 and 7 are recorded as 5 and 7, and the answers 5 and 7 make
the same summary. -/
theorem constants_exact_iff_answering :
    [answer 7, answer 5, answer 7].foldlM (constants 2).join [(⟨"r"⟩, .unobserved)] =
        .ok [(⟨"r"⟩, .values [5, 7])] ∧
      Exact 2 [(⟨"r"⟩, .unobserved)] [answer 7, answer 5, answer 7] [(⟨"r"⟩, .values [5, 7])] :=
  ⟨rfl, (constants_exact_iff (bottom_answering 2)).2 (fun _ => by decide) _ _ (List.cons_ne_nil _ _)
    rfl⟩

/-- With the bound zero the answer 5 is recorded when it is met once, and no longer when it is met
twice. -/
theorem constants_not_exact_zero :
    [answer 5].foldlM (constants 0).join [(⟨"r"⟩, .unobserved)] = .ok [(⟨"r"⟩, .values [5])] ∧
      [answer 5, answer 5].foldlM (constants 0).join [(⟨"r"⟩, .unobserved)] =
        .ok [(⟨"r"⟩, .unconstrained)] ∧
      ¬ Exact 0 [(⟨"r"⟩, .unobserved)] [answer 5] [(⟨"r"⟩, .values [5])] := by
  refine ⟨rfl, rfl, fun hexact => ?_⟩
  have hle : 1 ≤ 0 := hexact.length_le ⟨"r"⟩ [5] (List.mem_singleton_self _)
  exact absurd hle (by decide)

end Summary

end Obligations
