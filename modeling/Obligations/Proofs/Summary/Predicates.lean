import Obligations.Summary.Predicates
import Obligations.Proofs.Summary.Admission

/-!
# What summaries by predicates admit

Such a summary admits an end state if every end predicate holds there whose antecedent holds for the
truth values that the state gives to the entry predicates (`Predicates.domain_admits_iff`). A join
excludes these truth values from the antecedents of the end predicates that fail and adds none to
any antecedent, so that it weakens the summary (`Predicates.domain_joinWeakens`).

The formula of a summary instantiates whole predicates and evaluation may skip a part of one, so
that the states in question have to bind all names of the predicates.
-/

namespace Obligations.Summary

namespace Conjunct

variable {n : Nat}

/-- A conjunction holds under a valuation that gives every predicate in it its sign. -/
theorem holds_iff {v : Signs n} {k : Conjunct n} :
    k.holds v = true ↔ ∀ (i : Nat) (h : i < n), k[i] = none ∨ k[i] = some v[i] := by
  unfold holds
  rw [implies_iff]
  simp only [Vector.getElem_map, eq_comm]

end Conjunct

namespace Predicates

variable {d : Predicates} {c : RenderContext} {t : EndState} {v : Valuation}

/-- An end state that binds all names of the predicates and gives each predicate a truth value. -/
structure Fits (d : Predicates) (t : EndState) : Prop where
  /-- Each predicate has a truth value. -/
  decided : ∀ e ∈ d.pre ++ d.post, e.Decided t.valuation
  /-- Each name of a predicate has a value. -/
  binds : ∀ e ∈ d.pre ++ d.post, t.Binds e

/-- The truth values of the entry predicates in an end state; a predicate without one counts as
false. -/
def signs (d : Predicates) (t : EndState) : Signs d.pre.length :=
  Vector.ofFn fun i => decide (d.pre[i].eval t.valuation = .ok (.bool true))

theorem decide_eq_ok_iff {e : Expr} {b : Bool} :
    t.decide e = .ok b ↔ e.eval t.valuation = .ok (.bool b) := by
  unfold EndState.decide
  rcases e.eval t.valuation with err | (i | x) <;> simp

/-! ## The formula of a summary -/

/-- Whether an entry predicate occurs in some clause. -/
def occurs (d : Predicates) (cs : List (Antichain d.pre.length d.bound)) (i : Nat) : Bool :=
  cs.any fun a => a.conjuncts.any fun k => (k.toList[i]?.join).isSome

/-- The entry predicates that occur in some clause, over the terms of a context. -/
def preTerms (d : Predicates) (c : RenderContext) (cs : List (Antichain d.pre.length d.bound)) :
    List (Option Expr) :=
  d.pre.zipIdx.map fun p => if d.occurs cs p.2 then some (c.restate p.1) else none

/-- The clauses that say something, each with its end predicate. -/
def clauses (d : Predicates) (cs : List (Antichain d.pre.length d.bound)) :
    List (Antichain d.pre.length d.bound × Expr) :=
  (cs.zip d.post).filter fun q => !q.1.conjuncts.isEmpty

/-- A clause over the given terms for the entry predicates and the terms of a context. -/
def clauseFormula (d : Predicates) (c : RenderContext) (terms : List (Option Expr))
    (q : Antichain d.pre.length d.bound × Expr) : Expr :=
  (Expr.disjAny (q.1.conjuncts.map (renderConjunct terms))).impl (c.restate q.2)

/-- A summary over the terms of a context. -/
def formula (d : Predicates) (c : RenderContext) : PredicateSummary d → Expr
  | none => .bool false
  | some cs => .conjAll ((d.clauses cs).map (d.clauseFormula c (d.preTerms c cs)))

/-- The predicates that the formula of a summary is about. -/
def reads (d : Predicates) : PredicateSummary d → List Expr
  | none => []
  | some cs => (d.pre.zipIdx.filter fun p => d.occurs cs p.2).map (·.1) ++ (d.clauses cs).map (·.2)

theorem mem_reads_of_occurs {cs : List (Antichain d.pre.length d.bound)} {p : Expr × Nat}
    (hp : p ∈ d.pre.zipIdx) (h : d.occurs cs p.2 = true) : p.1 ∈ d.reads (some cs) :=
  List.mem_append_left _ (List.mem_map_of_mem (List.mem_filter.2 ⟨hp, h⟩))

theorem mem_reads_of_mem_clauses {cs : List (Antichain d.pre.length d.bound)}
    {q : Antichain d.pre.length d.bound × Expr} (h : q ∈ d.clauses cs) : q.2 ∈ d.reads (some cs) :=
  List.mem_append_right _ (List.mem_map_of_mem h)

/-- The formula of a summary is about predicates of the domain only. -/
theorem mem_of_mem_reads {s : PredicateSummary d} {e : Expr} (h : e ∈ d.reads s) :
    e ∈ d.pre ++ d.post := by
  cases s with
  | none => cases h
  | some cs =>
    rcases List.mem_append.1 h with h | h
    · obtain ⟨p, hp, rfl⟩ := List.mem_map.1 h
      obtain ⟨hi, hp⟩ := List.mem_zipIdx' (List.mem_filter.1 hp).1
      rw [hp]
      exact List.mem_append_left _ (List.getElem_mem hi)
    · obtain ⟨q, hq, rfl⟩ := List.mem_map.1 h
      exact List.mem_append_right _ (List.of_mem_zip (List.mem_filter.1 hq).1).2

theorem renderPre_eq_ok {cs : List (Antichain d.pre.length d.bound)}
    (h : ∀ p ∈ d.reads (some cs), c.Maps p) : d.renderPre c cs = .ok (d.preTerms c cs) := by
  refine mapM_eq_ok fun p hp => ?_
  change (if d.occurs cs p.2 = true then _ else _) = _
  split_ifs with hocc
  · rw [instantiate_eq_ok (h _ (mem_reads_of_occurs hp hocc))]
    rfl
  · rfl

theorem renderClauses_eq_ok {terms : List (Option Expr)}
    {qs : List (Antichain d.pre.length d.bound × Expr)}
    (h : ∀ q ∈ qs.filter fun q => !q.1.conjuncts.isEmpty, c.Maps q.2) :
    d.renderClauses c terms qs =
      .ok ((qs.filter fun q => !q.1.conjuncts.isEmpty).map (d.clauseFormula c terms)) := by
  induction qs with
  | nil => rfl
  | cons q rest ih =>
    obtain ⟨a, post⟩ := q
    unfold renderClauses
    cases hempty : a.conjuncts.isEmpty with
    | true =>
      rw [List.filter_cons_of_neg (by simp [hempty])] at h ⊢
      exact ih h
    | false =>
      rw [List.filter_cons_of_pos (by simp [hempty])] at h ⊢
      obtain ⟨hpost, hrest⟩ := List.forall_mem_cons.1 h
      rw [instantiate_eq_ok hpost, ih hrest]
      rfl

/-- A summary can be rendered over terms for the names of the predicates that its formula is
about. -/
theorem render_eq_ok {s : PredicateSummary d} (h : ∀ p ∈ d.reads s, c.Maps p) :
    d.render s c = .ok (d.formula c s) := by
  cases s with
  | none => rfl
  | some cs =>
    have hclauses : ∀ q ∈ d.clauses cs, c.Maps q.2 :=
      fun q hq => h _ (mem_reads_of_mem_clauses hq)
    exact bind_eq_ok.2 ⟨_, renderPre_eq_ok h, bind_eq_ok.2 ⟨_, renderClauses_eq_ok hclauses, rfl⟩⟩

/-! ## Truth of the formula -/

/-- The predicates that the formula of a summary is about have truth values in an end state, and
have them over the terms of a context under a valuation too. -/
def Decides (d : Predicates) (t : EndState) (c : RenderContext) (v : Valuation)
    (s : PredicateSummary d) : Prop :=
  ∀ p ∈ d.reads s, ∃ b, p.eval t.valuation = .ok (.bool b) ∧ (c.restate p).eval v = .ok (.bool b)

/-- Predicates with a truth value in an end state are decided over terms whose values the state
holds. -/
theorem decides_of_decided {s : PredicateSummary d} (hc : t.ValuesOf c v)
    (h : ∀ p ∈ d.reads s, t.Binds p ∧ p.Decided t.valuation) : d.Decides t c v s := by
  intro p hp
  obtain ⟨hbinds, b, hb⟩ := h p hp
  exact ⟨b, hb, hc.eval_restate_eq_ok hbinds hb⟩

theorem getElem_signs {i : Nat} (hi : i < d.pre.length) {b : Bool}
    (h : d.pre[i].eval t.valuation = .ok (.bool b)) : (d.signs t)[i] = b := by
  unfold signs
  rw [Vector.getElem_ofFn]
  change decide ((d.pre[i]).eval t.valuation = _) = b
  rw [h]
  cases b <;> rfl

/-- Under a valuation the terms for the entry predicates have given truth values, and there is one
for each entry predicate that occurs in some clause. -/
structure Terms (d : Predicates) (v : Valuation) (signs : Signs d.pre.length)
    (cs : List (Antichain d.pre.length d.bound)) (terms : List (Option Expr)) : Prop where
  /-- The terms have the truth values. -/
  value : ∀ (i : Nat) (h : i < d.pre.length) (e : Expr), terms[i]? = some (some e) →
    e.eval v = .ok (.bool signs[i])
  /-- There are enough terms. -/
  occurring : ∀ a ∈ cs, ∀ k ∈ a.conjuncts, ∀ (i : Nat) (h : i < d.pre.length), k[i] ≠ none →
    ∃ e, terms[i]? = some (some e)

/-- The entry predicates over the terms of a context have the truth values of an end state. -/
theorem terms_preTerms {cs : List (Antichain d.pre.length d.bound)}
    (h : d.Decides t c v (some cs)) : d.Terms v (d.signs t) cs (d.preTerms c cs) := by
  -- A predicate that occurs has its formula as the term, and another one has none.
  have hget : ∀ i, (d.preTerms c cs)[i]? =
      d.pre[i]?.map fun p => if d.occurs cs i then some (c.restate p) else none := by
    intro i
    unfold preTerms
    rw [List.getElem?_map, List.getElem?_zipIdx, Option.map_map]
    simp [Function.comp_def]
  constructor
  · intro i hi e he
    rw [hget, List.getElem?_eq_getElem hi, Option.map_some] at he
    split_ifs at he with hocc
    · cases he
      obtain ⟨b, hb, hvalue⟩ := h _ (mem_reads_of_occurs (p := (d.pre[i], i))
        (List.mk_mem_zipIdx_iff_getElem?.2 (List.getElem?_eq_getElem hi)) hocc)
      rw [getElem_signs hi hb]
      exact hvalue
    · cases he
  · intro a ha k hk i hi hsome
    have hocc : d.occurs cs i = true := by
      refine List.any_eq_true.2 ⟨a, ha, List.any_eq_true.2 ⟨k, hk, ?_⟩⟩
      rw [List.getElem?_eq_getElem (by simpa using hi)]
      simpa [Option.isSome_iff_ne_none] using hsome
    rw [hget, List.getElem?_eq_getElem hi, Option.map_some, if_pos hocc]
    exact ⟨_, rfl⟩

/-- The formula of a signed entry predicate. -/
def signed (e : Expr) (sign : Bool) : Expr := if sign then e else e.not

/-- The formulas whose conjunction stands for a conjunction of signed predicates. -/
def literals {n : Nat} (terms : List (Option Expr)) (k : Conjunct n) : List Expr :=
  (terms.zip k.toList).filterMap fun (e, s) =>
    match e, s with
    | some e, some true => some e
    | some e, some false => some e.not
    | _, _ => none

theorem mem_literals {n : Nat} {terms : List (Option Expr)} {k : Conjunct n} {f : Expr} :
    f ∈ literals terms k ↔ ∃ (i : Nat) (_ : i < n) (e : Expr) (b : Bool),
      terms[i]? = some (some e) ∧ k[i] = some b ∧ f = signed e b := by
  unfold literals
  rw [List.mem_filterMap]
  constructor
  · rintro ⟨⟨o, s⟩, hzip, hf⟩
    obtain ⟨i, hi⟩ := List.mem_iff_getElem?.1 hzip
    obtain ⟨hi, hs⟩ := List.getElem?_zip_eq_some.1 hi
    obtain ⟨hlt, hs⟩ := List.getElem?_eq_some_iff.1 hs
    have hlt : i < n := by simpa using hlt
    have hs : k[i] = s := by simpa using hs
    match o, s with
    | some e, some true => exact ⟨i, hlt, e, true, hi, hs, (Option.some.inj hf).symm⟩
    | some e, some false => exact ⟨i, hlt, e, false, hi, hs, (Option.some.inj hf).symm⟩
  · rintro ⟨i, hlt, e, b, hi, hs, rfl⟩
    refine ⟨(some e, some b), List.mem_iff_getElem?.2 ⟨i, List.getElem?_zip_eq_some.2 ⟨hi, ?_⟩⟩, ?_⟩
    · rw [List.getElem?_eq_getElem (by simpa using hlt)]
      simpa using hs
    · cases b <;> rfl

/-- The formula of a signed entry predicate is true if the predicate has that sign. -/
theorem eval_signed {e : Expr} {x : Bool} (h : e.eval v = .ok (.bool x)) (b : Bool) :
    (signed e b).eval v = .ok (.bool (decide (x = b))) := by
  unfold signed
  cases b
  · rw [if_neg Bool.false_ne_true, Expr.eval_not h]
    cases x <;> rfl
  · rw [if_pos rfl, h]
    cases x <;> rfl

section

variable {signs : Signs d.pre.length} {cs : List (Antichain d.pre.length d.bound)}
  {terms : List (Option Expr)} {a : Antichain d.pre.length d.bound} {k : Conjunct d.pre.length}

theorem renderConjunct_decided (hterms : d.Terms v signs cs terms) :
    (renderConjunct terms k).Decided v := by
  have hconj : renderConjunct terms k = .conjAll (literals terms k) := rfl
  rw [hconj]
  refine Expr.decided_conjAll fun f hf => ?_
  obtain ⟨i, hi, e, b, he, -, rfl⟩ := mem_literals.1 hf
  exact ⟨_, eval_signed (hterms.value i hi e he) b⟩

theorem antecedent_decided (hterms : d.Terms v signs cs terms) :
    (Expr.disjAny (a.conjuncts.map (renderConjunct terms))).Decided v := by
  refine Expr.decided_disjAny fun f hf => ?_
  obtain ⟨k, -, rfl⟩ := List.mem_map.1 hf
  exact renderConjunct_decided hterms

/-- The formula of a conjunction is true if the conjunction holds for the truth values of the entry
predicates. -/
theorem renderConjunct_holds_iff (hterms : d.Terms v signs cs terms) (ha : a ∈ cs)
    (hk : k ∈ a.conjuncts) : (renderConjunct terms k).Holds v ↔ k.holds signs = true := by
  -- A literal is true exactly if its predicate has the truth value that the conjunction gives it.
  have hconj : renderConjunct terms k = .conjAll (literals terms k) := rfl
  rw [hconj, Expr.holds_conjAll_iff, Conjunct.holds_iff]
  constructor
  · intro hall i hi
    rw [or_iff_not_imp_left]
    intro hsome
    obtain ⟨b, hb⟩ := Option.ne_none_iff_exists'.1 hsome
    obtain ⟨e, he⟩ := hterms.occurring a ha k hk i hi hsome
    have hholds := hall _ (mem_literals.2 ⟨i, hi, e, b, he, hb, rfl⟩)
    have heq : Value.bool (decide (signs[i] = b)) = .bool true :=
      Except.ok.inj ((eval_signed (hterms.value i hi e he) b).symm.trans hholds)
    rw [hb, of_decide_eq_true (Value.bool.inj heq)]
  · intro hholds f hf
    obtain ⟨i, hi, e, b, he, hb, rfl⟩ := mem_literals.1 hf
    have hsign : signs[i] = b := by
      have hor := hholds i hi
      rw [hb] at hor
      exact (Option.some.inj (hor.resolve_left (Option.some_ne_none b))).symm
    refine (eval_signed (hterms.value i hi e he) b).trans ?_
    rw [hsign, decide_eq_true rfl]

/-- The antecedent of a clause is true if it holds for the truth values of the entry predicates. -/
theorem antecedent_holds_iff (hterms : d.Terms v signs cs terms) (ha : a ∈ cs) :
    (Expr.disjAny (a.conjuncts.map (renderConjunct terms))).Holds v ↔ a.holds signs = true := by
  rw [Expr.holds_disjAny_iff fun f hf => ?_]
  · unfold Antichain.holds
    rw [List.any_eq_true]
    simp only [List.mem_map, exists_exists_and_eq_and]
    exact exists_congr fun k => and_congr_right fun hk => renderConjunct_holds_iff hterms ha hk
  · obtain ⟨k, -, rfl⟩ := List.mem_map.1 hf
    exact renderConjunct_decided hterms

end

/-- A clause is true over the terms of a context if its end predicate is in the end state whenever
its antecedent holds for the truth values of the entry predicates. -/
theorem clauseFormula_holds_iff {cs : List (Antichain d.pre.length d.bound)}
    (h : d.Decides t c v (some cs)) {q : Antichain d.pre.length d.bound × Expr}
    (hq : q ∈ d.clauses cs) : (d.clauseFormula c (d.preTerms c cs) q).Holds v ↔
      (q.1.holds (d.signs t) = true → q.2.Holds t.valuation) := by
  have hterms := terms_preTerms h
  obtain ⟨b, hb, hvalue⟩ := h _ (mem_reads_of_mem_clauses hq)
  have hsame : (c.restate q.2).Holds v ↔ q.2.Holds t.valuation := by
    unfold Expr.Holds
    rw [hb, hvalue]
  unfold clauseFormula
  rw [Expr.holds_impl_iff (antecedent_decided hterms) ⟨b, hvalue⟩,
    antecedent_holds_iff hterms (List.of_mem_zip (List.mem_filter.1 hq).1).1, hsame]

/-- The formula of a summary is true over the terms of a context if every end predicate holds in the
end state whose antecedent holds for the truth values of the entry predicates. -/
theorem formula_holds_iff {cs : List (Antichain d.pre.length d.bound)}
    (h : d.Decides t c v (some cs)) : (d.formula c (some cs)).Holds v ↔
      ∀ q ∈ cs.zip d.post, q.1.holds (d.signs t) = true → q.2.Holds t.valuation := by
  rw [formula, Expr.holds_conjAll_iff, List.forall_mem_map]
  constructor
  · intro hall q hq hholds
    -- An empty antecedent never holds.
    have hsays : q ∈ d.clauses cs := by
      refine List.mem_filter.2 ⟨hq, ?_⟩
      cases hempty : q.1.conjuncts.isEmpty with
      | false => rfl
      | true =>
        unfold Antichain.holds at hholds
        rw [List.isEmpty_iff.1 hempty] at hholds
        cases hholds
    exact (clauseFormula_holds_iff h hsays).1 (hall q hsays) hholds
  · exact fun hall q hq =>
      (clauseFormula_holds_iff h hq).2 (hall q (List.mem_filter.1 hq).1)

/-- A summary admits an end state if its formula over the terms of the state is true. -/
theorem admits_iff_formula_holds {s : PredicateSummary d} (h : ∀ p ∈ d.reads s, c.Maps p) :
    d.domain.Admits s t c ↔ (d.formula c s).Holds t.valuation := by
  unfold SummaryDomain.Admits
  rw [show d.domain.render s c = _ from render_eq_ok h]
  simp

/-- A summary admits an end state if every end predicate holds there whose antecedent holds for the
truth values of the entry predicates. -/
theorem domain_admits_iff (hc : t.OwnTerms c) (hfits : d.Fits t)
    (cs : List (Antichain d.pre.length d.bound)) :
    d.domain.Admits (some cs) t c ↔
      ∀ q ∈ cs.zip d.post, q.1.holds (d.signs t) = true → q.2.Holds t.valuation := by
  rw [admits_iff_formula_holds fun p hp =>
    hc.valuesOf.maps_iff.2 (hfits.binds p (mem_of_mem_reads hp))]
  exact formula_holds_iff (decides_of_decided hc.valuesOf fun p hp =>
    ⟨hfits.binds p (mem_of_mem_reads hp), hfits.decided p (mem_of_mem_reads hp)⟩)

/-- Before the first end state a summary admits nothing. -/
theorem not_domain_admits_none : ¬ d.domain.Admits none t c := by
  rintro ⟨e, he, hholds⟩
  cases he
  exact Expr.not_holds_false hholds

/-! ## Joins -/

/-- A join leaves the antecedent of an end predicate that holds and excludes the truth values of the
entry predicates from that of one that fails. -/
theorem getElem?_joinClauses {n bound : Nat} (v : Signs n) (holds : List Bool)
    (cs : List (Antichain n bound)) (i : Nat) :
    (joinClauses v holds cs)[i]? =
      cs[i]?.map fun a => if (holds[i]?).getD true then a else a.exclude v := by
  induction cs generalizing holds i with
  | nil => simp [joinClauses]
  | cons c cs ih =>
    cases holds with
    | nil => simp [joinClauses]
    | cons b bs =>
      unfold joinClauses
      cases i with
      | zero => simp
      | succ i => simpa using ih bs i

/-- The clauses after a join, one by one: a clause of before, with the truth values of the entry
predicates excluded from its antecedent if its end predicate fails in the state joined. -/
theorem exists_of_join_eq_ok {s s' : PredicateSummary d} (h : d.join s t = .ok s') :
    ∃ cs, s' = some cs ∧ ∀ q ∈ cs.zip d.post, ∃ a, (a, q.2) ∈ (s.getD d.strongest).zip d.post ∧
      (q.1 = a ∧ q.2.Holds t.valuation ∨ q.1 = a.exclude (d.signs t)) := by
  obtain ⟨pre, hpre, h⟩ := bind_eq_ok.1 h
  obtain ⟨post, hpost, h⟩ := bind_eq_ok.1 h
  cases h
  -- The truth values found are those that the predicates have.
  have hsigns : Antichain.signsOf d.pre.length pre = d.signs t := by
    apply Vector.ext
    intro i hi
    obtain ⟨hlen, hall⟩ := List.forall₂_iff_get.1 (mapM_eq_ok_iff.1 hpre)
    have hi' : i < pre.length := hlen ▸ hi
    have hvalue := decide_eq_ok_iff.1 (hall i hi hi')
    unfold Antichain.signsOf signs
    rw [Vector.getElem_ofFn, Vector.getElem_ofFn]
    change (pre[i]?).getD false = decide ((d.pre.get ⟨i, hi⟩).eval t.valuation = _)
    rw [hvalue, List.getElem?_eq_getElem hi']
    change pre.get ⟨i, hi'⟩ = _
    cases pre.get ⟨i, hi'⟩ <;> rfl
  refine ⟨_, rfl, fun q hq => ?_⟩
  obtain ⟨i, hi⟩ := List.mem_iff_getElem?.1 hq
  obtain ⟨hclause, hq⟩ := List.getElem?_zip_eq_some.1 hi
  rw [getElem?_joinClauses, hsigns, Option.map_eq_some_iff] at hclause
  obtain ⟨a, ha, hclause⟩ := hclause
  refine ⟨a, List.mem_iff_getElem?.2 ⟨i, List.getElem?_zip_eq_some.2 ⟨ha, hq⟩⟩, ?_⟩
  obtain ⟨hlen, hall⟩ := List.forall₂_iff_get.1 (mapM_eq_ok_iff.1 hpost)
  obtain ⟨hi, hget⟩ := List.getElem?_eq_some_iff.1 hq
  have hi' : i < post.length := hlen ▸ hi
  have hvalue := decide_eq_ok_iff.1 (hall i hi hi')
  rw [List.getElem?_eq_getElem hi', Option.getD_some] at hclause
  cases hb : post[i] with
  | true =>
    rw [hb, if_pos rfl] at hclause
    refine .inl ⟨hclause.symm, ?_⟩
    change (d.post[i]).eval _ = .ok (.bool post[i]) at hvalue
    rw [hget, hb] at hvalue
    exact hvalue
  | false =>
    rw [hb, if_neg Bool.false_ne_true] at hclause
    exact .inr hclause.symm

/-- Joining an end state weakens a summary by predicates, for end states that fit the
predicates. -/
theorem domain_joinWeakens (d : Predicates) : d.domain.JoinWeakens d.Fits := by
  intro s s' t hjoin hfits
  obtain ⟨cs, rfl, hclauses⟩ := exists_of_join_eq_ok hjoin
  -- A clause that a join keeps has a conclusion that is true, and any other excludes the end state.
  constructor
  · intro c hc
    rw [domain_admits_iff hc hfits]
    intro q hq hholds
    obtain ⟨a, -, ⟨-, hpost⟩ | hexclude⟩ := hclauses q hq
    · exact hpost
    · rw [hexclude, Antichain.holds_exclude_self] at hholds
      cases hholds
  · intro u c hu hc hadmits
    cases s with
    | none => exact absurd hadmits not_domain_admits_none
    | some cs₀ =>
      rw [domain_admits_iff hc hu] at hadmits ⊢
      intro q hq hholds
      obtain ⟨a, ha, ⟨heq, -⟩ | hexclude⟩ := hclauses q hq
      · exact hadmits (a, q.2) ha (heq ▸ hholds)
      · rw [hexclude] at hholds
        exact hadmits (a, q.2) ha (Antichain.holds_of_holds_exclude hholds)

end Predicates

end Obligations.Summary
