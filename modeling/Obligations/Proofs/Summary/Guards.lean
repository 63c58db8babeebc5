import Obligations.Proofs.Summary.HittingSets
import Obligations.Proofs.Summary.Predicates

/-!
# The clauses after several joins

A join succeeds exactly if the end state gives each predicate a truth value, and it then excludes the
truth values of the entry predicates from the clauses whose end predicates fail
(`Predicates.join_eq_ok_iff`). So the antecedent of a clause after several joins excludes one
valuation for each of the states in which its end predicate fails
(`Predicates.getElem?_foldl_weaken`). A set of signed entry predicates guards an end predicate against
some states (`Predicates.Guards`) if it hits these valuations; the conjunctions of the antecedent are
the minimal sets that do (`Predicates.join_guards`).
-/

namespace Obligations.Summary.Predicates

open Conjunct (toFinset)

variable {d : Predicates} {t : EndState} {ts : List EndState} {q : Expr}
  {s s' : PredicateSummary d}

/-- An end state gives each predicate a truth value. -/
def Judged (d : Predicates) (t : EndState) : Prop := ∀ e ∈ d.pre ++ d.post, e.Decided t.valuation

/-- A set of signed entry predicates that is not too large, has no predicate with both signs and has,
for each of some end states in which an end predicate fails, a literal that is false there. -/
structure Guards (d : Predicates) (ts : List EndState) (q : Expr)
    (S : Finset (Fin d.pre.length × Bool)) : Prop where
  /-- The set is not too large. -/
  card_le : S.card ≤ d.bound
  /-- It has no predicate with both signs. -/
  consistent : ∀ i, ¬ ((i, true) ∈ S ∧ (i, false) ∈ S)
  /-- Where the end predicate fails, a literal is false. -/
  refutes : ∀ t ∈ ts, ¬ q.Holds t.valuation →
    ∃ l ∈ S, d.pre[l.1].eval t.valuation = .ok (.bool !l.2)

/-- What the clause of an end predicate says after some end states. -/
structure IsClause (d : Predicates) (ts : List EndState) (q : Expr)
    (c : Antichain d.pre.length d.bound) : Prop where
  /-- The end predicate is said always to hold if it has held in all states. -/
  isAlways_iff : c.isAlways = true ↔ ∀ t ∈ ts, q.Holds t.valuation
  /-- No conjunction is repeated. -/
  nodup : (c.conjuncts.map toFinset).Nodup
  /-- The conjunctions are the minimal sets that guard the end predicate. -/
  mem_iff : ∀ S, S ∈ c.conjuncts.map toFinset ↔ Minimal (d.Guards ts q) S

/-! ## One join -/

instance (e : Expr) (v : Valuation) : Decidable (e.Holds v) :=
  inferInstanceAs (Decidable (e.eval v = .ok (.bool true)))

/-- The clauses after a further end state that gives each predicate a truth value. -/
def weaken (d : Predicates) (cs : List (Antichain d.pre.length d.bound)) (t : EndState) :
    List (Antichain d.pre.length d.bound) :=
  joinClauses (d.signs t) (d.post.map fun q => decide (q.Holds t.valuation)) cs

/-- The truth value of a predicate says whether it holds. -/
theorem decide_holds {e : Expr} {b : Bool} (h : e.eval t.valuation = .ok (.bool b)) :
    decide (e.Holds t.valuation) = b := by
  cases b with
  | true => exact decide_eq_true h
  | false =>
    refine decide_eq_false fun htrue => ?_
    have heq : Value.bool false = .bool true := Except.ok.inj (h.symm.trans htrue)
    cases heq

/-- The truth values of several predicates are found exactly if each of them has one. -/
theorem mapM_decide_eq_ok_iff {es : List Expr} {bs : List Bool} : es.mapM t.decide = .ok bs ↔
    (∀ e ∈ es, e.Decided t.valuation) ∧ bs = es.map fun e => decide (e.Holds t.valuation) := by
  constructor
  · intro h
    have hvalues := mapM_eq_ok_iff.1 h
    clear h
    induction hvalues with
    | nil => exact ⟨fun _ he => absurd he List.not_mem_nil, rfl⟩
    | @cons e b es bs hb _ ih =>
      have hvalue := decide_eq_ok_iff.1 hb
      refine ⟨List.forall_mem_cons.2 ⟨⟨b, hvalue⟩, ih.1⟩, ?_⟩
      rw [List.map_cons, decide_holds hvalue, ih.2]
  · rintro ⟨hall, rfl⟩
    refine mapM_eq_ok fun e he => ?_
    obtain ⟨b, hb⟩ := hall e he
    rw [decide_holds hb]
    exact decide_eq_ok_iff.2 hb

/-- The truth values of the entry predicates, in the form in which a join computes them. -/
theorem signsOf_map_holds (d : Predicates) (t : EndState) :
    Antichain.signsOf d.pre.length (d.pre.map fun e => decide (e.Holds t.valuation)) =
      d.signs t := by
  apply Vector.ext
  intro i hi
  unfold Antichain.signsOf signs
  rw [Vector.getElem_ofFn, Vector.getElem_ofFn, List.getElem?_map, List.getElem?_eq_getElem hi]
  rfl

/-- A join succeeds exactly if the end state gives each predicate a truth value. -/
theorem join_eq_ok_iff :
    d.join s t = .ok s' ↔ d.Judged t ∧ s' = some (d.weaken (s.getD d.strongest) t) := by
  unfold join Judged
  rw [List.forall_mem_append]
  constructor
  · intro h
    obtain ⟨pre, hpre, h⟩ := bind_eq_ok.1 h
    obtain ⟨post, hpost, h⟩ := bind_eq_ok.1 h
    obtain ⟨hdecided, rfl⟩ := mapM_decide_eq_ok_iff.1 hpre
    obtain ⟨hdecided', rfl⟩ := mapM_decide_eq_ok_iff.1 hpost
    rw [signsOf_map_holds] at h
    exact ⟨⟨hdecided, hdecided'⟩, (Except.ok.inj h).symm⟩
  · rintro ⟨⟨hpre, hpost⟩, rfl⟩
    refine bind_eq_ok.2 ⟨_, mapM_decide_eq_ok_iff.2 ⟨hpre, rfl⟩, ?_⟩
    refine bind_eq_ok.2 ⟨_, mapM_decide_eq_ok_iff.2 ⟨hpost, rfl⟩, ?_⟩
    rw [signsOf_map_holds]
    rfl

/-! ## Several joins -/

/-- Joins succeed exactly if all end states give each predicate a truth value. -/
theorem foldlM_join_some_iff {cs : List (Antichain d.pre.length d.bound)} :
    ts.foldlM d.join (some cs) = .ok s ↔
      (∀ t ∈ ts, d.Judged t) ∧ s = some (ts.foldl d.weaken cs) := by
  induction ts generalizing cs with
  | nil =>
    constructor
    · rintro ⟨⟩
      exact ⟨fun _ ht => absurd ht List.not_mem_nil, rfl⟩
    · rintro ⟨-, rfl⟩
      rfl
  | cons t ts ih =>
    rw [List.foldlM_cons, bind_eq_ok, List.forall_mem_cons, List.foldl_cons]
    constructor
    · rintro ⟨s₁, hjoin, hrest⟩
      obtain ⟨ht, rfl⟩ := join_eq_ok_iff.1 hjoin
      obtain ⟨hts, rfl⟩ := ih.1 hrest
      exact ⟨⟨ht, hts⟩, rfl⟩
    · rintro ⟨⟨ht, hts⟩, rfl⟩
      exact ⟨_, join_eq_ok_iff.2 ⟨ht, rfl⟩, ih.2 ⟨hts, rfl⟩⟩

/-- Joins from the summary that admits nothing start from the strongest clauses. -/
theorem foldlM_join_iff (hne : ts ≠ []) : ts.foldlM d.join none = .ok s ↔
    (∀ t ∈ ts, d.Judged t) ∧ s = some (ts.foldl d.weaken d.strongest) := by
  rw [← foldlM_join_some_iff]
  cases ts with
  | nil => exact absurd rfl hne
  | cons t ts => rfl

/-- The truth values of the entry predicates in the states in which an end predicate fails. -/
def failures (d : Predicates) (q : Expr) (ts : List EndState) : List (Signs d.pre.length) :=
  (ts.filter fun t => ¬ q.Holds t.valuation).map d.signs

/-- After several joins, a clause excludes what holds on entry where its end predicate fails. -/
theorem getElem?_foldl_weaken {i : Nat} (hq : d.post[i]? = some q)
    (cs : List (Antichain d.pre.length d.bound)) :
    (ts.foldl d.weaken cs)[i]? = cs[i]?.map fun a => (d.failures q ts).foldl Antichain.exclude a := by
  induction ts generalizing cs with
  | nil => exact Option.map_id'.symm
  | cons t ts ih =>
    rw [List.foldl_cons, ih, weaken, getElem?_joinClauses, List.getElem?_map, hq, Option.map_map]
    congr 1
    funext a
    dsimp only [Function.comp_apply, Option.map_some, Option.getD_some]
    unfold failures
    by_cases hholds : q.Holds t.valuation
    · rw [List.filter_cons_of_neg (by simpa using hholds), if_pos (decide_eq_true hholds)]
    · rw [List.filter_cons_of_pos (by simpa using hholds), if_neg (by simpa using hholds)]
      rfl

theorem length_joinClauses {n bound : Nat} (v : Signs n) (holds : List Bool)
    (cs : List (Antichain n bound)) : (joinClauses v holds cs).length = cs.length := by
  induction cs generalizing holds with
  | nil => simp [joinClauses]
  | cons c cs ih =>
    cases holds with
    | nil => rfl
    | cons b bs => exact congrArg (· + 1) (ih bs)

theorem length_foldl_weaken (ts : List EndState) (cs : List (Antichain d.pre.length d.bound)) :
    (ts.foldl d.weaken cs).length = cs.length := by
  induction ts generalizing cs with
  | nil => rfl
  | cons t ts ih => exact (ih _).trans (length_joinClauses _ _ _)

/-- The clause of an end predicate after several joins from the summary that admits nothing. -/
theorem getElem?_foldl_weaken_strongest (ts : List EndState) {i : Nat}
    (hq : d.post[i]? = some q) :
    (ts.foldl d.weaken d.strongest)[i]? =
      some ((d.failures q ts).foldl Antichain.exclude Antichain.always) := by
  have hlt : i < d.post.length := (List.getElem?_eq_some_iff.1 hq).1
  have hstart : d.strongest[i]? = some .always := by
    unfold strongest
    rw [List.getElem?_replicate, if_pos hlt]
  rw [getElem?_foldl_weaken hq, hstart]
  rfl

/-! ## What a clause says -/

/-- A literal is false for the truth values that an end state gives to the entry predicates if its
predicate has the other sign there. -/
theorem getElem_signs_eq_iff (h : d.Judged t) (l : Fin d.pre.length × Bool) :
    (d.signs t)[l.1] = !l.2 ↔ d.pre[l.1].eval t.valuation = .ok (.bool !l.2) := by
  obtain ⟨b, hb⟩ := h d.pre[l.1] (List.mem_append_left _ (List.getElem_mem l.1.isLt))
  have hsign : (d.signs t)[l.1] = b := getElem_signs l.1.isLt hb
  rw [hsign, hb]
  constructor
  · rintro rfl
    rfl
  · intro heq
    exact Value.bool.inj (Except.ok.inj heq)

/-- To guard is to hit what holds on entry where the end predicate fails. -/
theorem guards_iff_hits (h : ∀ t ∈ ts, d.Judged t) {S : Finset (Fin d.pre.length × Bool)} :
    d.Guards ts q S ↔ Hits d.bound (d.failures q ts) S := by
  have hrefutes : (∀ v ∈ d.failures q ts, ∃ l ∈ S, v[l.1] = !l.2) ↔
      ∀ t ∈ ts, ¬ q.Holds t.valuation →
        ∃ l ∈ S, d.pre[l.1].eval t.valuation = .ok (.bool !l.2) := by
    unfold failures
    rw [List.forall_mem_map]
    simp only [List.mem_filter, decide_eq_true_eq, and_imp]
    refine forall₂_congr fun t ht => imp_congr_right fun _ => ?_
    exact exists_congr fun l => and_congr_right fun _ => getElem_signs_eq_iff (h t ht) l
  constructor
  · exact fun hS => ⟨hS.card_le, hS.consistent, hrefutes.2 hS.refutes⟩
  · exact fun hS => ⟨hS.card_le, hS.consistent, hrefutes.1 hS.refutes⟩

/-- A clause says that its end predicate always holds if it has held in all states joined. -/
theorem isAlways_iff : ((d.failures q ts).foldl Antichain.exclude
      (Antichain.always : Antichain d.pre.length d.bound)).isAlways = true ↔
    ∀ t ∈ ts, q.Holds t.valuation := by
  have hnone : d.failures q ts = [] ↔ ∀ t ∈ ts, q.Holds t.valuation := by
    unfold failures
    rw [List.map_eq_nil_iff, List.filter_eq_nil_iff]
    simp
  rw [← hnone]
  constructor
  · intro halways
    by_contra hne
    obtain ⟨v, hv⟩ := List.exists_mem_of_ne_nil _ hne
    -- The conjunction without any predicate does not hit a valuation.
    have hgen : ((d.failures q ts).foldl Antichain.exclude (Antichain.always :
        Antichain d.pre.length d.bound)).Generates (Hits d.bound (d.failures q ts)) :=
      Antichain.generates_foldl_exclude _
    unfold Antichain.isAlways at halways
    rw [decide_eq_true_eq] at halways
    obtain ⟨l, hl, -⟩ := (hgen.sound (Vector.replicate _ none)
      (halways ▸ List.mem_singleton_self _)).refutes v hv
    simp at hl
  · intro hnil
    rw [hnil]
    exact decide_eq_true rfl

/-- The clause that excludes what holds on entry where an end predicate fails. -/
theorem isClause_foldl_exclude (h : ∀ t ∈ ts, d.Judged t) :
    d.IsClause ts q ((d.failures q ts).foldl Antichain.exclude .always) where
  isAlways_iff := isAlways_iff
  nodup := (Antichain.nodup_conjuncts _).map Conjunct.toFinset_injective
  mem_iff S := by
    have hguards : d.Guards ts q = Hits d.bound (d.failures q ts) :=
      funext fun S => propext (guards_iff_hits h)
    rw [hguards]
    exact (Antichain.generates_foldl_exclude _).mem_map_iff

/-- The clauses of an end predicate after the same states, in any order and multiplicity, have the
same conjunctions. -/
theorem IsClause.perm {ts' : List EndState} {c c' : Antichain d.pre.length d.bound}
    (hsame : ∀ t, t ∈ ts' ↔ t ∈ ts) (hc : d.IsClause ts q c) (hc' : d.IsClause ts' q c') :
    c.conjuncts.Perm c'.conjuncts := by
  have hguards : d.Guards ts' q = d.Guards ts q := by
    funext S
    refine propext ⟨fun hS => ?_, fun hS => ?_⟩
    · exact ⟨hS.card_le, hS.consistent, fun t ht => hS.refutes t ((hsame t).2 ht)⟩
    · exact ⟨hS.card_le, hS.consistent, fun t ht => hS.refutes t ((hsame t).1 ht)⟩
  refine (List.map_perm_map_iff Conjunct.toFinset_injective).1 ?_
  refine (List.perm_ext_iff_of_nodup hc.nodup hc'.nodup).2 fun S => ?_
  rw [hc.mem_iff, hc'.mem_iff, hguards]

/-- After joins of end states from the summary that admits nothing, the clause of an end predicate
says that it always holds if it has held in all of the states, and the conjunctions of its antecedent
are, without repetition, the minimal sets of signed entry predicates that guard it against the
states. The order and the multiplicity of the states do not matter. -/
theorem join_guards (d : Predicates) {ts : List EndState} (hne : ts ≠ [])
    {s : PredicateSummary d} (h : ts.foldlM d.join none = .ok s) :
    ∃ cs, s = some cs ∧ List.Forall₂ (d.IsClause ts) d.post cs ∧
      ∀ ts' : List EndState, (∀ t, t ∈ ts' ↔ t ∈ ts) →
        ∃ cs', ts'.foldlM d.join none = .ok (some cs') ∧
          List.Forall₂ (fun c c' => c.conjuncts.Perm c'.conjuncts) cs cs' := by
  have hclauses : ∀ us : List EndState, (∀ t ∈ us, d.Judged t) →
      List.Forall₂ (d.IsClause us) d.post (us.foldl d.weaken d.strongest) := by
    intro us hus
    have hlength : (us.foldl d.weaken d.strongest).length = d.post.length :=
      (length_foldl_weaken us d.strongest).trans List.length_replicate
    refine List.forall₂_iff_get.2 ⟨hlength.symm, fun i hi hi' => ?_⟩
    have hget := getElem?_foldl_weaken_strongest us (List.getElem?_eq_getElem hi)
    rw [List.getElem?_eq_getElem hi'] at hget
    change d.IsClause us d.post[i] (us.foldl d.weaken d.strongest)[i]
    rw [Option.some.inj hget]
    exact isClause_foldl_exclude hus
  obtain ⟨hjudged, rfl⟩ := (foldlM_join_iff hne).1 h
  refine ⟨_, rfl, hclauses ts hjudged, fun ts' hsame => ?_⟩
  have hjudged' : ∀ t ∈ ts', d.Judged t := fun t ht => hjudged t ((hsame t).1 ht)
  have hne' : ts' ≠ [] := by
    obtain ⟨t, ht⟩ := List.exists_mem_of_ne_nil ts hne
    exact List.ne_nil_of_mem ((hsame t).2 ht)
  refine ⟨_, (foldlM_join_iff hne').2 ⟨hjudged', rfl⟩, ?_⟩
  -- Both lists of clauses are pointwise clauses of the same end predicates.
  have hleft := List.forall₂_iff_get.1 (hclauses ts hjudged)
  have hright := List.forall₂_iff_get.1 (hclauses ts' hjudged')
  refine List.forall₂_iff_get.2 ⟨hleft.1.symm.trans hright.1, fun i hi hi' => ?_⟩
  have hpost : i < d.post.length := hleft.1 ▸ hi
  exact (hleft.2 i hpost hi).perm hsame (hright.2 i hpost hi')

/-- Two entry predicates, `x > 0` and `y > 0`, and one end predicate, `r > 0`. -/
def positive : Predicates where
  pre := [.binary .gt (.symbol ⟨"x"⟩) (.int 0), .binary .gt (.symbol ⟨"y"⟩) (.int 0)]
  post := [.binary .gt (.symbol ⟨"r"⟩) (.int 0)]
  bound := 3
  lexicon := .initial

/-- An end state in which `r` is not positive. -/
def failing (x y : Int) : EndState :=
  ⟨[(⟨"x"⟩, .int x), (⟨"y"⟩, .int y), (⟨"r"⟩, .int 0)]⟩

/-- The predicate `r > 0` fails where only `y > 0` held on entry and where only `x > 0` did, and its
clause does not say that it always holds. -/
theorem join_guards_positive :
    ∃ c, [failing 0 1, failing 1 0].foldlM positive.join none = .ok (some [c]) ∧
      positive.IsClause [failing 0 1, failing 1 0] (.binary .gt (.symbol ⟨"r"⟩) (.int 0)) c ∧
      c.isAlways = false := by
  obtain ⟨s, hjoin⟩ : ∃ s, [failing 0 1, failing 1 0].foldlM positive.join none = .ok s := ⟨_, rfl⟩
  obtain ⟨cs, rfl, hclauses, -⟩ := join_guards positive (List.cons_ne_nil _ _) hjoin
  cases hclauses with
  | cons hclause hrest =>
    cases hrest
    refine ⟨_, hjoin, hclause, ?_⟩
    rw [Bool.eq_false_iff]
    intro halways
    have hholds := hclause.isAlways_iff.1 halways (failing 0 1) List.mem_cons_self
    exact absurd hholds (by decide)

end Obligations.Summary.Predicates
