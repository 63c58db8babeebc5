import Obligations.Proofs.Inference.Rounds
import Obligations.Proofs.Summary.Weakening

/-!
# Inference makes finitely many queries

Every query but the last one of a visit weakens the summary of the body (`Rounds.asked_eq`), every
weakening lowers the rank of the summary (`History.rank_le`), and a visit brings back at most all
bodies, and only if it weakens a summary (`Worklist.asked_le`). So the number of queries is bounded
by the number of bodies and the ranks of the first summaries, whatever the oracle answers, and these
ranks are known for both domains (`ConditionSystem.infer_counted_ofProgram`).
-/

namespace Obligations

variable {S σ : Type}

namespace Event

/-- Whether the event is a query. -/
def isAsked : Event S → Bool
  | asked .. => true
  | _ => false

/-- Whether the event is the end of a visit. -/
def isLeft : Event S → Bool
  | left .. => true
  | _ => false

/-- Whether the event changes a summary. -/
def isWeakened : Event S → Bool
  | weakened .. => true
  | _ => false

/-- Whether the event changes the summary of a body. -/
def weakens (i : Nat) : Event S → Bool
  | weakened j _ => decide (j = i)
  | _ => false

end Event

namespace ConditionSystem

open Event

variable {c : ConditionSystem} {d : SummaryDomain S} {ask : Oracle σ} {r r' : Run S σ} {n : Node}
  {i : Nat} {es : List (Event S)} {heights pending : List Nat}

/-! ## What the events of a history add up to -/

/-- All queries are counted. -/
theorem History.queries_eq (h : c.History d ask r es r') :
    r'.queries = r.queries + es.countP isAsked := by
  induction h with
  | nil => rfl
  | cons hstep _ ih =>
    rw [ih]
    cases hstep with
    | asked =>
      rw [List.countP_cons_of_pos rfl]
      dsimp only
      omega
    | weakened => rfl
    | left => rfl

/-- Each change of a summary lowers its rank. -/
theorem History.rank_le (h : c.History d ask r es r') {s : S} (hs : r.summaries[i]? = some s) :
    ∃ s', r'.summaries[i]? = some s' ∧ es.countP (weakens i) + d.rank s' ≤ d.rank s := by
  induction h generalizing s with
  | nil => exact ⟨s, hs, by simp⟩
  | cons hstep _ ih =>
    cases hstep with
    | asked => exact ih hs
    | left => exact ih hs
    | @weakened r j t t' u ht hjoin hne =>
      -- Only a change of the summary at hand is counted, and only that lowers its rank.
      by_cases hji : j = i
      · subst hji
        obtain rfl : t = s := Option.some.inj (ht.symm.trans hs)
        have hlt : d.rank t' < d.rank t := d.rank_join hjoin hne
        obtain ⟨hj, -⟩ := List.getElem?_eq_some_iff.1 ht
        obtain ⟨s', hs', hle⟩ := ih (List.getElem?_set_self hj)
        refine ⟨s', hs', ?_⟩
        rw [List.countP_cons_of_pos (by simp [weakens])]
        omega
      · obtain ⟨s', hs', hle⟩ := ih ((List.getElem?_set_ne hji).trans hs)
        refine ⟨s', hs', ?_⟩
        rw [List.countP_cons_of_neg (by simpa [weakens] using hji)]
        exact hle

/-- All changes together lower the sum of the ranks. -/
theorem History.sum_rank_le (h : c.History d ask r es r') :
    es.countP isWeakened + sumOf d.rank r'.summaries ≤ sumOf d.rank r.summaries := by
  induction h with
  | nil => simp
  | cons hstep _ ih =>
    cases hstep with
    | asked => exact ih
    | left => exact ih
    | weakened hs hjoin hne =>
      have hlt := sumOf_set_lt hs (d.rank_join hjoin hne)
      rw [List.countP_cons_of_pos rfl]
      dsimp only at ih
      omega

/-! ## Rounds -/

/-- A visit has no visit in it. -/
theorem Rounds.left_eq {o : Except InferenceError (Option Diagnostic)}
    (h : c.Rounds d ask n i r es r' o) : es.countP isLeft = 0 := by
  induction h with
  | weakened _ _ _ _ _ _ ih => exact ih
  | _ => rfl

/-- In a visit that does not stop inference each query but the last one changes the summary. -/
theorem Rounds.asked_eq {diagnostic : Option Diagnostic}
    (h : c.Rounds d ask n i r es r' (.ok diagnostic)) :
    es.countP isAsked = es.countP isWeakened + 1 := by
  generalize ho : Except.ok diagnostic = o at h
  induction h with
  | unposed => cases ho
  | failed => cases ho
  | finished => rfl
  | unjoined => cases ho
  | admitted => rfl
  | weakened _ _ _ _ _ _ ih =>
    have ih := ih ho
    simp only [List.countP_cons, isAsked, isWeakened, if_true, Bool.false_eq_true, if_false]
    omega

/-- In any visit each query but perhaps the last one changes the summary. -/
theorem Rounds.asked_le {o : Except InferenceError (Option Diagnostic)}
    (h : c.Rounds d ask n i r es r' o) : es.countP isAsked ≤ es.countP isWeakened + 1 := by
  induction h with
  | weakened _ _ _ _ _ _ ih =>
    simp only [List.countP_cons, isAsked, isWeakened, if_true, Bool.false_eq_true, if_false]
    omega
  | unposed => exact Nat.zero_le _
  | _ => exact le_refl 1

/-- A visit that changes the summary has an event that does. -/
theorem one_le_weakened (h : ¬ Unchanged i es) : 1 ≤ es.countP isWeakened := by
  unfold Unchanged at h
  obtain ⟨s, hs⟩ := not_forall.1 h
  exact List.countP_pos_iff.2 ⟨_, not_not.1 hs, rfl⟩

/-! ## Visits -/

section

variable {es' : List (Event S)} {diagnostic : Option Diagnostic}

theorem countP_append_left {p : Event S → Bool} (hp : p (.left i diagnostic) = false) :
    (es ++ .left i diagnostic :: es').countP p = es.countP p + es'.countP p := by
  rw [List.countP_append, List.countP_cons_of_neg (by simp [hp])]

/-- A visit that does not stop inference is one visit, with one query more than changes. -/
theorem Rounds.asked_eq_append (h : c.Rounds d ask n i r es r' (.ok diagnostic))
    (hes' : es'.countP isAsked = es'.countP isLeft + es'.countP isWeakened) :
    (es ++ .left i diagnostic :: es').countP isAsked =
      (es ++ .left i diagnostic :: es').countP isLeft +
        (es ++ .left i diagnostic :: es').countP isWeakened := by
  have hleft : (es ++ .left i diagnostic :: es').countP isLeft = 1 + es'.countP isLeft := by
    rw [List.countP_append, h.left_eq, List.countP_cons_of_pos rfl]
    omega
  have hasked := h.asked_eq
  rw [hleft, countP_append_left (p := isAsked) rfl, countP_append_left (p := isWeakened) rfl]
  omega

end

/-- If inference is not stopped, the queries are as many as the visits and the changes of summaries
together. -/
theorem Worklist.asked_eq (h : c.Worklist d ask heights pending r es r' (.ok ())) :
    es.countP isAsked = es.countP isLeft + es.countP isWeakened := by
  generalize ho : Except.ok () = o at h
  induction h with
  | done => rfl
  | stopped => cases ho
  | missing _ _ ih => exact ih ho
  | unchanged _ hrounds _ _ ih => exact hrounds.asked_eq_append (ih ho)
  | changed _ hrounds _ _ ih => exact hrounds.asked_eq_append (ih ho)

theorem length_enqueue_le (heights : List Nat) (i : Nat) (js : List Nat) :
    (enqueue heights i js).length ≤ js.length + 1 := by
  induction js with
  | nil => exact le_refl 1
  | cons j js ih =>
    unfold enqueue
    split_ifs
    · exact Nat.le_succ _
    · exact le_refl _
    · exact Nat.succ_le_succ ih

/-- Several bodies make a worklist longer by at most their number. -/
theorem length_enqueueAll_le (heights is js : List Nat) :
    (enqueueAll heights is js).length ≤ is.length + js.length := by
  unfold enqueueAll
  induction is generalizing js with
  | nil => simp
  | cons i is ih =>
    have hone := length_enqueue_le heights i js
    have hall := ih (enqueue heights i js)
    rw [List.foldl_cons, List.length_cons]
    omega

/-- A visit brings back at most all bodies. -/
theorem length_next_le (c : ConditionSystem) (heights : List Nat) (i : Nat) (rest : List Nat) :
    (enqueueAll heights ((c.calls.callers i).filter (· ≠ i)) rest).length ≤
      c.calls.size + rest.length := by
  have hcallers : ((c.calls.callers i).filter (· ≠ i)).length ≤ c.calls.size :=
    calc ((c.calls.callers i).filter (· ≠ i)).length
        ≤ (c.calls.callers i).length := List.length_filter_le _ _
      _ ≤ (List.range c.calls.size).length := List.length_filter_le _ _
      _ = c.calls.size := List.length_range
  have hnext := length_enqueueAll_le heights ((c.calls.callers i).filter (· ≠ i)) rest
  omega

/-- The queries are at most as many as the bodies to be visited at first, the changes of summaries,
and the bodies that each of these can bring back. -/
theorem Worklist.asked_le {o : Except InferenceError Unit}
    (h : c.Worklist d ask heights pending r es r' o) :
    es.countP isAsked ≤ pending.length + (c.calls.size + 1) * es.countP isWeakened := by
  induction h with
  | done => exact Nat.zero_le _
  | missing _ _ ih =>
    rw [List.length_cons]
    omega
  | @stopped i rest n r r' es e _ hrounds =>
    have hasked := hrounds.asked_le
    have hgrow : es.countP isWeakened ≤ (c.calls.size + 1) * es.countP isWeakened :=
      Nat.le_mul_of_pos_left _ (Nat.succ_pos _)
    rw [List.length_cons]
    omega
  | @unchanged i rest n r r₁ r' es es' diagnostic o _ hrounds _ _ ih =>
    have hasked := hrounds.asked_eq
    have hgrow : es.countP isWeakened ≤ (c.calls.size + 1) * es.countP isWeakened :=
      Nat.le_mul_of_pos_left _ (Nat.succ_pos _)
    calc (es ++ .left i diagnostic :: es').countP isAsked
        = es.countP isAsked + es'.countP isAsked := countP_append_left rfl
      _ ≤ (rest.length + 1) + ((c.calls.size + 1) * es.countP isWeakened +
            (c.calls.size + 1) * es'.countP isWeakened) := by omega
      _ = (i :: rest).length +
            (c.calls.size + 1) * (es ++ .left i diagnostic :: es').countP isWeakened := by
          rw [List.length_cons, countP_append_left rfl, Nat.mul_add]
  | @changed i rest n r r₁ r' es es' diagnostic o _ hrounds hes _ ih =>
    have hasked := hrounds.asked_eq
    have hnext := length_next_le c heights i rest
    -- The visit weakens the summary, which pays for the bodies that it brings back.
    have hpaid : c.calls.size ≤ c.calls.size * es.countP isWeakened :=
      Nat.le_mul_of_pos_right _ (one_le_weakened hes)
    calc (es ++ .left i diagnostic :: es').countP isAsked
        = es.countP isAsked + es'.countP isAsked := countP_append_left rfl
      _ ≤ (es.countP isWeakened + 1) + (c.calls.size + rest.length +
            (c.calls.size + 1) * es'.countP isWeakened) := by omega
      _ ≤ (rest.length + 1) + ((c.calls.size + 1) * es.countP isWeakened +
            (c.calls.size + 1) * es'.countP isWeakened) := by
          rw [Nat.add_mul _ _ (es.countP isWeakened)]
          omega
      _ = (i :: rest).length +
            (c.calls.size + 1) * (es ++ .left i diagnostic :: es').countP isWeakened := by
          rw [List.length_cons, countP_append_left rfl, Nat.mul_add]

/-! ## Inference -/

/-- If the measure of each item of a list is bounded, so is the sum. -/
theorem sumOf_le {f : S → Nat} {as : List S} {limit : Nat → Nat}
    (h : ∀ i a, as[i]? = some a → f a ≤ limit i) :
    sumOf f as ≤ sumOf limit (List.range as.length) := by
  induction as generalizing limit with
  | nil => exact le_refl 0
  | cons a as ih =>
    have hmap : ∀ is : List Nat,
        sumOf limit (is.map Nat.succ) = sumOf (fun i => limit (i + 1)) is := by
      intro is
      induction is with
      | nil => rfl
      | cons i is ih => rw [List.map_cons, sumOf, sumOf, ih]
    have hfirst : f a ≤ limit 0 := h 0 a rfl
    have hrest := ih fun i b hb => h (i + 1) b hb
    rw [List.length_cons, List.range_succ_eq_map, sumOf, sumOf, hmap]
    omega

variable [DecidableEq S]

/-- What is counted while summaries are inferred, if `limit` says how often the summary of each body
can change. -/
structure Counted (c : ConditionSystem) (d : SummaryDomain S) (ask : Oracle σ) (r : Run S σ)
    (limit : Nat → Nat) (es : List (Event S)) : Prop where
  /-- The events are those of the visits to all bodies, which come to an end. -/
  worklist : ∃ o, c.Worklist d ask c.calls.heights
    (enqueueAll c.calls.heights (List.range c.nodes.length) []) r es (c.infer d ask r).1 o ∧
      (c.infer d ask r).2 = (o >>= fun _ => c.report d (c.infer d ask r).1)
  /-- All queries among the events are counted. -/
  queries : (c.infer d ask r).1.queries = r.queries + es.countP isAsked
  /-- Their number is bounded, whatever the answers are. -/
  finite : es.countP isAsked ≤
    c.nodes.length + (c.nodes.length + 1) * sumOf limit (List.range c.nodes.length)
  /-- If there is a report, it is the number of visits and of changes of summaries. -/
  asked : ∀ reports, (c.infer d ask r).2 = .ok reports →
    es.countP isAsked = es.countP isLeft + es.countP isWeakened
  /-- The summary of a body changes at most as often as it can. -/
  changes : ∀ i < c.nodes.length, es.countP (weakens i) ≤ limit i

/-- What is counted where the ranks of the summaries are bounded. -/
theorem infer_counted {limit : Nat → Nat} (hsize : c.calls.size = c.nodes.length)
    (hlength : r.summaries.length = c.nodes.length)
    (hlimit : ∀ i s, r.summaries[i]? = some s → d.rank s ≤ limit i) :
    ∃ es, c.Counted d ask r limit es := by
  obtain ⟨es, hes⟩ := settle_worklist c d ask c.calls.heights
    (enqueueAll c.calls.heights (List.range c.nodes.length) []) r
  refine ⟨es, ⟨_, hes, rfl⟩, hes.history.queries_eq, ?_, fun reports hreports => ?_,
    fun i hi => ?_⟩
  · have hasked := hes.asked_le
    have hpending := length_enqueueAll_le c.calls.heights (List.range c.nodes.length) []
    have hchanges := hes.history.sum_rank_le
    have hsum := sumOf_le hlimit
    rw [List.length_range, List.length_nil, Nat.add_zero] at hpending
    rw [hlength] at hsum
    rw [hsize] at hasked
    -- The ranks of the summaries at the start bound how often summaries change.
    have hweakened : es.countP isWeakened ≤ sumOf limit (List.range c.nodes.length) := by omega
    calc es.countP isAsked
        ≤ _ + (c.nodes.length + 1) * es.countP isWeakened := hasked
      _ ≤ c.nodes.length + (c.nodes.length + 1) * sumOf limit (List.range c.nodes.length) :=
          Nat.add_le_add hpending (Nat.mul_le_mul_left _ hweakened)
  · obtain ⟨⟨⟩, hok, -⟩ := bind_eq_ok.1 hreports
    rw [hok] at hes
    exact hes.asked_eq
  · have hs := List.getElem?_eq_getElem (hlength ▸ hi : i < r.summaries.length)
    obtain ⟨s', -, hle⟩ := hes.history.rank_le hs
    have hrank := hlimit i _ hs
    omega

/-- The ranks of the summaries at the start of an inference are bounded by those of the least
summaries. -/
theorem Begun.rank_le {limit : Nat → Nat} (h : c.Begun d r)
    (hlimit : ∀ i b s, c.program.implementations[i]? = some b → d.bottom c.program b = .ok s →
      d.rank s ≤ limit i) :
    ∀ i s, r.summaries[i]? = some s → d.rank s ≤ limit i := by
  induction h with
  | start h =>
    obtain ⟨summaries, hsummaries, h⟩ := bind_eq_ok.1 h
    cases h
    intro i s hs
    obtain ⟨b, hb, hbottom⟩ := exists_getElem?_of_forall₂ (mapM_eq_ok_iff.1 hsummaries).flip hs
    exact hlimit i b s hb hbottom
  | @again r ask oracle _ ih =>
    intro i s hs
    obtain ⟨es, hes⟩ := settle_worklist c d ask c.calls.heights
      (enqueueAll c.calls.heights (List.range c.nodes.length) []) r
    obtain ⟨s₀, hs₀⟩ : ∃ s₀, r.summaries[i]? = some s₀ := by
      obtain ⟨hi, -⟩ := List.getElem?_eq_some_iff.1 hs
      exact ⟨_, List.getElem?_eq_getElem (hes.history.length_summaries ▸ hi)⟩
    obtain ⟨s', hs', hle⟩ := hes.history.rank_le hs₀
    obtain rfl : s' = s := Option.some.inj (hs'.symm.trans hs)
    have hrank := ih i s₀ hs₀
    omega

/-! ## Systems of programs -/

omit [DecidableEq S] in
/-- A system has a condition and a place in the call graph for every body. -/
theorem length_ofProgram {p : Program} {o : GenerationOptions} {l l' : Lexicon}
    (hc : (ofProgram p o).run l = (.ok c, l')) :
    c.nodes.length = p.implementations.length ∧ c.calls.size = p.implementations.length := by
  obtain ⟨hs, l₁, hhs, hc⟩ := NamingExcept.bind_eq_ok.1 hc
  rw [Minting.run_record] at hhs
  obtain ⟨hfor, -, -⟩ := placeholders_for (Prod.ext_iff.1 hhs).1
  obtain ⟨nodes, l₂, hnodes, hc⟩ := NamingExcept.bind_eq_ok.1 hc
  cases hc
  obtain ⟨-, himplementations⟩ := Program.attachAll_eq hs p
  have hlength := (NamingExcept.forall₂_of_mapM_eq_ok hnodes).length_eq
  rw [himplementations, List.length_zip, hfor.length_eq, Nat.min_self] at hlength
  constructor
  · rw [List.length_map]
    exact hlength.symm
  · unfold CallGraph.size CallGraph.ofProgram
    rw [List.length_map, himplementations]

/-- There is a summary for every body of a program. -/
theorem Begun.length_eq (h : c.Begun d r) :
    r.summaries.length = c.program.implementations.length := by
  induction h with
  | start h =>
    obtain ⟨summaries, hsummaries, h⟩ := bind_eq_ok.1 h
    cases h
    exact (mapM_eq_ok_iff.1 hsummaries).length_eq.symm
  | again ask oracle _ ih => exact (length_settle _ _).trans ih

/-- What is counted while summaries of a program are inferred, where the ranks of the least
summaries are bounded. -/
theorem counted_of_bottom {p : Program} {o : GenerationOptions} {l l' : Lexicon}
    {limit : Nat → Nat} (hc : (ofProgram p o).run l = (.ok c, l')) (hr : c.Begun d r)
    (hlimit : ∀ i b s, p.implementations[i]? = some b → d.bottom c.program b = .ok s →
      d.rank s ≤ limit i) : ∃ es, c.Counted d ask r limit es := by
  obtain ⟨hnodes, hsize⟩ := length_ofProgram hc
  have himplementations := implementations_ofProgram hc
  have hlength := hr.length_eq
  rw [himplementations, ← hnodes] at hlength
  rw [← himplementations] at hlimit
  exact infer_counted (hsize.trans hnodes.symm) hlength (hr.rank_le hlimit)

end ConditionSystem

/-! ## The ranks of the least summaries -/

namespace Summary

/-- Placeholders do not change which variables a summary is about. -/
theorem monitored_attachAll {hs : List Placeholder} {p : Program} {b : Implementation}
    {q : Procedure} (hq : (hs.foldl Program.attach p).procedure? b.name = some q) :
    ∃ q', p.procedure? b.name = some q' ∧
      monitored (hs.foldl Program.attach p) q b = monitored p q' b := by
  rw [Program.procedure?_attachAll] at hq
  obtain ⟨q', hq', rfl⟩ := Option.map_eq_some_iff.1 hq
  have hglobal : (hs.foldl Program.attach p).global? = p.global? := by
    unfold Program.global?
    rw [(Program.attachAll_eq hs p).1]
  refine ⟨q', hq', ?_⟩
  unfold monitored
  rw [hglobal]

/-- The number of variables whose values the summary of a body keeps. -/
def monitoredCount (p : Program) (i : Nat) : Nat :=
  ((p.implementations[i]?.bind fun b =>
    (p.procedure? b.name).map fun q => (monitored p q b).length)).getD 0

/-- Each variable of the least summary can get one value more than are kept for it. -/
theorem constantRank_unobserved (bound : Nat) (xs : List Name) :
    constantRank bound (xs.map fun x => (x, .unobserved)) = (max bound 1 + 1) * xs.length := by
  induction xs with
  | nil => rfl
  | cons x xs ih =>
    unfold constantRank at ih ⊢
    rw [List.map_cons, sumOf, ih, Observed.rank, List.length_cons, Nat.mul_succ, Nat.add_comm]

theorem rank_bottom_constants {p : Program} {o : GenerationOptions} {l l' : Lexicon}
    {c : ConditionSystem} (hc : (ConditionSystem.ofProgram p o).run l = (.ok c, l')) {bound i : Nat}
    {b : Implementation} {s : ConstantSummary} (hb : p.implementations[i]? = some b)
    (hs : (constants bound).bottom c.program b = .ok s) :
    (constants bound).rank s ≤ (max bound 1 + 1) * monitoredCount p i := by
  obtain ⟨hs', l₁, -, hc⟩ := NamingExcept.bind_eq_ok.1 hc
  obtain ⟨nodes, l₂, -, hc⟩ := NamingExcept.bind_eq_ok.1 hc
  cases hc
  unfold constants at hs
  dsimp only at hs
  split at hs
  · cases hs
  · rename_i q hq
    cases hs
    -- The variables are those that the procedure of the program itself may change.
    obtain ⟨q', hq', hmonitored⟩ := monitored_attachAll hq
    have hcount : monitoredCount p i = (monitored p q' b).length := by
      unfold monitoredCount
      rw [hb, Option.bind_some, hq']
      rfl
    rw [hmonitored, hcount]
    exact (constantRank_unobserved bound _).le

/-- There are two truth values for each predicate. -/
theorem length_allSigns (n : Nat) : (Antichain.allSigns n).length = 2 ^ n := by
  have hlists : ∀ n, (Antichain.boolLists n).length = 2 ^ n := by
    intro n
    induction n with
    | zero => rfl
    | succ n ih =>
      rw [Antichain.boolLists, List.length_flatMap, Nat.pow_succ, ← ih]
      simp
  rw [Antichain.allSigns, List.length_map, hlists]

theorem rank_bottom_predicates {q : Predicates} {p : Program} {b : Implementation}
    {s : PredicateSummary q} (hs : q.domain.bottom p b = .ok s) :
    q.domain.rank s ≤ 1 + q.post.length * 2 ^ q.pre.length := by
  cases hs
  change 1 + q.post.length * (Antichain.allSigns q.pre.length).length ≤ _
  rw [length_allSigns]

end Summary

namespace ConditionSystem

open Summary

/-- For both domains, whatever the oracle answers, the inference of summaries for a program ends
after a bounded number of queries. If it ends well, the queries are as many as the visits to bodies
and the changes of summaries; and the summary of a body changes at most once for each value that can
be kept for a variable and once more for each variable, or at most once for each valuation of the
entry predicates and each end predicate, and once more. -/
theorem infer_counted_ofProgram {p : Program} {o : GenerationOptions} {l l' : Lexicon}
    {c : ConditionSystem} (hc : (ofProgram p o).run l = (.ok c, l')) :
    (∀ (bound : Nat) {σ : Type} (ask : Oracle σ) (r : Run ConstantSummary σ),
      c.Begun (constants bound) r →
        ∃ es, c.Counted (constants bound) ask r
          (fun i => (max bound 1 + 1) * monitoredCount p i) es) ∧
    ∀ (q : Predicates) {σ : Type} (ask : Oracle σ) (r : Run (PredicateSummary q) σ),
      c.Begun q.domain r →
        ∃ es, c.Counted q.domain ask r (fun _ => 1 + q.post.length * 2 ^ q.pre.length) es := by
  constructor
  · intro bound σ ask r hr
    exact counted_of_bottom hc hr fun i b s hb hs => rank_bottom_constants hc hb hs
  · intro q σ ask r hr
    exact counted_of_bottom hc hr fun i b s _ hs => rank_bottom_predicates hs

/-- An oracle that finds every condition valid. -/
def agreeable : Oracle Unit := fun _ _ _ => (.outcome .correct, ())

/-- The run before any visit, for one entry predicate and one end predicate. -/
def steadinessStart : Run (PredicateSummary steadiness) Unit :=
  ⟨[none, none], [.unprocessed, .unprocessed], 0, [], ()⟩

theorem infer_counted_forgetting :
    ∃ c l, (ofProgram (forgetting none) { encoding := .inline }).run .initial = (.ok c, l) ∧
      c.Begun (constants 5) forgettingStart ∧ c.Begun steadiness.domain steadinessStart ∧
      (∃ es, c.Counted (constants 5) scripted forgettingStart
        (fun i => (max 5 1 + 1) * monitoredCount (forgetting none) i) es) ∧
      ∃ es, c.Counted steadiness.domain agreeable steadinessStart (fun _ => 1 + 1 * 2 ^ 1) es := by
  obtain ⟨symbols, functions, symbols', functions', l, hc⟩ := ofProgram_forgetting (.inl rfl)
  have hstart : (forgettingSystem none
      [forgettingNode none symbols functions, zeroNode symbols' functions']).start (constants 5)
        (script, []) = .ok forgettingStart := rfl
  have hstart' : (forgettingSystem none
      [forgettingNode none symbols functions, zeroNode symbols' functions']).start steadiness.domain
        () = .ok steadinessStart := rfl
  obtain ⟨hconstants, hpredicates⟩ := infer_counted_ofProgram hc
  exact ⟨_, l, hc, .start hstart, .start hstart',
    hconstants 5 scripted forgettingStart (.start hstart),
    hpredicates steadiness agreeable steadinessStart (.start hstart')⟩

end ConditionSystem

end Obligations
