import Obligations.Proofs.Inference.Coherence
import Obligations.Proofs.Inference.Schedule
import Obligations.Proofs.Oracle.Exhaustion
import Obligations.Proofs.Summary.Order

/-!
# Which counterexamples have an end state

The exhaustive search refutes a condition with a model that has values for the symbols that the
condition declares, and no others (`Bounded.check_refutes`). A condition is simplified when it is
formed, so that a symbol of the end state need not occur in it: a body that asserts `false` has the
condition `false`. So an end state can be read off a model and joined to a summary by observed values
exactly if each of its terms is a literal or occurs in the condition, and those of integer variables
are integers (`Node.projectable_iff`).

Nothing else that inference relies on can fail with this oracle. So inference ends in a fault exactly
if it comes to a body whose end state is not of that kind and whose first query is refuted
(`ConditionSystem.infer_faults_iff`).
-/

namespace Obligations

open Summary

/-! ## Models that the search reports -/

/-- The model has values of their types for the symbols of the condition, and no others. -/
structure Model.Assigns (m : Model) (vc : VerificationCondition) : Prop where
  /-- It has values for the symbols of the condition and no others. -/
  isSome_iff : ∀ n, (m.find? n).isSome ↔ n ∈ vc.symbols.map (·.1)
  /-- The values have the types of the symbols. -/
  kind : ∀ n x, m.find? n = some x → ∃ ty, (n, ty) ∈ vc.symbols ∧ ty.kind? = some x.kind

namespace Bounded

variable {o : BoundedOptions} {vc : VerificationCondition} {s : Space} {query : String}

/-- The search as an oracle, which has no use for its state. -/
def oracle {σ : Type} (o : BoundedOptions) : Oracle σ := fun s query vc => (check o query vc, s)

theorem forall₂_symbols_of_space (h : space o query vc = .ok s) :
    List.Forall₂ (fun p q => q.1 = p.1 ∧ choices? o p.2 = some q.2) vc.symbols s.symbols := by
  obtain ⟨symbols, hsymbols, h⟩ := bind_eq_ok.1 h
  -- The functions are dealt with after the symbols, which they leave as they are.
  have hs : s.symbols = symbols := by
    dsimp only at h
    split at h
    · cases h
    · obtain ⟨apps, -, h⟩ := bind_eq_ok.1 h
      cases h
      rfl
  rw [hs]
  refine (mapM_eq_ok_iff.1 hsymbols).imp fun (n, ty) q hq => ?_
  dsimp only at hq ⊢
  cases hc : choices? o ty with
  | none =>
    rw [hc] at hq
    cases hq
  | some c =>
    rw [hc] at hq
    cases hq
    exact ⟨rfl, rfl⟩

/-- The model of any assignment has values of their types for the symbols of the condition. -/
theorem assigns_model (h : space o query vc = .ok s) (hpos : s.radices.prod ≠ 0) (k : Nat) :
    (s.model (digits s.radices k)).Assigns vc := by
  have hqs := forall₂_symbols_of_space h
  refine ⟨isSome_find?_model hqs hpos k, fun n x hx => ?_⟩
  obtain ⟨⟨n', ty⟩, hmem, hname, hdomain⟩ := exists_mem_of_forall₂
    (forall₂_modelEntries hqs hpos k).flip (NameMap.mem_of_find?_ofList hx)
  cases hname
  exact ⟨ty, hmem, kind_of_mem_domain hdomain⟩

theorem eq_model_of_tryAssignment {formula : Expr} {k : Nat} {m : Model}
    (h : tryAssignment s query formula k = .ok (.fails m)) : m = s.model (digits s.radices k) := by
  unfold tryAssignment at h
  dsimp only at h
  split at h
  · cases h
  · split at h
    · cases h
    · cases h
      rfl
    · cases h
    · cases h
    · cases h

/-- The search refutes a condition with an assignment that fails. -/
theorem exists_fails_of_search {count k : Nat} {undecided : Bool}
    (h : (search s query vc count k undecided).result = .ok .errors) :
    ∃ j m, tryAssignment s query vc.formula j = .ok (.fails m) ∧
      search s query vc count k undecided = .refutation vc m := by
  induction count generalizing k undecided with
  | zero => cases undecided <;> cases h
  | succ count ih =>
    unfold search at h ⊢
    split at h
    · cases h
    · exact ih h
    · exact ih h
    · rename_i m ht
      exact ⟨k, m, ht, rfl⟩

/-- A refutation comes with one model, which has values for the symbols of the condition. -/
theorem check_refutes (h : (check o query vc).result = .ok .errors) :
    ∃ m, check o query vc = .refutation vc m ∧ m.Assigns vc := by
  unfold check at h ⊢
  cases hs : space o query vc with
  | error e =>
    rw [hs] at h
    cases h
  | ok s =>
    rw [hs] at h
    dsimp only at h ⊢
    split_ifs at h ⊢ with hmany
    · cases h
    · -- No assignment is tried if some unknown has no values.
      have hpos : s.radices.prod ≠ 0 := fun hzero => hmany <| .inl <| by
        rw [Space.total, ← List.prod_eq_foldl, hzero, Nat.zero_min]
      obtain ⟨j, m, ht, hsearch⟩ := exists_fails_of_search h
      exact ⟨m, hsearch, eq_model_of_tryAssignment ht ▸ assigns_model hs hpos j⟩

end Bounded

/-! ## Reading an end state off a model -/

/-- A summary by observed values can be joined with an end state that has integers for its
variables. -/
theorem exists_joinConstants_iff {bound : Nat} {t : EndState} {s : ConstantSummary} :
    (∃ s', joinConstants bound t s = .ok s') ↔
      ∀ x ∈ s.map (·.1), ∃ i, t.current? x = some (.int i) := by
  constructor
  · rintro ⟨s', hs'⟩ x hx
    obtain ⟨q, hq, rfl⟩ := List.mem_map.1 hx
    obtain ⟨q', -, i, hi, -⟩ := exists_mem_of_forall₂ (forall₂_joinConstants hs') hq
    exact ⟨i, hi⟩
  · intro h
    induction s with
    | nil => exact ⟨[], rfl⟩
    | cons q rest ih =>
      obtain ⟨x, known⟩ := q
      obtain ⟨⟨i, hi⟩, hrest⟩ := List.forall_mem_cons.1 h
      obtain ⟨rest', hrest⟩ := ih hrest
      refine ⟨(x, known.observe bound i) :: rest', ?_⟩
      have hvalue : endInteger t x = .ok i := by
        unfold endInteger
        rw [hi]
      rw [joinConstants, hvalue, hrest]
      rfl

/-- A failure to join an end state to a summary is a fault. -/
theorem failsOnly_joinConstants (bound : Nat) (t : EndState) (s : ConstantSummary) :
    FailsOnly (fun e => ∃ f, e = InferenceError.fault f) (joinConstants bound t s) := by
  induction s with
  | nil => exact .ok _ _
  | cons q rest ih =>
    have hvalue : FailsOnly (fun e => ∃ f, e = InferenceError.fault f) (endInteger t q.1) := by
      unfold endInteger
      split
      · exact .error ⟨_, rfl⟩
      · exact .ok _ _
      · exact .error ⟨_, rfl⟩
    exact hvalue.bind fun v => ih.bind fun rest' => .ok _ _

namespace Node

variable {n : Node} {m : Model} {e : Expr}

/-- A term has a value in every model that has values for the symbols of the condition: it is a
literal or a symbol that occurs in the condition. -/
def Reads (n : Node) (e : Expr) : Prop :=
  (∃ b, e = .bool b) ∨ (∃ i, e = .int i) ∨ ∃ x ∈ n.condition.formula.names, e = .symbol x

/-- A term has an integer as its value in every such model. -/
def ReadsInteger (n : Node) (e : Expr) : Prop :=
  (∃ i, e = .int i) ∨ ∃ x, (x, .int) ∈ n.condition.symbols ∧ e = .symbol x

/-- Each term of the end state can be read off a model, and those of some variables are integers. -/
structure Projectable (n : Node) (integers : List Name) : Prop where
  /-- The terms. -/
  reads : ∀ e ∈ n.endState, n.Reads e
  /-- The terms of the variables. -/
  integers : ∀ x ∈ integers, ∃ e, (NameMap.ofList (n.keys.zip n.endState)).current? x = some e ∧
    n.ReadsInteger e

theorem readTerm_symbol {x : Name} {v : Value} :
    n.readTerm m (.symbol x) = .ok v ↔ m.find? x = some v := by
  rw [readTerm]
  cases m.find? x <;> simp

section

variable (hclosed : n.condition.Closed) (hm : m.Assigns n.condition)

include hclosed hm

theorem exists_readTerm_iff : (∃ v, n.readTerm m e = .ok v) ↔ n.Reads e := by
  constructor
  · rintro ⟨v, hv⟩
    cases e with
    | literal a =>
      cases a with
      | bool b => exact .inl ⟨b, rfl⟩
      | int i => exact .inr (.inl ⟨i, rfl⟩)
      | bv => cases hv
    | symbol x =>
      have hx : x ∈ n.condition.symbols.map (·.1) :=
        (hm.isSome_iff x).1 (Option.isSome_of_eq_some (readTerm_symbol.1 hv))
      exact .inr (.inr ⟨x, (hclosed.names x).1 hx, rfl⟩)
    | old | unary | binary | apply => cases hv
  · rintro (⟨b, rfl⟩ | ⟨i, rfl⟩ | ⟨x, hx, rfl⟩)
    · exact ⟨.bool b, rfl⟩
    · exact ⟨.int i, rfl⟩
    · obtain ⟨v, hv⟩ := Option.isSome_iff_exists.1 ((hm.isSome_iff x).2 ((hclosed.names x).2 hx))
      exact ⟨v, readTerm_symbol.2 hv⟩

theorem exists_readTerm_int_iff : (∃ i, n.readTerm m e = .ok (.int i)) ↔ n.ReadsInteger e := by
  constructor
  · rintro ⟨i, hi⟩
    cases e with
    | literal a =>
      cases a with
      | int j => exact .inl ⟨j, rfl⟩
      | bool | bv => cases hi
    | symbol x =>
      obtain ⟨ty, hty, hkind⟩ := hm.kind x _ (readTerm_symbol.1 hi)
      cases ty with
      | int => exact .inr ⟨x, hty, rfl⟩
      | bool | bv | map | user => cases hkind
    | old | unary | binary | apply => cases hi
  · rintro (⟨i, rfl⟩ | ⟨x, hx, rfl⟩)
    · exact ⟨i, rfl⟩
    · obtain ⟨v, hv⟩ := Option.isSome_iff_exists.1
        ((hm.isSome_iff x).2 (List.mem_map_of_mem hx))
      obtain ⟨ty, hty, hkind⟩ := hm.kind x v hv
      cases hclosed.types x ty .int hty hx
      cases v with
      | int i => exact ⟨i, readTerm_symbol.2 hv⟩
      | bool b => cases hkind

end

/-- The entries of an end state are the names with the values of the terms. -/
theorem mapM_entries_eq_ok_iff {ks : List Name} {es : List Expr} {entries : List (Name × Value)}
    (hlength : es.length = ks.length) :
    ((ks.zip es).mapM fun (key, e) => do
      let v ← n.readTerm m e
      return (key, v)) = .ok entries ↔
      ∃ vs, List.Forall₂ (fun e v => n.readTerm m e = .ok v) es vs ∧ entries = ks.zip vs := by
  induction es generalizing ks entries with
  | nil =>
    rw [List.zip_nil_right, mapM_eq_ok_iff, List.forall₂_nil_left_iff]
    simp [List.forall₂_nil_left_iff]
  | cons e es ih =>
    -- There are as many names as terms, so that none is left over.
    obtain ⟨k, ks, rfl⟩ := List.exists_cons_of_length_eq_add_one hlength.symm
    rw [List.zip_cons_cons, List.mapM_cons, bind_eq_ok]
    constructor
    · rintro ⟨q, hq, hrest⟩
      obtain ⟨v, hv, heq⟩ := bind_eq_ok.1 hq
      obtain ⟨rest, hrest, heq'⟩ := bind_eq_ok.1 hrest
      obtain ⟨vs, hvs, rfl⟩ := (ih (Nat.succ.inj hlength)).1 hrest
      cases heq
      cases heq'
      exact ⟨v :: vs, .cons hv hvs, rfl⟩
    · rintro ⟨vs, hvs, rfl⟩
      cases hvs with
      | cons hv hvs =>
        exact ⟨_, bind_eq_ok.2 ⟨_, hv, rfl⟩,
          bind_eq_ok.2 ⟨_, (ih (Nat.succ.inj hlength)).2 ⟨_, hvs, rfl⟩, rfl⟩⟩

/-- The end state in a model has the values of its terms. -/
theorem project_eq_ok_iff (hlength : n.endState.length = n.keys.length) {t : EndState} :
    n.project m = .ok t ↔ ∃ vs, List.Forall₂ (fun e v => n.readTerm m e = .ok v) n.endState vs ∧
      t = .ofList (n.keys.zip vs) := by
  constructor
  · intro h
    obtain ⟨entries, hentries, heq⟩ := bind_eq_ok.1 h
    obtain ⟨vs, hvs, rfl⟩ := (mapM_entries_eq_ok_iff hlength).1 hentries
    cases heq
    exact ⟨vs, hvs, rfl⟩
  · rintro ⟨vs, hvs, rfl⟩
    exact bind_eq_ok.2 ⟨_, (mapM_entries_eq_ok_iff hlength).2 ⟨vs, hvs, rfl⟩, rfl⟩

/-- Of two maps that assign related things to the same names, one gives something for a current name
that is related to what the other one gives. -/
theorem exists_current?_of_forall₂ {α β : Type} {R : α → β → Prop} {as : List α} {bs : List β}
    (h : List.Forall₂ R as bs) {ks : List Name} {x : Name} {a : α}
    (ha : (NameMap.ofList (ks.zip as)).current? x = some a) :
    ∃ b, (NameMap.ofList (ks.zip bs)).current? x = some b ∧ R a b := by
  unfold NameMap.current? at ha ⊢
  have hself := NameMap.rel_find?_ofList_zip h ks x
  have hentry := NameMap.rel_find?_ofList_zip h ks x.onEntry
  rcases Option.or_eq_some_iff.1 ha with ha | ⟨hnone, ha⟩
  · rw [ha] at hself
    generalize (NameMap.ofList (ks.zip bs)).find? x = o at hself ⊢
    obtain ⟨hab⟩ := hself
    exact ⟨_, rfl, hab⟩
  · rw [hnone] at hself
    rw [ha] at hentry
    generalize (NameMap.ofList (ks.zip bs)).find? x = o at hself ⊢
    generalize (NameMap.ofList (ks.zip bs)).find? x.onEntry = o' at hentry ⊢
    obtain ⟨⟩ := hself
    obtain ⟨hab⟩ := hentry
    exact ⟨_, rfl, hab⟩

/-- A failure to read an end state off a model is a fault. -/
theorem failsOnly_project (n : Node) (m : Model) :
    FailsOnly (fun e => ∃ f, e = InferenceError.fault f) (n.project m) := by
  have hread : ∀ e, FailsOnly (fun e => ∃ f, e = InferenceError.fault f) (n.readTerm m e) := by
    intro e
    unfold readTerm
    split
    · exact .ok _ _
    · exact .ok _ _
    · cases m.find? _ with
      | none => exact .error ⟨_, rfl⟩
      | some v => exact .ok _ v
    · exact .error ⟨_, rfl⟩
  exact (FailsOnly.mapM (fun (_, e) => (hread e).bind fun v => .ok _ _) _).bind fun _ => .ok _ _

/-- An end state can be read off a model and joined to a summary exactly if each of its terms is a
literal or occurs in the condition, and those of the variables of the summary are integers. -/
theorem projectable_iff (hclosed : n.condition.Closed) (hm : m.Assigns n.condition)
    (hlength : n.endState.length = n.keys.length) {bound : Nat} {s : ConstantSummary} :
    n.Projectable (s.map (·.1)) ↔
      ∃ t s', n.project m = .ok t ∧ joinConstants bound t s = .ok s' := by
  constructor
  · rintro ⟨hreads, hintegers⟩
    -- The value of each term is kept with how it is read, which tells the integers from the rest.
    have hall : ∀ e ∈ n.endState, ∃ v, n.readTerm m e = .ok v ∧ n.readTerm m e = .ok v :=
      fun e he => ((exists_readTerm_iff hclosed hm).2 (hreads e he)).imp fun v hv => ⟨hv, hv⟩
    obtain ⟨vs, -, hvs⟩ := exists_mapM_eq_ok hall
    have hvalues : ∀ x ∈ s.map (·.1), ∃ i,
        (NameMap.ofList (n.keys.zip vs)).current? x = some (.int i) := by
      intro x hx
      obtain ⟨e, he, hinteger⟩ := hintegers x hx
      obtain ⟨i, hi⟩ := (exists_readTerm_int_iff hclosed hm).2 hinteger
      obtain ⟨v, hv, hread⟩ := exists_current?_of_forall₂ hvs he
      cases hread.symm.trans hi
      exact ⟨i, hv⟩
    obtain ⟨s', hs'⟩ := exists_joinConstants_iff.2 hvalues
    exact ⟨_, s', (project_eq_ok_iff hlength).2 ⟨vs, hvs, rfl⟩, hs'⟩
  · rintro ⟨t, s', ht, hs'⟩
    obtain ⟨vs, hvs, rfl⟩ := (project_eq_ok_iff hlength).1 ht
    refine ⟨fun e he => ?_, fun x hx => ?_⟩
    · obtain ⟨v, -, hv⟩ := exists_mem_of_forall₂ hvs he
      exact (exists_readTerm_iff hclosed hm).1 ⟨v, hv⟩
    · obtain ⟨i, hi⟩ := exists_joinConstants_iff.1 ⟨s', hs'⟩ x hx
      obtain ⟨e, he, hread⟩ := exists_current?_of_forall₂ hvs.flip hi
      exact ⟨e, he, (exists_readTerm_int_iff hclosed hm).1 ⟨i, hread⟩⟩

end Node

/-! ## Summaries of the variables that bodies can change -/

namespace ConditionSystem

variable {σ : Type} {c : ConditionSystem} {p : Program} {w : BoundedOptions} {bound : Nat}
  {n : Node} {i : Nat}

/-- There is a summary for each body, and it is about the integer variables that the body can
change. -/
structure Monitors (c : ConditionSystem) (p : Program) (summaries : List ConstantSummary) :
    Prop where
  /-- There is a summary for each body. -/
  length : summaries.length = c.nodes.length
  /-- It is about these variables. -/
  names : ∀ i s, summaries[i]? = some s → s.map (·.1) = p.monitored i

theorem Monitors.exists_summary {summaries : List ConstantSummary} (h : c.Monitors p summaries)
    (hn : c.nodes[i]? = some n) : ∃ s, summaries[i]? = some s := by
  have hi : i < summaries.length := h.length ▸ (List.getElem?_eq_some_iff.1 hn).1
  exact ⟨summaries[i], List.getElem?_eq_getElem hi⟩

/-- A join does not change the variables that a summary is about. -/
theorem map_fst_join {s s' : ConstantSummary} {t : EndState}
    (h : (constants bound).join s t = .ok s') : s'.map (·.1) = s.map (·.1) := by
  refine (map_eq_of_forall₂ (forall₂_joinConstants h) fun q q' hq => ?_).symm
  obtain ⟨i, -, rfl⟩ := hq
  rfl

theorem Monitors.set {summaries : List ConstantSummary} {s s' : ConstantSummary}
    (h : c.Monitors p summaries) (hs : summaries[i]? = some s)
    (hsame : s'.map (·.1) = s.map (·.1)) : c.Monitors p (summaries.set i s') := by
  refine ⟨List.length_set.trans h.length, fun j u hu => ?_⟩
  rw [List.getElem?_set] at hu
  split_ifs at hu with hij hlt
  · cases hu
    rw [hsame, ← hij]
    exact h.names i s hs
  · exact h.names j u hu

section

variable {r r' : Run ConstantSummary σ} {ask : Oracle σ} {es : List (Event ConstantSummary)}

/-- No event changes the variables that summaries are about. -/
theorem History.monitors (h : c.History (constants bound) ask r es r')
    (hr : c.Monitors p r.summaries) : c.Monitors p r'.summaries := by
  induction h with
  | nil => exact hr
  | cons hstep _ ih =>
    refine ih ?_
    cases hstep with
    | asked => exact hr
    | left => exact hr
    | weakened hs hjoin _ => exact hr.set hs (map_fst_join hjoin)

theorem Coherent.monitors (hc : c.Coherent p) (h : c.Begun (constants bound) r) :
    c.Monitors p r.summaries := by
  induction h with
  | start h =>
    obtain ⟨summaries, hsummaries, h⟩ := bind_eq_ok.1 h
    cases h
    have hall := mapM_eq_ok_iff.1 hsummaries
    rw [hc.implementations] at hall
    refine ⟨hall.length_eq.symm.trans hc.length.symm, fun i s hs => ?_⟩
    -- Before the first visit the summaries are the least ones.
    obtain ⟨b, hb, hbottom⟩ := exists_getElem?_of_forall₂ hall.flip hs
    exact hc.bottom bound i b s hb hbottom
  | @again r ask oracle _ ih =>
    obtain ⟨es, hes⟩ := settle_worklist c (constants bound) ask c.calls.heights
      (enqueueAll c.calls.heights (List.range c.nodes.length) []) r
    exact hes.history.monitors ih

/-- The run after a turn has summaries about the same variables. -/
theorem Turns.monitors {heights : List Nat} {vs : List Nat}
    {x y : List Nat × Run ConstantSummary σ} (h : c.Turns (constants bound) ask heights x vs y)
    (hx : c.Monitors p x.2.summaries) : c.Monitors p y.2.summaries := by
  induction h with
  | none => exact hx
  | more _ hturn ih =>
    cases hturn with
    | visit hs hn hv =>
      obtain ⟨es, hes, -⟩ := visit_history hn hs hv
      exact hes.monitors ih

end

/-! ## Queries -/

/-- A summary can be rendered over terms for names among which are its variables. -/
theorem exists_render (bound : Nat) {s : ConstantSummary} {ks : List Name} {es : List Expr}
    (hs : s.map (·.1) ⊆ ks) (hlength : es.length = ks.length) :
    ∃ e, (constants bound).render s (.ofList (ks.zip es)) = .ok e := by
  refine exists_constants_render fun x hx => ?_
  -- The terms that are read are those of the variables with few values.
  have hmem : x ∈ s.map (·.1) := by
    unfold ConstantSummary.reads at hx
    split_ifs at hx
    · cases hx
    · obtain ⟨⟨y, known⟩, hq, hvalue⟩ := List.mem_filterMap.1 hx
      have hname : y = x := by
        dsimp only at hvalue
        split at hvalue
        · exact Option.some.inj hvalue
        · cases hvalue
      exact hname ▸ List.mem_map_of_mem hq
  have hfind : (NameMap.ofList (ks.zip es)).find? x ≠ none := by
    intro hnone
    rw [NameMap.find?_ofList_eq_none, List.map_fst_zip hlength.ge] at hnone
    exact hnone (hs hmem)
  obtain ⟨e, he⟩ := Option.ne_none_iff_exists'.1 hfind
  unfold NameMap.current?
  rw [he]
  rfl

theorem exists_definitions_eq_ok (bound : Nat) (hc : c.Coherent p) {summaries : List ConstantSummary}
    (hsummaries : c.Monitors p summaries) (hn : n ∈ c.nodes) (which : Nat → Bool) :
    ∃ e, c.definitions (constants bound) summaries n which = .ok e := by
  unfold definitions
  refine (exists_bind_eq_ok (Q := fun _ => True) (exists_mapM_eq_ok (R := fun _ _ => True)
    fun (target, args) hsite => ?_) fun es _ => ⟨_, rfl, trivial⟩).imp fun _ h => h.1
  have hsite := (List.mem_filter.1 hsite).1
  dsimp only
  split
  · -- The body called has names for the variables of its summary, and the site a term for each.
    rename_i m s hm hs
    have hlength := hc.sites n hn target args m hsite hm
    obtain ⟨f, hf⟩ := exists_render bound
      (hsummaries.names target s hs ▸ hc.keys target m hm) hlength
    refine ⟨.binary .iff (.apply (summaryPredicate m.name) args) f, ?_, trivial⟩
    unfold Node.define
    rw [if_neg (not_ne_iff.2 hlength)]
    exact bind_eq_ok.2 ⟨f, hf, rfl⟩
  · exact ⟨_, rfl, trivial⟩

/-- Every query can be formed. -/
theorem exists_query_eq_ok (bound : Nat) (hc : c.Coherent p) {summaries : List ConstantSummary}
    (hsummaries : c.Monitors p summaries) (hn : n ∈ c.nodes) :
    ∃ f, c.query (constants bound) summaries n i = .ok f := by
  obtain ⟨others, hothers⟩ :=
    exists_definitions_eq_ok bound hc hsummaries hn fun j => decide (j ≠ i)
  obtain ⟨own, hown⟩ := exists_definitions_eq_ok bound hc hsummaries hn fun j => decide (j = i)
  exact ⟨_, bind_eq_ok.2 ⟨others, hothers, bind_eq_ok.2 ⟨own, hown, rfl⟩⟩⟩

/-- The summaries can be reported. -/
theorem exists_report_eq_ok (bound : Nat) (hc : c.Coherent p) {r : Run ConstantSummary σ}
    (hr : c.Monitors p r.summaries) : ∃ reports, c.report (constants bound) r = .ok reports := by
  unfold report
  refine (exists_mapM_eq_ok (R := fun _ _ => True) fun (n, s, state) hmem => ?_).imp fun _ h => h.1
  obtain ⟨j, hj⟩ := List.mem_iff_getElem?.1 hmem
  obtain ⟨hn, hs⟩ := List.getElem?_zip_eq_some.1 hj
  obtain ⟨hs, -⟩ := List.getElem?_zip_eq_some.1 hs
  obtain ⟨f, hf⟩ := exists_render bound (hr.names j s hs ▸ hc.keys j n hn)
    (hc.ownTerms n (List.mem_of_getElem? hn))
  exact ⟨_, bind_eq_ok.2 ⟨f, hf, rfl⟩, trivial⟩

/-! ## Visits -/

/-- The search refutes the query about a body that is formed from the summaries. -/
def Refuted (c : ConditionSystem) (bound : Nat) (w : BoundedOptions)
    (summaries : List ConstantSummary) (n : Node) (i : Nat) : Prop :=
  ∃ f, c.query (constants bound) summaries n i = .ok f ∧
    (Bounded.check w n.name.text { n.condition with formula := f }).result = .ok .errors

/-- What the answer of the search to a query about a body calls for: a refutation calls for the end
state in a model of the condition, if it can be read off the model, and another answer ends the visit
or is a failure of the search. -/
theorem Asks.react_cases {r : Run ConstantSummary σ} {f : Expr} {answer : Answer} {oracle : σ}
    (h : c.Asks (constants bound) (Bounded.oracle w) n i r f answer oracle) :
    (c.Refuted bound w r.summaries n i ∧ ∃ m : Model, m.Assigns n.condition ∧
      ((∃ t, n.project m = .ok t ∧ n.react answer = .ok (.extend t)) ∨
        ∃ fault, n.project m = .error (.fault fault) ∧
          n.react answer = .error (.fault fault))) ∨
    (¬ c.Refuted bound w r.summaries n i ∧
      ((∃ e, n.react answer = .error (.oracle e)) ∨
        ∃ diagnostic, n.react answer = .ok (.finish diagnostic))) := by
  have hanswer : Bounded.check w n.name.text { n.condition with formula := f } = answer :=
    congrArg Prod.fst h.answer
  have hrefuted : c.Refuted bound w r.summaries n i ↔ answer.result = .ok .errors := by
    constructor
    · rintro ⟨g, hg, hresult⟩
      cases hg.symm.trans h.query
      exact hanswer ▸ hresult
    · exact fun hresult => ⟨f, h.query, hanswer ▸ hresult⟩
  by_cases hresult : answer.result = .ok .errors
  · obtain ⟨m, hm, hassigns⟩ := Bounded.check_refutes (hanswer ▸ hresult)
    -- What the model has values for does not depend on the formula of the query.
    refine .inl ⟨hrefuted.2 hresult, m, ⟨hassigns.isSome_iff, hassigns.kind⟩, ?_⟩
    have hreact : n.react answer = (n.project m).map .extend := by
      rw [← hanswer, hm]
      rfl
    cases hproject : n.project m with
    | ok t =>
      rw [hproject] at hreact
      exact .inl ⟨t, rfl, hreact⟩
    | error e =>
      obtain ⟨fault, rfl⟩ := Node.failsOnly_project n m e hproject
      rw [hproject] at hreact
      exact .inr ⟨fault, rfl, hreact⟩
  · refine .inr ⟨mt hrefuted.1 hresult, ?_⟩
    obtain ⟨models, result⟩ := answer
    cases result with
    | error e => exact .inl ⟨e, rfl⟩
    | ok outcome =>
      cases outcome with
      | errors => exact absurd rfl hresult
      | correct | timedOut | outOfMemory | inconclusive => exact .inr ⟨_, rfl⟩

/-- A round with an end state has it from a refutation, whose model has that end state. -/
theorem Asks.exists_project {r : Run ConstantSummary σ} {f : Expr} {answer : Answer} {oracle : σ}
    (h : c.Asks (constants bound) (Bounded.oracle w) n i r f answer oracle) {t : EndState}
    (ht : n.react answer = .ok (.extend t)) :
    c.Refuted bound w r.summaries n i ∧
      ∃ m : Model, m.Assigns n.condition ∧ n.project m = .ok t := by
  obtain ⟨hrefuted, m, hm, ⟨t', hproject, hreact⟩ | ⟨fault, -, hreact⟩⟩ |
    ⟨-, ⟨e, hreact⟩ | ⟨diagnostic, hreact⟩⟩ := h.react_cases
  · cases hreact.symm.trans ht
    exact ⟨hrefuted, m, hm, hproject⟩
  · cases hreact.symm.trans ht
  · cases hreact.symm.trans ht
  · cases hreact.symm.trans ht

/-- The rounds of a visit end in a fault exactly if the first query is refuted and no end state can
be read off a model and joined. -/
theorem Rounds.fault_iff {r r' : Run ConstantSummary σ} {es : List (Event ConstantSummary)}
    {ended : Except InferenceError (Option Diagnostic)} (hc : c.Coherent p)
    (hn : c.nodes[i]? = some n)
    (h : c.Rounds (constants bound) (Bounded.oracle w) n i r es r' ended)
    (hr : c.Monitors p r.summaries) :
    (∃ f, ended = .error (.fault f)) ↔
      c.Refuted bound w r.summaries n i ∧ ¬ n.Projectable (p.monitored i) := by
  have hmem : n ∈ c.nodes := List.mem_of_getElem? hn
  -- Whether an end state can be read and joined is the same for all models and all summaries.
  have hprojectable : ∀ {m : Model} {s : ConstantSummary}, m.Assigns n.condition →
      s.map (·.1) = p.monitored i → (n.Projectable (p.monitored i) ↔
        ∃ t s', n.project m = .ok t ∧ joinConstants bound t s = .ok s') := fun hm hs =>
    hs ▸ Node.projectable_iff (hc.closed n hmem) hm (hc.endState n hmem)
  induction h with
  | unposed he =>
    obtain ⟨f, hf⟩ := exists_query_eq_ok (i := i) bound hc hr hmem
    cases hf.symm.trans he
  | @failed r f answer oracle e hasks hreact =>
    obtain ⟨hrefuted, m, hm, ⟨t, -, hread⟩ | ⟨fault, hproject, hread⟩⟩ |
      ⟨hnot, ⟨cause, hread⟩ | ⟨diagnostic, hread⟩⟩ := hasks.react_cases
    · cases hread.symm.trans hreact
    · cases hread.symm.trans hreact
      obtain ⟨s, hs⟩ := hr.exists_summary hn
      refine iff_of_true ⟨fault, rfl⟩ ⟨hrefuted, fun hable => ?_⟩
      obtain ⟨t, -, ht, -⟩ := (hprojectable hm (hr.names i s hs)).1 hable
      cases hproject.symm.trans ht
    · cases hread.symm.trans hreact
      exact iff_of_false nofun fun h => hnot h.1
    · cases hread.symm.trans hreact
  | @finished r f answer oracle diagnostic hasks hreact =>
    obtain ⟨-, m, -, ⟨t, -, hread⟩ | ⟨fault, -, hread⟩⟩ | ⟨hnot, -⟩ := hasks.react_cases
    · cases hread.symm.trans hreact
    · cases hread.symm.trans hreact
    · exact iff_of_false nofun fun h => hnot h.1
  | @unjoined r f answer oracle t s e hasks hreact hs hjoin =>
    obtain ⟨hrefuted, m, hm, ht⟩ := hasks.exists_project hreact
    obtain ⟨fault, rfl⟩ := failsOnly_joinConstants bound t s e hjoin
    refine iff_of_true ⟨fault, rfl⟩ ⟨hrefuted, fun hable => ?_⟩
    obtain ⟨t', s', ht', hs'⟩ := (hprojectable hm (hr.names i s hs)).1 hable
    cases ht.symm.trans ht'
    cases hjoin.symm.trans hs'
  | @admitted r f answer oracle t s hasks hreact hs hjoin =>
    obtain ⟨-, m, hm, ht⟩ := hasks.exists_project hreact
    exact iff_of_false nofun fun h =>
      h.2 ((hprojectable hm (hr.names i s hs)).2 ⟨t, s, ht, hjoin⟩)
  | @weakened r r' f answer oracle t s s' es o hasks hreact hs hjoin hne _ ih =>
    obtain ⟨-, m, hm, ht⟩ := hasks.exists_project hreact
    have hable : n.Projectable (p.monitored i) :=
      (hprojectable hm (hr.names i s hs)).2 ⟨t, s', ht, hjoin⟩
    -- Later rounds end in no fault either, as the same terms are read.
    exact (ih (hr.set hs (map_fst_join hjoin))).trans
      (iff_of_false (fun h => h.2 hable) fun h => h.2 hable)

/-- A visit ends in a fault exactly if its first query is refuted and no end state can be read off a
model and joined. -/
theorem visit_fault_iff (hc : c.Coherent p) {r : Run ConstantSummary σ}
    (hr : c.Monitors p r.summaries) (hn : c.nodes[i]? = some n) {s : ConstantSummary}
    (hs : r.summaries[i]? = some s) :
    (∃ f, (c.visit (constants bound) (Bounded.oracle w) r n i s).outcome = .error (.fault f)) ↔
      c.Refuted bound w r.summaries n i ∧ ¬ n.Projectable (p.monitored i) := by
  obtain ⟨es, hrounds, -⟩ := visit_rounds c (constants bound) (Bounded.oracle w) n hs
  exact hrounds.fault_iff hc hn hr

/-! ## Inference -/

variable {o : GenerationOptions} {l l' : Lexicon}

/-- Inference of summaries by observed values with the exhaustive search ends in a fault exactly if
it comes to a body whose first query is refuted and whose end state has a term that is neither a
literal nor a symbol of the condition, or no integer for a variable of its summary. -/
theorem infer_faults_iff (hp : p.LeavesPlaceholders) (hc : (ofProgram p o).run l = (.ok c, l'))
    {r₀ : Run ConstantSummary σ} (hr₀ : c.Begun (constants bound) r₀) :
    (∃ r f, c.infer (constants bound) (Bounded.oracle w) r₀ = (r, .error (.fault f))) ↔
      ∃ vs i rest r n, c.Turns (constants bound) (Bounded.oracle w) c.calls.heights
          (c.startPending, r₀) vs (i :: rest, r) ∧
        c.nodes[i]? = some n ∧ c.Refuted bound w r.summaries n i ∧
        ¬ n.Projectable (p.monitored i) := by
  have hcoherent : c.Coherent p := ofProgram_coherent hp hc
  have hstart : c.Monitors p r₀.summaries := hcoherent.monitors hr₀
  constructor
  · rintro ⟨r, f, hinfer⟩
    -- Inference ends with the visits or stops in one, and a report of coherent summaries does not
    -- fail.
    obtain ⟨hlength, hsize⟩ := length_ofProgram hc
    have hpending : ∀ i ∈ c.startPending, i < c.nodes.length := fun i hi =>
      (mem_enqueueAll.1 hi).elim List.mem_range.1 nofun
    have hended : ((c.settle (constants bound) (Bounded.oracle w) c.calls.heights c.startPending
        r₀).2 >>= fun _ => c.report (constants bound) (c.settle (constants bound)
          (Bounded.oracle w) c.calls.heights c.startPending r₀).1) = .error (.fault f) :=
      (Prod.ext_iff.1 hinfer).2
    obtain ⟨vs, hvs, hend⟩ | ⟨vs, i, rest, r₁, n, e, hvs, hstops, hend⟩ :=
      settle_turns_or_stops (constants bound) (Bounded.oracle w) c.calls.heights
        (hsize.trans hlength.symm) c.startPending r₀ hstart.length hpending
    · -- Summaries about variables of the end states can be reported.
      obtain ⟨reports, hreports⟩ := exists_report_eq_ok bound hcoherent (hvs.monitors hstart)
      rw [hend] at hended
      cases hreports.symm.trans hended
    · rw [hend] at hended
      cases hended
      obtain ⟨hn, s, hs, hv⟩ := hstops
      have hfault := (visit_fault_iff hcoherent (hvs.monitors hstart) hn hs).1 ⟨f, hv⟩
      exact ⟨vs, i, rest, r₁, n, hvs, hn, hfault⟩
  · rintro ⟨vs, i, rest, r, n, hvs, hn, hrefuted, hnot⟩
    have hr : c.Monitors p r.summaries := hvs.monitors hstart
    obtain ⟨s, hs⟩ := hr.exists_summary hn
    obtain ⟨f, hf⟩ := (visit_fault_iff hcoherent hr hn hs).2 ⟨hrefuted, hnot⟩
    have hend : (c.settle (constants bound) (Bounded.oracle w) c.calls.heights c.startPending
        r₀).2 = .error (.fault f) := hvs.settle_eq_error ⟨hn, s, hs, hf⟩
    refine ⟨(c.infer (constants bound) (Bounded.oracle w) r₀).1, f, Prod.ext rfl ?_⟩
    show ((c.settle (constants bound) (Bounded.oracle w) c.calls.heights c.startPending
      r₀).2 >>= fun _ => _) = _
    rw [hend]
    rfl

/-! ## A body that fails always -/

/-- A body with an output that asserts `false`. -/
def failingBody : Implementation :=
  ⟨⟨"P"⟩, [], [⟨⟨"r"⟩, .int, none, .output⟩], [], [],
    [⟨⟨"entry"⟩, [.assert ⟨.bool false, .plain, none, none⟩], [], .ret⟩], 0⟩

/-- A program with this body. -/
def failing : Program where
  globals := []
  functions := []
  procedures := [callingProcedure]
  implementations := [failingBody]

/-- The program with its placeholder. -/
def failingAttached : Program := [outputPlaceholder ⟨"P"⟩].foldl Program.attach failing

/-- The body with its condition, in which the output does not occur. -/
def failingNode (functions : List Function) : Node :=
  ⟨⟨"P"⟩, [⟨"r"⟩], [.symbol ⟨"r"⟩], ⟨⟨"P"⟩, .bool false, [], functions, []⟩, [.symbol ⟨"r"⟩], []⟩

/-- The system of the body. -/
def failingSystem (functions : List Function) : ConditionSystem where
  program := failingAttached
  nodes := [failingNode functions]
  calls := ⟨[[]]⟩

/-- The run before any visit. -/
def failingStart : Run ConstantSummary Unit :=
  ⟨[[(⟨"r"⟩, .unobserved)]], [.unprocessed], 0, [], ()⟩

/-- The body made ready. -/
def failingReadied : SingleExit :=
  callingReadied failingBody (.assert ⟨.bool false, .plain, none, none⟩)

theorem prepare_failingBody : (failingBody.prepare failingAttached).outcome =
    .ok (ensuring callingProcedure (outputPlaceholder ⟨"P"⟩), failingReadied) := by
  have hcheck : failingBody.check = .ok () := by cbv
  have hcheck' : failingReadied.body.check = .ok () := by cbv
  exact Implementation.prepare_eq_ok.2 ⟨rfl, hcheck, _, _, _, _, rfl, rfl, rfl, rfl,
    hcheck', rfl, rfl⟩

theorem exists_failingNode (l : Lexicon) : ∃ functions l',
    ((outputPlaceholder ⟨"P"⟩).node failingAttached { encoding := .inline } failingBody).run l =
      (.ok (failingNode functions), l') := by
  obtain ⟨b, hb, hencode, hterms, hname⟩ : ∃ b,
      (∀ l, (Passive.passify l true failingAttached
        (ensuring callingProcedure (outputPlaceholder ⟨"P"⟩)) failingReadied).outcome = .ok b) ∧
      (Condition.encode b.body b.order .inline).outcome = .ok (.bool false, []) ∧
      b.endState = .ok [.symbol ⟨"r"⟩] ∧ b.body.name = ⟨"P"⟩ :=
    ⟨_, fun l => by cbv, by cbv, by cbv, by cbv⟩
  obtain ⟨symbols, functions, l₁, l', hclose, hnode⟩ := Placeholder.exists_node
    (o := { encoding := .inline }) (h := outputPlaceholder ⟨"P"⟩) prepare_failingBody hb hencode
    (by simp [Expr.names, Expr.readsAt, Expr.bool]) (by simp [Expr.bool]) hterms rfl l
  rw [hname] at hnode
  -- The condition declares no symbol, as none occurs in it.
  obtain rfl : symbols = [] := List.eq_nil_iff_forall_not_mem.2 fun q hq => by
    have hread := ((closed_of_closeFormula hclose).names q.1).1 (List.mem_map_of_mem hq)
    simp [Expr.names, Expr.readsAt, Expr.bool] at hread
  exact ⟨functions, l', hnode⟩

theorem ofProgram_failing : ∃ functions l,
    (ofProgram failing { encoding := .inline }).run .initial =
      (.ok (failingSystem functions), l) := by
  have hhs : (placeholders failing [] failing.implementations).outcome =
      .ok [outputPlaceholder ⟨"P"⟩] := rfl
  have hrecord := Minting.run_record (placeholders failing [] failing.implementations) .initial
  rw [hhs] at hrecord
  obtain ⟨functions, l, hP⟩ := exists_failingNode
    ((placeholders failing [] failing.implementations).names.foldl Lexicon.mention .initial)
  refine ⟨functions, l, NamingExcept.bind_eq_ok.2 ⟨_, _, hrecord, NamingExcept.bind_eq_ok.2
    ⟨[failingNode functions], l, ?_, rfl⟩⟩⟩
  have hzip : [outputPlaceholder ⟨"P"⟩].zip
      ([outputPlaceholder ⟨"P"⟩].foldl Program.attach failing).implementations =
      [(outputPlaceholder ⟨"P"⟩, failingBody)] := rfl
  rw [hzip, List.mapM_cons, List.mapM_nil]
  exact NamingExcept.bind_eq_ok.2 ⟨_, l, hP, rfl⟩

/-- The program does not apply its placeholder. -/
theorem leavesPlaceholders_failing : failing.LeavesPlaceholders := by
  intro i _
  have hr : Variable.Within (.avoiding (summaryPredicate i.name)) ⟨⟨"r"⟩, .int, none, .output⟩ :=
    ⟨trivial, fun _ h => (by cases h), trivial⟩
  refine ⟨fun _ hv => (by cases hv), fun q hq => ?_, fun b hb => ?_⟩
  · cases List.mem_singleton.1 hq
    exact ⟨by simp [callingProcedure], by simp [callingProcedure, hr], by simp [callingProcedure],
      by simp [callingProcedure], fun _ _ => trivial⟩
  · cases List.mem_singleton.1 hb
    refine ⟨by simp [failingBody], by simp [failingBody, hr], by simp [failingBody],
      Implementation.forall_cmdsAt Cmd.withinAll_nil fun b hb => ?_⟩
    cases List.mem_singleton.1 hb
    exact ⟨Expr.notMem_functions_literal, trivial⟩

/-- The bounds with which the output has the value zero. -/
def zeroOnly : BoundedOptions := { minInt := 0, maxInt := 0 }

/-- A body that fails whatever its output is has a condition in which the output does not occur, and
inference ends in a fault, not in a diagnostic. -/
theorem infer_noModelValue_failing :
    ∃ c l r, (ofProgram failing { encoding := .inline }).run .initial = (.ok c, l) ∧
      c.start (constants 5) () = .ok failingStart ∧
      c.infer (constants 5) (Bounded.oracle zeroOnly) failingStart =
        (r, .error (.fault (.noModelValue ⟨"P"⟩ ⟨"r"⟩))) := by
  obtain ⟨functions, l, hc⟩ := ofProgram_failing
  obtain ⟨r, hinfer⟩ : ∃ r, (failingSystem functions).infer (constants 5)
      (Bounded.oracle zeroOnly) failingStart =
        (r, .error (.fault (.noModelValue ⟨"P"⟩ ⟨"r"⟩))) := ⟨_, by cbv⟩
  exact ⟨_, l, r, hc, rfl, hinfer⟩

theorem infer_faults_iff_failing :
    failing.LeavesPlaceholders ∧
      ∃ c l vs i rest r n, (ofProgram failing { encoding := .inline }).run .initial = (.ok c, l) ∧
        c.Begun (constants 5) failingStart ∧
        c.Turns (constants 5) (Bounded.oracle zeroOnly) c.calls.heights
          (c.startPending, failingStart) vs (i :: rest, r) ∧
        c.nodes[i]? = some n ∧ c.Refuted 5 zeroOnly r.summaries n i ∧
        ¬ n.Projectable (failing.monitored i) := by
  obtain ⟨functions, l, hc⟩ := ofProgram_failing
  have hstart : (failingSystem functions).start (constants 5) () = .ok failingStart := rfl
  obtain ⟨r, f, hinfer⟩ : ∃ r f, (failingSystem functions).infer (constants 5)
      (Bounded.oracle zeroOnly) failingStart = (r, .error (.fault f)) := ⟨_, _, by cbv⟩
  obtain ⟨vs, i, rest, r₁, n, hturns, hn, hrefuted, hnot⟩ :=
    (infer_faults_iff leavesPlaceholders_failing hc (.start hstart)).1 ⟨r, f, hinfer⟩
  exact ⟨leavesPlaceholders_failing, _, l, vs, i, rest, r₁, n, hc, .start hstart, hturns, hn,
    hrefuted, hnot⟩

end ConditionSystem

end Obligations
