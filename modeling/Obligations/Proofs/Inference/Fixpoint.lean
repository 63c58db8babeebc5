import Obligations.Proofs.Inference.History
import Obligations.Proofs.Inference.Sites
import Obligations.Summary.Constants

/-!
# Inference ends at a fixpoint

While bodies are visited, every body that is not to be visited has been checked against the
summaries now in force of everything that its condition mentions, unless there is a diagnostic
(`ConditionSystem.settle_confirmed`). So if inference ends without diagnostics, all bodies have
(`ConditionSystem.infer_confirmed`).
-/

namespace Obligations

variable {S σ : Type}

/-- Steps that agree make traversals that agree. -/
theorem mapM_congr {ε α β : Type} {f g : α → Except ε β} {as : List α}
    (h : ∀ a ∈ as, f a = g a) : as.mapM f = as.mapM g := by
  induction as with
  | nil => rfl
  | cons a as ih =>
    obtain ⟨ha, has⟩ := List.forall_mem_cons.1 h
    rw [List.mapM_cons, List.mapM_cons, ha, ih has]

namespace ConditionSystem

variable {c : ConditionSystem} {d : SummaryDomain S} {ask : Oracle σ} {r r' : Run S σ}
  {es es' : List (Event S)} {i j : Nat} {n : Node} {heights : List Nat}

/-! ## Queries -/

/-- A query depends on the summaries of the bodies whose placeholders occur. -/
theorem query_congr {summaries summaries' : List S}
    (h : ∀ s ∈ n.sites, summaries'[s.1]? = summaries[s.1]?) :
    c.query d summaries' n i = c.query d summaries n i := by
  have hdefinitions : ∀ which : Nat → Bool,
      c.definitions d summaries' n which = c.definitions d summaries n which := by
    intro which
    unfold definitions
    rw [mapM_congr]
    rintro ⟨target, args⟩ hs
    dsimp only
    rw [h _ (List.mem_filter.1 hs).1]
  unfold query
  rw [hdefinitions, hdefinitions]

/-- The placeholder of a body occurs in the condition of a node. -/
def Mentions (c : ConditionSystem) (n : Node) (j : Nat) : Prop :=
  ∃ m, c.nodes[j]? = some m ∧ summaryPredicate m.name ∈ n.condition.formula.functions

theorem Wired.mem_sites (hw : c.Wired) (hn : n ∈ c.nodes) {args : List Expr} :
    (j, args) ∈ n.sites ↔ ∃ m, c.nodes[j]? = some m ∧
      .apply (summaryPredicate m.name) args ∈ n.condition.formula.subexprs := by
  rw [hw.sites n hn, mem_placeholderSites]
  simp only [List.getElem?_map, Option.map_eq_some_iff]
  constructor
  · rintro ⟨f, ⟨m, hm, rfl⟩, hmem⟩
    exact ⟨m, hm, hmem⟩
  · rintro ⟨m, hm, hmem⟩
    exact ⟨_, ⟨m, hm, rfl⟩, hmem⟩

theorem Wired.mentions_of_mem_sites (hw : c.Wired) (hn : n ∈ c.nodes) {s : Nat × List Expr}
    (hs : s ∈ n.sites) : c.Mentions n s.1 := by
  obtain ⟨m, hm, hmem⟩ := (hw.mem_sites hn).1 hs
  exact ⟨m, hm, Expr.mem_functions.2 ⟨_, hmem⟩⟩

/-- A query stays the same while no summary changes whose placeholder occurs in it. -/
theorem History.query_eq (h : c.History d ask r es r') (hw : c.Wired) (hn : n ∈ c.nodes)
    (hes : ∀ j, c.Mentions n j → Unchanged j es) :
    c.query d r'.summaries n i = c.query d r.summaries n i :=
  query_congr fun _ hs => h.getElem?_summaries (hes _ (hw.mentions_of_mem_sites hn hs))

/-- A formula says that the condition of a body holds if all placeholders that occur in it mean the
given summaries of the bodies for which they stand. -/
def IsQuery (c : ConditionSystem) (d : SummaryDomain S) (summaries : List S) (n : Node)
    (f : Expr) : Prop :=
  ∃ others own : List Expr,
    f = ((Expr.conjAll others).conj (.conjAll own)).impl n.condition.formula ∧
      (∀ e ∈ others ++ own, ∃ (j : Nat) (m : Node) (s : S) (args : List Expr),
        c.nodes[j]? = some m ∧ summaries[j]? = some s ∧
          .apply (summaryPredicate m.name) args ∈ n.condition.formula.subexprs ∧
            m.define d s args = .ok e) ∧
      ∀ (j : Nat) (m : Node) (args : List Expr), c.nodes[j]? = some m →
        .apply (summaryPredicate m.name) args ∈ n.condition.formula.subexprs →
          ∃ s, summaries[j]? = some s ∧ ∃ e ∈ others ++ own, m.define d s args = .ok e

/-- If there is a summary for every body, the definitions of some placeholders are those of all
their occurrences. -/
theorem exists_definitions (hw : c.Wired) (hn : n ∈ c.nodes) {summaries : List S}
    (hlength : summaries.length = c.nodes.length) {which : Nat → Bool} {e : Expr}
    (he : c.definitions d summaries n which = .ok e) :
    ∃ es, e = .conjAll es ∧
      (∀ e ∈ es, ∃ (j : Nat) (m : Node) (s : S) (args : List Expr),
        c.nodes[j]? = some m ∧ summaries[j]? = some s ∧
          .apply (summaryPredicate m.name) args ∈ n.condition.formula.subexprs ∧
            m.define d s args = .ok e) ∧
      ∀ (j : Nat) (m : Node) (args : List Expr), which j = true → c.nodes[j]? = some m →
        .apply (summaryPredicate m.name) args ∈ n.condition.formula.subexprs →
          ∃ s, summaries[j]? = some s ∧ ∃ e ∈ es, m.define d s args = .ok e := by
  obtain ⟨es, hes, he⟩ := bind_eq_ok.1 he
  cases he
  have hall := mapM_eq_ok_iff.1 hes
  -- The summaries are those of the bodies, one for each.
  have hsummary : ∀ {j : Nat} {m : Node}, c.nodes[j]? = some m → ∃ s, summaries[j]? = some s :=
    fun hm => ⟨_, List.getElem?_eq_getElem (hlength ▸ (List.getElem?_eq_some_iff.1 hm).1)⟩
  refine ⟨es, rfl, fun e he => ?_, fun j m args hj hm hmem => ?_⟩
  · obtain ⟨⟨j, args⟩, hs, he⟩ := exists_mem_of_forall₂ hall.flip he
    obtain ⟨m, hm, hmem⟩ := (hw.mem_sites hn).1 (List.mem_filter.1 hs).1
    obtain ⟨s, hs⟩ := hsummary hm
    simp only [hm, hs] at he
    exact ⟨j, m, s, args, hm, hs, hmem, he⟩
  · obtain ⟨s, hs⟩ := hsummary hm
    have hsite : (j, args) ∈ n.sites := (hw.mem_sites hn).2 ⟨m, hm, hmem⟩
    obtain ⟨e, he, hdefine⟩ := exists_mem_of_forall₂ hall (List.mem_filter.2 ⟨hsite, hj⟩)
    simp only [hm, hs] at hdefine
    exact ⟨s, hs, e, he, hdefine⟩

/-- If there is a summary for every body, queries define all placeholders that occur. -/
theorem isQuery_of_query_eq_ok (hw : c.Wired) (hn : n ∈ c.nodes) {summaries : List S}
    (hlength : summaries.length = c.nodes.length) {f : Expr}
    (hf : c.query d summaries n i = .ok f) : c.IsQuery d summaries n f := by
  obtain ⟨premise, hpremise, hf⟩ := bind_eq_ok.1 hf
  obtain ⟨premise', hpremise', hf⟩ := bind_eq_ok.1 hf
  cases hf
  obtain ⟨others, rfl, hothers, hallOthers⟩ := exists_definitions hw hn hlength hpremise
  obtain ⟨own, rfl, hown, hallOwn⟩ := exists_definitions hw hn hlength hpremise'
  refine ⟨others, own, rfl, List.forall_mem_append.2 ⟨hothers, hown⟩, fun j m args hm hmem => ?_⟩
  by_cases hji : j = i
  · obtain ⟨s, hs, e, he, hdefine⟩ := hallOwn j m args (decide_eq_true hji) hm hmem
    exact ⟨s, hs, e, List.mem_append_right _ he, hdefine⟩
  · obtain ⟨s, hs, e, he, hdefine⟩ := hallOthers j m args (decide_eq_true hji) hm hmem
    exact ⟨s, hs, e, List.mem_append_left _ he, hdefine⟩

/-! ## Bodies that have been checked -/

/-- Among the events is a query about a body that is formed from the given summaries and that was
answered with the verdict that it is valid, and after it neither the summary of the body nor a
summary whose placeholder occurs in its condition has changed. -/
def Confirmed (c : ConditionSystem) (d : SummaryDomain S) (es : List (Event S)) (summaries : List S)
    (i : Nat) (n : Node) : Prop :=
  ∃ before f models after, es = before ++ .asked i f ⟨models, .ok .correct⟩ :: after ∧
    c.query d summaries n i = .ok f ∧ Unchanged i after ∧ ∀ j, c.Mentions n j → Unchanged j after

/-- A body that has been checked counts as checked until a summary changes on which it depends. -/
theorem Confirmed.append (h : c.Confirmed d es r.summaries i n) (hw : c.Wired) (hn : n ∈ c.nodes)
    (hr : c.History d ask r es' r') (hown : Unchanged i es')
    (hes : ∀ j, c.Mentions n j → Unchanged j es') :
    c.Confirmed d (es ++ es') r'.summaries i n := by
  obtain ⟨before, f, models, after, rfl, hf, hafter, hmentioned⟩ := h
  refine ⟨before, f, models, after ++ es', by simp, ?_, by simp [hafter, hown], fun j hj => ?_⟩
  · rw [hr.query_eq hw hn hes, hf]
  · simp [hmentioned j hj, hes j hj]

/-! ## Bodies to be visited -/

theorem mem_enqueue {js : List Nat} : j ∈ enqueue heights i js ↔ j = i ∨ j ∈ js := by
  induction js with
  | nil => simp [enqueue]
  | cons k js ih =>
    unfold enqueue
    split_ifs with hik hbefore
    · simp [hik]
    · simp
    · rw [List.mem_cons, ih, List.mem_cons]
      tauto

theorem mem_enqueueAll {is js : List Nat} : j ∈ enqueueAll heights is js ↔ j ∈ is ∨ j ∈ js := by
  unfold enqueueAll
  induction is generalizing js with
  | nil => simp
  | cons i is ih =>
    rw [List.foldl_cons, ih, mem_enqueue, List.mem_cons]
    tauto

variable [DecidableEq S]

/-- A visit without a diagnostic checks the body, and bodies that do not depend on its summary, or
whose summaries it leaves as they are, stay checked. -/
theorem visit_confirmed {s : S} {diagnostic : Option Diagnostic} {rest next : List Nat}
    (hw : c.Wired) (hn : c.nodes[i]? = some n) (hs : r.summaries[i]? = some s)
    (hv : (c.visit d ask r n i s).outcome = .ok diagnostic)
    (hnext : ∀ j, j ≠ i → j ∉ next → j ∉ rest ∧
      ((c.visit d ask r n i s).changed = true → j ∉ c.calls.callers i))
    (hrest : r.diagnostics = [] → ∀ j m, c.nodes[j]? = some m → j ∉ i :: rest →
      c.Confirmed d es r.summaries j m) :
    ∃ es₁, c.History d ask r es₁ (afterVisit r i (c.visit d ask r n i s) diagnostic) ∧
      ((afterVisit r i (c.visit d ask r n i s) diagnostic).diagnostics = [] →
        ∀ j m, c.nodes[j]? = some m → j ∉ next → c.Confirmed d (es ++ es₁)
          (afterVisit r i (c.visit d ask r n i s) diagnostic).summaries j m) := by
  obtain ⟨es₁, hhistory, hothers, hown, hlast⟩ := visit_history hn hs hv
  refine ⟨es₁, hhistory, fun hclean j m hm hj => ?_⟩
  obtain ⟨hclean, hnone⟩ := List.append_eq_nil_iff.1 hclean
  by_cases hji : j = i
  · subst hji
    cases hn.symm.trans hm
    obtain ⟨before, f, models, after, rfl, hafter, hf⟩ := hlast (Option.toList_eq_nil_iff.1 hnone)
    exact ⟨es ++ before, f, models, after, by simp, hf, hafter j, fun k _ => hafter k⟩
  · obtain ⟨hjrest, hcallers⟩ := hnext j hji hj
    refine (hrest hclean j m hm (by simp [hji, hjrest])).append hw (List.mem_of_getElem? hm)
      hhistory (hothers j hji) fun k ⟨b, hb, hmem⟩ => ?_
    by_cases hki : k = i
    · subst hki
      -- The condition of `j` depends on the visited body, so `j` calls that and is to be visited.
      refine hown (Bool.eq_false_iff.2 fun hchanged => ?_)
      exact hcallers hchanged (hw.callers j k m b hm hb hji hmem)
    · exact hothers k hki

/-- Every body that is not to be visited has been checked, and still is when all visits are over: a
visit checks the body itself, and brings back the bodies that depend on its summary if this
changes. -/
theorem settle_confirmed {r₀ : Run S σ} (hw : c.Wired) {pending : List Nat}
    (hsettle : c.settle d ask heights pending r = (r', .ok ()))
    (hr : c.History d ask r₀ es r) (hlength : r.summaries.length = c.nodes.length)
    (hpending : r.diagnostics = [] → ∀ i n, c.nodes[i]? = some n → i ∉ pending →
      c.Confirmed d es r.summaries i n) :
    ∃ es', c.History d ask r₀ es' r' ∧ (r'.diagnostics = [] →
      ∀ i n, c.nodes[i]? = some n → c.Confirmed d es' r'.summaries i n) := by
  fun_induction settle c d ask heights pending r generalizing es with
  | case1 r =>
    cases hsettle
    exact ⟨es, hr, fun hclean i n hn => hpending hclean i n hn (by simp)⟩
  | case2 => cases hsettle
  | case3 r i rest s n hs hn v diagnostic hv next =>
    rename_i ih
    have hnext : ∀ j, j ≠ i → j ∉ next → j ∉ rest ∧ (v.changed = true → j ∉ c.calls.callers i) := by
      intro j hji hj
      by_cases hchanged : v.changed = true
      · rw [show next = _ from dif_pos hchanged, mem_enqueueAll, List.mem_filter] at hj
        exact ⟨fun h => hj (.inr h), fun _ h => hj (.inl ⟨h, decide_eq_true hji⟩)⟩
      · rw [show next = _ from dif_neg hchanged] at hj
        exact ⟨hj, fun h => absurd h hchanged⟩
    obtain ⟨es₁, hhistory, hconfirmed⟩ := visit_confirmed hw hn hs hv hnext hpending
    exact ih hsettle (hr.append hhistory) (hhistory.length_summaries.trans hlength) hconfirmed
  | case4 r i rest hnone ih =>
    refine ih hsettle hr hlength fun hclean j m hm hj => hpending hclean j m hm ?_
    -- There is a summary for every body, so that `i` is not one.
    have hne : j ≠ i := by
      rintro rfl
      have hlt : j < r.summaries.length := hlength ▸ (List.getElem?_eq_some_iff.1 hm).1
      exact hnone _ m (List.getElem?_eq_getElem hlt) hm
    simp [hne, hj]

/-! ## Inference -/

theorem length_settle (pending : List Nat) (r : Run S σ) :
    (c.settle d ask heights pending r).1.summaries.length = r.summaries.length := by
  fun_induction settle c d ask heights pending r with
  | case1 => rfl
  | case2 => exact List.length_set
  | case3 =>
    rename_i ih
    exact ih.trans List.length_set
  | case4 r i rest hnone ih => exact ih

/-- The runs from which summaries are inferred: those before any visit, and those in which an
inference has ended, well or not, whatever becomes of the oracle afterwards. -/
inductive Begun (c : ConditionSystem) (d : SummaryDomain S) : Run S σ → Prop
  /-- No body has been visited. -/
  | start {oracle : σ} {r : Run S σ} : c.start d oracle = .ok r → Begun c d r
  /-- Summaries have been inferred. -/
  | again {r : Run S σ} (ask : Oracle σ) (oracle : σ) : Begun c d r →
    Begun c d { (c.infer d ask r).1 with oracle }

/-- There is a summary for every body. -/
theorem Begun.length_summaries (h : c.Begun d r) (hw : c.Wired) :
    r.summaries.length = c.nodes.length := by
  induction h with
  | start h =>
    obtain ⟨summaries, hsummaries, h⟩ := bind_eq_ok.1 h
    cases h
    have hnames := congrArg List.length hw.names
    rw [List.length_map, List.length_map] at hnames
    exact (mapM_eq_ok_iff.1 hsummaries).length_eq.symm.trans hnames.symm
  | again ask oracle _ ih => exact (length_settle _ _).trans ih

/-- For every body of a program there is among the events a query that is formed from the given
summaries and that was answered with the verdict that it is valid; after it neither the summary of
the body nor a summary whose placeholder occurs in its condition has changed. -/
def AllConfirmed (c : ConditionSystem) (d : SummaryDomain S) (p : Program) (es : List (Event S))
    (summaries : List S) : Prop :=
  ∀ i b, p.implementations[i]? = some b → ∃ n, c.nodes[i]? = some n ∧ n.name = b.name ∧
    ∃ before f models after, es = before ++ .asked i f ⟨models, .ok .correct⟩ :: after ∧
      c.query d summaries n i = .ok f ∧ c.IsQuery d summaries n f ∧ Unchanged i after ∧
        ∀ j, c.Mentions n j → Unchanged j after

/-- If inference ends without diagnostics, every body has been checked against the final
summaries. -/
theorem infer_confirmed {p : Program} {o : GenerationOptions} {l l' : Lexicon} {r₀ : Run S σ}
    {reports : List (SummaryReport S)} (hp : p.LeavesPlaceholders)
    (hc : (ofProgram p o).run l = (.ok c, l')) (hr₀ : c.Begun d r₀)
    (hinfer : c.infer d ask r₀ = (r, .ok reports)) (hclean : r.diagnostics = []) :
    ∃ es, c.History d ask r₀ es r ∧ c.AllConfirmed d p es r.summaries := by
  have hw := ofProgram_wired hp hc
  have hlength := hr₀.length_summaries hw
  obtain ⟨hr, hsettled⟩ := Prod.ext_iff.1 hinfer
  obtain ⟨⟨⟩, hsettled, -⟩ := bind_eq_ok.1 hsettled
  have hsettle : c.settle d ask c.calls.heights
      (enqueueAll c.calls.heights (List.range c.nodes.length) []) r₀ = (r, .ok ()) :=
    Prod.ext hr hsettled
  obtain ⟨es, hes, hconfirmed⟩ := settle_confirmed hw hsettle (.nil r₀) hlength
    fun _ i n hn hi => by
      -- In the beginning every body waits for its visit, so none has to be confirmed yet.
      refine absurd (mem_enqueueAll.2 (.inl ?_)) hi
      exact List.mem_range.2 (List.getElem?_eq_some_iff.1 hn).1
  refine ⟨es, hes, fun i b hb => ?_⟩
  have hname := congrArg (·[i]?) hw.names
  rw [implementations_ofProgram hc, List.getElem?_map, List.getElem?_map, hb] at hname
  obtain ⟨n, hn, hname⟩ := Option.map_eq_some_iff.1 hname
  obtain ⟨before, f, models, after, heq, hf, hafter⟩ := hconfirmed hclean i n hn
  refine ⟨n, hn, hname, before, f, models, after, heq, hf, ?_, hafter⟩
  exact isQuery_of_query_eq_ok hw (List.mem_of_getElem? hn) (hes.length_summaries.trans hlength) hf

/-! ## Conditions on variables -/

open Summary

/-- An oracle that gives the answers of a list and after them the verdict that a condition is valid,
and that keeps the formulas of the conditions. -/
def scripted : Oracle (List Answer × List Expr)
  | ([], asked), _, vc => (.outcome .correct, [], asked ++ [vc.formula])
  | (answer :: answers, asked), _, vc => (answer, answers, asked ++ [vc.formula])

/-- A body that gives the global `g` an arbitrary value. -/
def forgettingBody : Implementation :=
  ⟨⟨"P"⟩, [], [], [], [], [⟨⟨"entry"⟩, [.havoc [⟨"g"⟩]], [], .ret⟩], 0⟩

/-- A body that gives its output the value zero. -/
def zeroBody : Implementation :=
  ⟨⟨"Q"⟩, [], [⟨⟨"r"⟩, .int, none, .output⟩], [], [],
    [⟨⟨"entry"⟩, [.assign [(⟨"r"⟩, .int 0)]], [], .ret⟩], 0⟩

/-- The procedure of the first body. -/
def forgettingProcedure : Procedure := ⟨⟨"P"⟩, [], [], [], [], [⟨"g"⟩], []⟩

/-- The procedure of the second body. -/
def zeroProcedure : Procedure := ⟨⟨"Q"⟩, [], [⟨⟨"r"⟩, .int, none, .output⟩], [], [], [], []⟩

/-- A program with the two bodies, and perhaps a condition on `g`. -/
def forgetting (w : Option Expr) : Program where
  globals := [⟨⟨"g"⟩, .int, w, .global⟩]
  functions := []
  procedures := [forgettingProcedure, zeroProcedure]
  implementations := [forgettingBody, zeroBody]

/-- A condition on `g` that applies the placeholder for the second body. -/
def zeroClause : Expr := .apply ⟨"QSummaryPred"⟩ [.symbol ⟨"g"⟩, .int 0]

/-- The placeholder for the first body. -/
def forgettingPlaceholder : Placeholder :=
  ⟨⟨"P"⟩, ⟨⟨"PSummaryPred"⟩, [⟨⟨"old(g)"⟩, .int⟩, ⟨⟨"g"⟩, .int⟩], .bool⟩,
    [.old (.symbol ⟨"g"⟩), .symbol ⟨"g"⟩], [⟨"old(g)"⟩, ⟨"g"⟩],
    [.old (.symbol ⟨"g"⟩), .symbol ⟨"g"⟩]⟩

/-- The placeholder for the second body. -/
def zeroPlaceholder : Placeholder :=
  ⟨⟨"Q"⟩, ⟨⟨"QSummaryPred"⟩, [⟨⟨"old(g)"⟩, .int⟩, ⟨⟨"r"⟩, .int⟩], .bool⟩,
    [.old (.symbol ⟨"g"⟩), .symbol ⟨"r"⟩], [⟨"old(g)"⟩, ⟨"r"⟩],
    [.old (.symbol ⟨"g"⟩), .symbol ⟨"r"⟩]⟩

/-- The program with the placeholders. -/
def forgettingAttached (w : Option Expr) : Program :=
  [forgettingPlaceholder, zeroPlaceholder].foldl Program.attach (forgetting w)

/-- The condition of the first body. -/
def forgettingFormula : Option Expr → Expr
  | none => .apply ⟨"PSummaryPred"⟩ [.symbol ⟨"g"⟩, .symbol ⟨"g@0"⟩]
  | some _ => .binary .implies (.apply ⟨"QSummaryPred"⟩ [.symbol ⟨"g@0"⟩, .int 0])
      (.apply ⟨"PSummaryPred"⟩ [.symbol ⟨"g"⟩, .symbol ⟨"g@0"⟩])

/-- The first body with its condition. -/
def forgettingNode (w : Option Expr) (symbols : List (Name × Ty)) (functions : List Function) :
    Node :=
  ⟨⟨"P"⟩, [⟨"old(g)"⟩, ⟨"g"⟩], [.old (.symbol ⟨"g"⟩), .symbol ⟨"g"⟩],
    ⟨⟨"P"⟩, forgettingFormula w, symbols, functions, []⟩, [.symbol ⟨"g"⟩, .symbol ⟨"g@0"⟩], []⟩

/-- The second body with its condition. -/
def zeroNode (symbols : List (Name × Ty)) (functions : List Function) : Node :=
  ⟨⟨"Q"⟩, [⟨"old(g)"⟩, ⟨"r"⟩], [.old (.symbol ⟨"g"⟩), .symbol ⟨"r"⟩],
    ⟨⟨"Q"⟩, .apply ⟨"QSummaryPred"⟩ [.symbol ⟨"g"⟩, .int 0], symbols, functions, []⟩,
    [.symbol ⟨"g"⟩, .int 0], []⟩

/-- The system of the two bodies. -/
def forgettingSystem (w : Option Expr) (nodes : List Node) : ConditionSystem where
  program := forgettingAttached w
  nodes := nodes.map fun n => { n with
    sites := placeholderSites (nodes.map fun m => summaryPredicate m.name) n.condition.formula }
  calls := ⟨[[], []]⟩

/-- A body of one command that is entered at an empty block and asserts its summary. -/
def readied (i : Implementation) (c : Cmd) (h : Placeholder) : SingleExit :=
  ⟨{ i with
      blocks := [
        ⟨⟨"entry"⟩, [c, .assert ⟨.apply h.function.name h.args, .ensures none, none, none⟩], [1],
          .ret⟩,
        ⟨⟨"PreconditionGeneratedEntry0"⟩, [], [], .goto [0]⟩],
      entry := 1 }, 0, []⟩

/-- A procedure that ensures its summary. -/
def ensuring (q : Procedure) (h : Placeholder) : Procedure :=
  { q with ensures := [⟨.formula (.apply h.function.name h.args), false, [], none⟩] }

/-- The first body made ready. -/
def forgettingReadied : SingleExit :=
  readied forgettingBody (.havoc [⟨"g"⟩]) forgettingPlaceholder

/-- The second body made ready. -/
def zeroReadied : SingleExit := readied zeroBody (.assign [(⟨"r"⟩, .int 0)]) zeroPlaceholder

theorem prepare_forgettingBody {p : Program}
    (hp : p.procedure? ⟨"P"⟩ = some (ensuring forgettingProcedure forgettingPlaceholder)) :
    (forgettingBody.prepare p).outcome =
      .ok (ensuring forgettingProcedure forgettingPlaceholder, forgettingReadied) := by
  have hcheck : forgettingBody.check = .ok () := by cbv
  have hcheck' : forgettingReadied.body.check = .ok () := by cbv
  exact Implementation.prepare_eq_ok.2 ⟨hp, hcheck, _, _, _, _, rfl, rfl, rfl, rfl,
    hcheck', rfl, rfl⟩

theorem prepare_zeroBody (w : Option Expr) : (zeroBody.prepare (forgettingAttached w)).outcome =
    .ok (ensuring zeroProcedure zeroPlaceholder, zeroReadied) := by
  have hcheck : zeroBody.check = .ok () := by cbv
  have hcheck' : zeroReadied.body.check = .ok () := by cbv
  exact Implementation.prepare_eq_ok.2 ⟨rfl, hcheck, _, _, _, _, rfl, rfl, rfl, rfl,
    hcheck', rfl, rfl⟩

theorem exists_zeroNode (w : Option Expr) (l : Lexicon) : ∃ symbols functions l',
    (zeroPlaceholder.node (forgettingAttached w) { encoding := .inline } zeroBody).run l =
      (.ok (zeroNode symbols functions), l') := by
  obtain ⟨b, hb, hencode, hterms, hname, hg⟩ : ∃ b,
      (∀ l, (Passive.passify l true (forgettingAttached w)
        (ensuring zeroProcedure zeroPlaceholder) zeroReadied).outcome = .ok b) ∧
      (Condition.encode b.body b.order .inline).outcome =
        .ok (.apply ⟨"QSummaryPred"⟩ [.symbol ⟨"g"⟩, .int 0], []) ∧
      b.endState = .ok [.symbol ⟨"g"⟩, .int 0] ∧ b.body.name = ⟨"Q"⟩ ∧
      symbolType (forgettingAttached w) b.body [] ⟨"g"⟩ = .ok .int :=
    ⟨_, fun l => by cbv, by cbv, by cbv, by cbv, by cbv⟩
  have hnode := Placeholder.exists_node (o := { encoding := .inline }) (h := zeroPlaceholder)
    (prepare_zeroBody w) hb hencode
    (by simp [Expr.names, Expr.readsAt, Expr.readsAllAt, Expr.int, hg])
    (by simp [Expr.int, Program.function?, forgettingAttached, Program.attach, zeroPlaceholder])
    hterms rfl l
  rw [hname] at hnode
  obtain ⟨symbols, functions, -, l', -, hnode⟩ := hnode
  exact ⟨symbols, functions, l', hnode⟩

theorem exists_forgettingNode {w : Option Expr} (hw : w = none ∨ w = some zeroClause)
    (l : Lexicon) : ∃ symbols functions l',
      (forgettingPlaceholder.node (forgettingAttached w) { encoding := .inline }
        forgettingBody).run l = (.ok (forgettingNode w symbols functions), l') := by
  obtain ⟨b, hb, hencode, hterms, hname, hg, hg'⟩ : ∃ b,
      (∀ l, (Passive.passify l true (forgettingAttached w)
        (ensuring forgettingProcedure forgettingPlaceholder) forgettingReadied).outcome = .ok b) ∧
      (Condition.encode b.body b.order .inline).outcome = .ok (forgettingFormula w, []) ∧
      b.endState = .ok [.symbol ⟨"g"⟩, .symbol ⟨"g@0"⟩] ∧ b.body.name = ⟨"P"⟩ ∧
      symbolType (forgettingAttached w) b.body [] ⟨"g"⟩ = .ok .int ∧
      symbolType (forgettingAttached w) b.body [] ⟨"g@0"⟩ = .ok .int := by
    rcases hw with rfl | rfl
    · exact ⟨_, fun l => by cbv, by cbv, by cbv, by cbv, by cbv, by cbv⟩
    · exact ⟨_, fun l => by cbv, by cbv, by cbv, by cbv, by cbv, by cbv⟩
  -- Both symbols of the formula are globals, and its only function is the placeholder.
  have hnode := Placeholder.exists_node (o := { encoding := .inline }) (h := forgettingPlaceholder)
    (prepare_forgettingBody rfl) hb hencode
    (by rcases hw with rfl | rfl <;>
      simp [forgettingFormula, Expr.names, Expr.readsAt, Expr.readsAllAt, Expr.int, hg, hg'])
    (by rcases hw with rfl | rfl <;>
      simp [forgettingFormula, Expr.int, Program.function?, forgettingAttached, Program.attach,
        zeroPlaceholder, forgettingPlaceholder])
    hterms rfl l
  rw [hname] at hnode
  obtain ⟨symbols, functions, -, l', -, hnode⟩ := hnode
  exact ⟨symbols, functions, l', hnode⟩

theorem ofProgram_forgetting {w : Option Expr} (hw : w = none ∨ w = some zeroClause) :
    ∃ symbols functions symbols' functions' l,
      (ofProgram (forgetting w) { encoding := .inline }).run .initial =
        (.ok (forgettingSystem w
          [forgettingNode w symbols functions, zeroNode symbols' functions']), l) := by
  have hhs : (placeholders (forgetting w) [] (forgetting w).implementations).outcome =
      .ok [forgettingPlaceholder, zeroPlaceholder] := rfl
  have hrecord := Minting.run_record
    (placeholders (forgetting w) [] (forgetting w).implementations) .initial
  rw [hhs] at hrecord
  obtain ⟨symbols, functions, l₁, hP⟩ := exists_forgettingNode hw
    ((placeholders (forgetting w) [] (forgetting w).implementations).names.foldl Lexicon.mention
      .initial)
  obtain ⟨symbols', functions', l₂, hQ⟩ := exists_zeroNode w l₁
  refine ⟨symbols, functions, symbols', functions', l₂, NamingExcept.bind_eq_ok.2 ⟨_, _, hrecord,
    NamingExcept.bind_eq_ok.2
      ⟨[forgettingNode w symbols functions, zeroNode symbols' functions'], l₂, ?_, rfl⟩⟩⟩
  have hzip : [forgettingPlaceholder, zeroPlaceholder].zip
      ([forgettingPlaceholder, zeroPlaceholder].foldl Program.attach
        (forgetting w)).implementations =
      [(forgettingPlaceholder, forgettingBody), (zeroPlaceholder, zeroBody)] := rfl
  rw [hzip, List.mapM_cons, List.mapM_cons, List.mapM_nil]
  exact NamingExcept.bind_eq_ok.2 ⟨_, l₁, hP, NamingExcept.bind_eq_ok.2 ⟨_, l₂,
    NamingExcept.bind_eq_ok.2 ⟨_, l₂, hQ, rfl⟩, rfl⟩⟩

/-- The first body is found correct, then the second one is refuted. -/
def script : List Answer := [.outcome .correct, ⟨[([], .ofList [(⟨"g"⟩, .int 4)])], .ok .errors⟩]

/-- The run before any visit. -/
def forgettingStart : Run ConstantSummary (List Answer × List Expr) :=
  ⟨[[(⟨"g"⟩, .unobserved)], [(⟨"r"⟩, .unobserved)]], [.unprocessed, .unprocessed], 0, [],
    (script, [])⟩

theorem within_forgettingProcedure (f : Name) : forgettingProcedure.Within (.avoiding f) :=
  ⟨by simp [forgettingProcedure], by simp [forgettingProcedure], by simp [forgettingProcedure],
    by simp [forgettingProcedure], fun _ _ => trivial⟩

theorem within_forgettingBody (f : Name) : forgettingBody.Within (.avoiding f) := by
  refine ⟨by simp [forgettingBody], by simp [forgettingBody], by simp [forgettingBody],
    Implementation.forall_cmdsAt Cmd.withinAll_nil fun b hb => ?_⟩
  cases List.mem_singleton.1 hb
  exact ⟨fun _ _ => trivial, trivial⟩

/-- Nothing but the condition on `g` applies a placeholder. -/
theorem within_forgetting (w : Option Expr) (f : Name) :
    (∀ q ∈ (forgetting w).procedures, q.Within (.avoiding f)) ∧
      ∀ i ∈ (forgetting w).implementations, i.Within (.avoiding f) := by
  have hr : Variable.Within (.avoiding f) ⟨⟨"r"⟩, .int, none, .output⟩ :=
    ⟨trivial, fun _ h => (by cases h), trivial⟩
  refine ⟨fun q hq => ?_, fun i hi => ?_⟩
  · rcases List.mem_pair.1 hq with rfl | rfl
    · exact within_forgettingProcedure f
    · exact ⟨by simp [zeroProcedure], by simp [zeroProcedure, hr], by simp [zeroProcedure],
        by simp [zeroProcedure], fun _ _ => trivial⟩
  · rcases List.mem_pair.1 hi with rfl | rfl
    · exact within_forgettingBody f
    · refine ⟨by simp [zeroBody], by simp [zeroBody, hr], by simp [zeroBody],
        Implementation.forall_cmdsAt Cmd.withinAll_nil fun b hb => ?_⟩
      cases List.mem_singleton.1 hb
      refine ⟨fun p hp => ?_, trivial⟩
      cases List.mem_singleton.1 hp
      exact ⟨trivial, Expr.notMem_functions_literal⟩

theorem infer_confirmed_forgetting :
    (forgetting none).LeavesPlaceholders ∧
      ∃ c l r reports, (ofProgram (forgetting none) { encoding := .inline }).run .initial =
          (.ok c, l) ∧
        c.start (constants 5) (script, []) = .ok forgettingStart ∧
        c.infer (constants 5) scripted forgettingStart = (r, .ok reports) ∧ r.diagnostics = [] ∧
        ∃ es, c.History (constants 5) scripted forgettingStart es r ∧
          c.AllConfirmed (constants 5) (forgetting none) es r.summaries := by
  have hleaves : (forgetting none).LeavesPlaceholders := by
    intro i _
    obtain ⟨hprocedures, himplementations⟩ := within_forgetting none (summaryPredicate i.name)
    refine ⟨fun v hv => ?_, hprocedures, himplementations⟩
    cases List.mem_singleton.1 hv
    exact ⟨trivial, fun _ h => (by cases h), trivial⟩
  obtain ⟨symbols, functions, symbols', functions', l, hc⟩ := ofProgram_forgetting (.inl rfl)
  -- The run is computed, and the theorem says what it has confirmed.
  obtain ⟨r, reports, hinfer, hclean⟩ : ∃ r reports, (forgettingSystem none
      [forgettingNode none symbols functions, zeroNode symbols' functions']).infer (constants 5)
        scripted forgettingStart = (r, .ok reports) ∧ r.diagnostics = [] :=
    ⟨_, _, by cbv, by cbv⟩
  have hstart : (forgettingSystem none
      [forgettingNode none symbols functions, zeroNode symbols' functions']).start (constants 5)
        (script, []) = .ok forgettingStart := rfl
  exact ⟨hleaves, _, l, r, reports, hc, hstart, hinfer, hclean,
    infer_confirmed hleaves hc (.start hstart) hinfer hclean⟩

theorem snd_scripted (s : List Answer × List Expr) (name : String) (vc : VerificationCondition) :
    (scripted s name vc).2.2 = s.2 ++ [vc.formula] := by
  obtain ⟨_ | ⟨answer, answers⟩, asked⟩ := s <;> rfl

omit [DecidableEq S] in
/-- The formulas of all queries are kept. -/
theorem History.mem_asked {d : SummaryDomain S} {r r' : Run S (List Answer × List Expr)}
    (h : c.History d scripted r es r') {i : Nat} {f : Expr} {a : Answer} (hes : .asked i f a ∈ es) :
    f ∈ r'.oracle.2 := by
  -- A step asks at most one query, which is added to those kept, and drops none.
  have hstep : ∀ {r r' : Run S (List Answer × List Expr)} {e : Event S},
      c.Step d scripted e r r' → r.oracle.2 ⊆ r'.oracle.2 ∧
        ∀ i f a, e = .asked i f a → f ∈ r'.oracle.2 := by
    intro r r' e h
    cases h with
    | asked hn hg hask =>
      have horacle := congrArg (·.2.2) hask
      rw [snd_scripted] at horacle
      refine ⟨horacle ▸ List.subset_append_left _ _, fun i f a heq => ?_⟩
      cases heq
      exact horacle ▸ List.mem_append_right _ (List.mem_singleton_self _)
    | weakened => exact ⟨List.Subset.refl _, fun _ _ _ h => by cases h⟩
    | left => exact ⟨List.Subset.refl _, fun _ _ _ h => by cases h⟩
  have hkept : ∀ {r r' : Run S (List Answer × List Expr)} {es : List (Event S)},
      c.History d scripted r es r' → r.oracle.2 ⊆ r'.oracle.2 := by
    intro r r' es h
    induction h with
    | nil => exact List.Subset.refl _
    | cons h _ ih => exact List.Subset.trans (hstep h).1 ih
  induction h with
  | nil => cases hes
  | cons h hrest ih =>
    rcases List.mem_cons.1 hes with heq | hes
    · exact hkept hrest ((hstep h).2 _ _ _ heq.symm)
    · exact ih hes

/-- Where a condition on a global applies the placeholder of a body that is not called, inference
can end without diagnostics although a body has not been checked against the final summaries. -/
theorem infer_not_confirmed_forgetting :
    (∀ b ∈ (forgetting (some zeroClause)).implementations,
      (∀ q ∈ (forgetting (some zeroClause)).procedures,
        q.Within (.avoiding (summaryPredicate b.name))) ∧
      ∀ i ∈ (forgetting (some zeroClause)).implementations,
        i.Within (.avoiding (summaryPredicate b.name))) ∧
      ∃ c l r reports,
        (ofProgram (forgetting (some zeroClause)) { encoding := .inline }).run .initial =
          (.ok c, l) ∧
        c.start (constants 5) (script, []) = .ok forgettingStart ∧
        c.infer (constants 5) scripted forgettingStart = (r, .ok reports) ∧ r.diagnostics = [] ∧
        ∀ es, c.History (constants 5) scripted forgettingStart es r →
          ¬ c.AllConfirmed (constants 5) (forgetting (some zeroClause)) es r.summaries := by
  obtain ⟨symbols, functions, symbols', functions', l, hc⟩ := ofProgram_forgetting (.inr rfl)
  let c := forgettingSystem (some zeroClause)
    [forgettingNode (some zeroClause) symbols functions, zeroNode symbols' functions']
  obtain ⟨r, reports, n, f, hinfer, hclean, hn, hf, hnew⟩ : ∃ r reports n f,
      c.infer (constants 5) scripted forgettingStart = (r, .ok reports) ∧ r.diagnostics = [] ∧
        c.nodes[0]? = some n ∧ c.query (constants 5) r.summaries n 0 = .ok f ∧
          f ∉ r.oracle.2 :=
    ⟨_, _, _, _, by cbv, by cbv, rfl, by cbv, by decide⟩
  -- A history that confirms the first body would have asked the query that the run has not.
  refine ⟨fun b _ => within_forgetting _ _, _, l, r, reports, hc, rfl, hinfer, hclean,
    fun es hes hall => ?_⟩
  obtain ⟨n', hn', -, before, f', models, after, rfl, hf', -⟩ := hall 0 forgettingBody rfl
  cases hn.symm.trans hn'
  cases hf.symm.trans hf'
  exact hnew (hes.mem_asked (List.mem_append_right _ List.mem_cons_self))

end ConditionSystem

end Obligations
