import Obligations.Proofs.Inference.Meaning
import Obligations.Proofs.Inference.Rounds

/-!
# Inferred summaries are the strongest

Summaries under which the conditions of all bodies are valid solve a system
(`ConditionSystem.Solves`). In the domain of observed values, with the conditions of successors
copied, the summaries at every point of inference are at most those of any solution, if the oracle
refutes only what can be refuted (`ConditionSystem.forall₂_atMost_of_passes`). For a counterexample
to a query that is formed from summaries below a solution has an end state that the solution
permits, and joining a state that is permitted stays below.
-/

namespace Obligations

open Summary

variable {S σ : Type}

/-- An oracle refutes a condition only by a first model that does so. -/
def RefutesSoundly (ask : Oracle σ) : Prop :=
  ∀ oracle name vc labels m models,
    (ask oracle name vc).1 = ⟨(labels, m) :: models, .ok .errors⟩ → m.Refutes vc

/-- An oracle finds a condition correct only if the condition is valid. -/
def ConfirmsSoundly (ask : Oracle σ) : Prop :=
  ∀ oracle name vc models, (ask oracle name vc).1 = ⟨models, .ok .correct⟩ → vc.Valid

/-- An answer calls for an end state to be joined if it is a refutation with a first model that has
the end state. -/
theorem Node.exists_of_react_eq_extend {n : Node} {a : Answer} {t : EndState}
    (h : n.react a = .ok (.extend t)) : ∃ labels m models,
      a = ⟨(labels, m) :: models, .ok .errors⟩ ∧ n.project m = .ok t := by
  obtain ⟨models, result⟩ := a
  unfold react at h
  dsimp only at h
  split at h
  · cases h
  · cases h
  · split at h
    · cases h
    · next labels m models =>
      cases hproject : n.project m with
      | error e =>
        rw [hproject] at h
        cases h
      | ok t' =>
        rw [hproject] at h
        cases h
        exact ⟨labels, m, models, rfl, hproject⟩
  · cases h

namespace ConditionSystem

/-- Under the summaries, which joins lead to from the least ones, the conditions of all bodies are
valid. -/
structure Solves (c : ConditionSystem) (d : SummaryDomain S) (summaries : List S) : Prop where
  /-- There is a summary for each body, which joins lead to. -/
  reached : List.Forall₂ (fun i u => ∃ s, d.bottom c.program i = .ok s ∧ d.JoinsTo s u)
    c.program.implementations summaries
  /-- The queries formed from the summaries are valid. -/
  valid : ∀ i n, c.nodes[i]? = some n → ∃ f, c.query d summaries n i = .ok f ∧
    VerificationCondition.Valid { n.condition with formula := f }

variable {c : ConditionSystem} {d : SummaryDomain S} {ask : Oracle σ} {bound : Nat} {n : Node}
  {i : Nat} {summaries : List S}

/-! ## Points of inference -/

section

variable {r₀ r : Run S σ}

/-- A run is a point of the inference that starts from another run: the first events of the
inference lead to it. -/
def Passes (c : ConditionSystem) (d : SummaryDomain S) (ask : Oracle σ) (r₀ r : Run S σ) : Prop :=
  ∃ before after r' o, c.Worklist d ask c.calls.heights
      (enqueueAll c.calls.heights (List.range c.nodes.length) []) r₀ (before ++ after) r' o ∧
    c.History d ask r₀ before r

variable [DecidableEq S]

/-- Inference passes the run in which it ends. -/
theorem passes_infer : c.Passes d ask r (c.infer d ask r).1 := by
  obtain ⟨es, hes⟩ := settle_worklist c d ask c.calls.heights
    (enqueueAll c.calls.heights (List.range c.nodes.length) []) r
  exact ⟨es, [], _, _, by rwa [List.append_nil], hes.history⟩

/-- If the first body to be visited has a query whose answer brings an end state that changes the
summary, inference passes the run with that summary. -/
theorem passes_of_asks {rest : List Nat} {f : Expr} {answer : Answer} {oracle : σ} {t : EndState}
    {s s' : S}
    (hpending : enqueueAll c.calls.heights (List.range c.nodes.length) [] = i :: rest)
    (hn : c.nodes[i]? = some n) (hasks : c.Asks d ask n i r f answer oracle)
    (hreact : n.react answer = .ok (.extend t)) (hs : r.summaries[i]? = some s)
    (hjoin : d.join s t = .ok s') (hne : s' ≠ s) :
    c.Passes d ask r ((r.answered oracle).withSummary i s') := by
  -- The answer determines how the visit begins.
  have hrounds : ∀ {es r' o}, c.Rounds d ask n i r es r' o →
      ∃ es', es = [.asked i f answer, .weakened i s'] ++ es' := by
    intro es r' o h
    have hunique : ∀ {f' answer' oracle'}, c.Asks d ask n i r f' answer' oracle' →
        f' = f ∧ answer' = answer := by
      intro f' answer' oracle' h
      cases h.query.symm.trans hasks.query
      exact ⟨rfl, congrArg Prod.fst (h.answer.symm.trans hasks.answer)⟩
    cases h with
    | unposed he => cases hasks.query.symm.trans he
    | failed h hreact' | finished h hreact' =>
      obtain ⟨rfl, rfl⟩ := hunique h
      cases hreact.symm.trans hreact'
    | unjoined h hreact' hs' hjoin' =>
      obtain ⟨rfl, rfl⟩ := hunique h
      cases hreact.symm.trans hreact'
      cases hs.symm.trans hs'
      cases hjoin.symm.trans hjoin'
    | admitted h hreact' hs' hjoin' =>
      obtain ⟨rfl, rfl⟩ := hunique h
      cases hreact.symm.trans hreact'
      cases hs.symm.trans hs'
      exact absurd (Except.ok.inj (hjoin.symm.trans hjoin')) hne
    | weakened h hreact' hs' hjoin' _ _ =>
      obtain ⟨rfl, rfl⟩ := hunique h
      cases hreact.symm.trans hreact'
      cases hs.symm.trans hs'
      cases hjoin.symm.trans hjoin'
      exact ⟨_, rfl⟩
  have hworklist : ∀ {es r' o}, c.Worklist d ask c.calls.heights (i :: rest) r es r' o →
      ∃ es', es = [.asked i f answer, .weakened i s'] ++ es' := by
    intro es r' o h
    cases h with
    | stopped hn' h =>
      cases hn.symm.trans hn'
      exact hrounds h
    | unchanged hn' h _ _ | changed hn' h _ _ =>
      cases hn.symm.trans hn'
      obtain ⟨es', rfl⟩ := hrounds h
      exact ⟨_, List.append_assoc _ _ _⟩
    | missing hnone _ => exact absurd hn (hnone s n hs)
  obtain ⟨es, hes⟩ := settle_worklist c d ask c.calls.heights (i :: rest) r
  obtain ⟨es', rfl⟩ := hworklist hes
  refine ⟨_, es', _, _, hpending ▸ hes, ?_⟩
  exact .cons (.asked hn hasks.query hasks.answer) (.cons (.weakened hs hjoin hne) (.nil _))

/-- The runs from which summaries are inferred if all oracles are of a kind: those before any visit,
and those in which an inference has ended, whatever becomes of the oracle afterwards. -/
inductive BegunWith (sound : Oracle σ → Prop) (c : ConditionSystem) (d : SummaryDomain S) :
    Run S σ → Prop
  /-- No body has been visited. -/
  | start {oracle : σ} {r : Run S σ} : c.start d oracle = .ok r → BegunWith sound c d r
  /-- Summaries have been inferred. -/
  | again {r : Run S σ} {ask : Oracle σ} (oracle : σ) : sound ask → BegunWith sound c d r →
    BegunWith sound c d { (c.infer d ask r).1 with oracle }

end

/-! ## Summaries below a solution -/

variable {greater : List ConstantSummary} {r r' : Run ConstantSummary σ}

/-- Each summary is at most the one of a list, and keeps no more values than the bound. -/
def Below (bound : Nat) (summaries greater : List ConstantSummary) : Prop :=
  List.Forall₂ (fun s u => s.AtMost u ∧ s.Kept bound) summaries greater

theorem Below.set {summaries : List ConstantSummary} {s u : ConstantSummary}
    (h : Below bound summaries greater) (hu : greater[i]? = some u) (hs : s.AtMost u)
    (hkept : s.Kept bound) : Below bound (summaries.set i s) greater := by
  induction h generalizing i with
  | nil => exact .nil
  | cons hfirst hrest ih =>
    cases i with
    | zero =>
      cases hu
      exact .cons ⟨hs, hkept⟩ hrest
    | succ i => exact .cons hfirst (ih hu)

theorem Solves.kept {u : ConstantSummary} (hbound : 1 ≤ bound)
    (h : c.Solves (constants bound) greater) (hu : u ∈ greater) : u.Kept bound := by
  obtain ⟨b, -, s, hs, hjoins⟩ := exists_mem_of_forall₂ h.reached.flip hu
  exact (kept_of_bottom hs).joinsTo hbound hjoins

theorem Solves.length (h : c.Solves d summaries) (hw : c.Wired) :
    summaries.length = c.nodes.length := by
  have hnames := congrArg List.length hw.names
  rw [List.length_map, List.length_map] at hnames
  exact h.reached.length_eq.symm.trans hnames.symm

/-- The summaries that events change a summary to are below those of a list. -/
def EventsBelow (bound : Nat) (greater : List ConstantSummary)
    (es : List (Event ConstantSummary)) : Prop :=
  ∀ i s, .weakened i s ∈ es → ∃ u, greater[i]? = some u ∧ s.AtMost u ∧ s.Kept bound

theorem History.below_summaries {es : List (Event ConstantSummary)}
    (h : c.History (constants bound) ask r es r') (hr : Below bound r.summaries greater)
    (hes : EventsBelow bound greater es) : Below bound r'.summaries greater := by
  induction h with
  | nil => exact hr
  | cons hstep _ ih =>
    refine ih ?_ fun i s hs => hes i s (List.mem_cons_of_mem _ hs)
    cases hstep with
    | asked => exact hr
    | left => exact hr
    | weakened =>
      obtain ⟨u, hu, hle, hkept⟩ := hes _ _ List.mem_cons_self
      exact hr.set hu hle hkept

section

variable (hc : c.Polarized) (hbound : 1 ≤ bound) (hask : RefutesSoundly ask)
  (hgreater : c.Solves (constants bound) greater)

include hc hbound hask hgreater

/-- An end state that the answer to a query brings is permitted by the summary of the solution, so
that joining it stays below. -/
theorem Asks.exists_atMost {f : Expr} {answer : Answer} {oracle : σ} {t : EndState}
    {s s' : ConstantSummary} (h : c.Asks (constants bound) ask n i r f answer oracle)
    (hn : c.nodes[i]? = some n) (hr : Below bound r.summaries greater)
    (hreact : n.react answer = .ok (.extend t)) (hs : r.summaries[i]? = some s)
    (hjoin : (constants bound).join s t = .ok s') :
    ∃ u, greater[i]? = some u ∧ s'.AtMost u ∧ s'.Kept bound := by
  obtain ⟨labels, m, models, rfl, hproject⟩ := Node.exists_of_react_eq_extend hreact
  -- The model refutes the query, so with the meaning of the greater summaries it cannot refute
  -- their condition.
  obtain ⟨v, hv, hm, hfalse⟩ := hask _ _ _ _ _ _ (congrArg Prod.fst h.answer)
  have hlength := hgreater.length hc.wired
  have hquery := isQuery_of_query_eq_ok hc.wired (List.mem_of_getElem? hn)
    (hr.length_eq.trans hlength) h.query
  obtain ⟨g, hg, hvalid⟩ := hgreater.valid i n hn
  have hholds : g.Holds { v with application := c.meaning greater v } :=
    hvalid _ (c.interpretedBy_meaning ⟨hv.symbol, hv.application⟩)
  obtain ⟨u, xs, hu, hxs, hpermits⟩ := c.permits_endState hc hn (hr.imp fun _ _ => And.left)
    hlength hquery hfalse (isQuery_of_query_eq_ok hc.wired (List.mem_of_getElem? hn) hlength hg)
    hholds
  -- The end state that the greater summary permits is the one in the model.
  rw [← Node.eq_ofList_of_project hm hxs hproject] at hpermits
  obtain ⟨u', hu', hle, hkept⟩ := exists_getElem?_of_forall₂ hr hs
  cases hu.symm.trans hu'
  have huKept := hgreater.kept hbound (List.mem_of_getElem? hu)
  exact ⟨u, hu, hle.join hkept huKept hpermits hjoin, hkept.join hbound hjoin⟩

theorem Rounds.eventsBelow {es : List (Event ConstantSummary)}
    {o : Except InferenceError (Option Diagnostic)} (hn : c.nodes[i]? = some n)
    (h : c.Rounds (constants bound) ask n i r es r' o) (hr : Below bound r.summaries greater) :
    EventsBelow bound greater es := by
  induction h with
  | unposed => exact fun _ _ hs => absurd hs List.not_mem_nil
  | failed | finished | unjoined | admitted => exact fun _ _ hs => by simp at hs
  | weakened hasks hreact hs hjoin _ _ ih =>
    obtain ⟨u, hu, hle, hkept⟩ := hasks.exists_atMost hc hbound hask hgreater hn hr hreact hs hjoin
    have hrest := ih (hr.set hu hle hkept)
    intro j s' hs'
    simp only [List.mem_cons, reduceCtorEq, false_or, Event.weakened.injEq] at hs'
    rcases hs' with ⟨rfl, rfl⟩ | hs'
    · exact ⟨u, hu, hle, hkept⟩
    · exact hrest j s' hs'

theorem Worklist.eventsBelow {es : List (Event ConstantSummary)} {heights pending : List Nat}
    {o : Except InferenceError Unit}
    (h : c.Worklist (constants bound) ask heights pending r es r' o)
    (hr : Below bound r.summaries greater) : EventsBelow bound greater es := by
  have hvisit : ∀ {i n r r₁ es es' o diagnostic}, c.nodes[i]? = some n →
      c.Rounds (constants bound) ask n i r es r₁ o → Below bound r.summaries greater →
      (Below bound (r₁.visited i diagnostic).summaries greater → EventsBelow bound greater es') →
      EventsBelow bound greater (es ++ .left i diagnostic :: es') := by
    intro i n r r₁ es es' o diagnostic hn hrounds hr hrest
    have hes := hrounds.eventsBelow hc hbound hask hgreater hn hr
    have hes' := hrest ((hrounds.history hn).below_summaries hr hes)
    intro j s hs
    simp only [List.mem_append, List.mem_cons, reduceCtorEq, false_or] at hs
    exact hs.elim (hes j s) (hes' j s)
  induction h with
  | done => exact fun _ _ hs => absurd hs List.not_mem_nil
  | stopped hn hrounds => exact hrounds.eventsBelow hc hbound hask hgreater hn hr
  | unchanged hn hrounds _ _ ih => exact hvisit hn hrounds hr ih
  | changed hn hrounds _ _ ih => exact hvisit hn hrounds hr ih
  | missing _ _ ih => exact ih hr

theorem Passes.below_summaries {r₀ : Run ConstantSummary σ}
    (h : c.Passes (constants bound) ask r₀ r) (hr₀ : Below bound r₀.summaries greater) :
    Below bound r.summaries greater := by
  obtain ⟨before, after, r', o, hworklist, hhistory⟩ := h
  have hes := hworklist.eventsBelow hc hbound hask hgreater hr₀
  exact hhistory.below_summaries hr₀ fun i s hs => hes i s (List.mem_append_left _ hs)

end

/-- Before any visit the summaries are below those of every solution. -/
theorem Solves.below_start {oracle : σ} (h : c.Solves (constants bound) greater)
    (hr : c.start (constants bound) oracle = .ok r) : Below bound r.summaries greater := by
  obtain ⟨summaries, hsummaries, heq⟩ := bind_eq_ok.1 hr
  cases heq
  have hreached := h.reached
  have hbottoms := mapM_eq_ok_iff.1 hsummaries
  clear hsummaries h hr
  generalize c.program.implementations = is at hreached hbottoms
  induction hbottoms generalizing greater with
  | nil =>
    cases hreached
    exact .nil
  | cons hs _ ih =>
    cases hreached with
    | cons hfirst hrest =>
      obtain ⟨s, hs', hjoins⟩ := hfirst
      cases hs.symm.trans hs'
      exact .cons ⟨ConstantSummary.atMost_of_joinsTo hjoins, kept_of_bottom hs⟩ (ih hrest)

theorem BegunWith.below_summaries (hc : c.Polarized) (hbound : 1 ≤ bound)
    (hgreater : c.Solves (constants bound) greater)
    (h : c.BegunWith RefutesSoundly (constants bound) r) : Below bound r.summaries greater := by
  induction h with
  | start h => exact hgreater.below_start h
  | @again r ask oracle hask _ ih =>
    have hend : c.Passes (constants bound) ask r (c.infer (constants bound) ask r).1 := passes_infer
    have hbelow := hend.below_summaries hc hbound hask hgreater ih
    exact hbelow

/-- In the domain of observed values the summaries at every point of inference are at most those of
any solution: of each variable nothing has been observed, or only values that the solution has
observed, or the solution leaves it unconstrained. -/
theorem forall₂_atMost_of_passes {p : Program} {o : GenerationOptions} {l l' : Lexicon}
    {r₀ : Run ConstantSummary σ} (hp : p.LeavesPlaceholders) (hencoding : o.encoding = .inline)
    (hprogram : (ofProgram p o).run l = (.ok c, l')) (hbound : 1 ≤ bound)
    (hr₀ : c.BegunWith RefutesSoundly (constants bound) r₀) (hask : RefutesSoundly ask)
    (hgreater : c.Solves (constants bound) greater) (hr : c.Passes (constants bound) ask r₀ r) :
    List.Forall₂ ConstantSummary.AtMost r.summaries greater := by
  have hc := ofProgram_polarized hencoding hp hprogram
  have hbelow := hr.below_summaries hc hbound hask hgreater (hr₀.below_summaries hc hbound hgreater)
  exact hbelow.imp fun _ _ => And.left

/-! ## Conditions on variables -/

/-- An oracle that refutes by a model every condition that the model refutes, and no other one. -/
noncomputable def refuting (m : Model) : Oracle Unit := fun _ _ vc =>
  open Classical in (if m.Refutes vc then .refutation vc m else .outcome .inconclusive, ())

theorem refutesSoundly_refuting (m : Model) : RefutesSoundly (refuting m) := by
  intro oracle name vc labels m' models h
  unfold refuting at h
  split_ifs at h with hm
  · cases h
    exact hm
  · cases h

theorem confirmsSoundly_refuting (m : Model) : ConfirmsSoundly (refuting m) := by
  intro oracle name vc models h
  unfold refuting at h
  split_ifs at h
  · cases h
  · cases h

/-- A program with the body that gives the global `g` an arbitrary value, a condition on `g`, and a
function that has the name of the placeholder for the body. -/
def guarded (w : Name → Expr) : Program where
  globals := [⟨⟨"g"⟩, .int, some (w ⟨"g"⟩), .global⟩]
  functions := [⟨⟨"PSummaryPred"⟩, [⟨⟨"x"⟩, .int⟩, ⟨⟨"y"⟩, .int⟩], .bool⟩]
  procedures := [forgettingProcedure]
  implementations := [forgettingBody]

/-- The condition that the summary does not admit that a variable ends at five. -/
def sparing (n : Name) : Expr := .not (.apply ⟨"PSummaryPred"⟩ [.symbol n, .int 5])

/-- The condition that a variable is four. -/
def fixing (n : Name) : Expr := .binary .eq (.symbol n) (.int 4)

/-- The condition of the body. -/
def guardedFormula (w : Name → Expr) : Expr :=
  .binary .implies (w ⟨"g@0"⟩) (.apply ⟨"PSummaryPred"⟩ [.symbol ⟨"g"⟩, .symbol ⟨"g@0"⟩])

/-- The body with its condition. -/
def guardedNode (w : Name → Expr) (symbols : List (Name × Ty)) (functions : List Function) : Node :=
  ⟨⟨"P"⟩, [⟨"old(g)"⟩, ⟨"g"⟩], [.old (.symbol ⟨"g"⟩), .symbol ⟨"g"⟩],
    ⟨⟨"P"⟩, guardedFormula w, symbols, functions, []⟩, [.symbol ⟨"g"⟩, .symbol ⟨"g@0"⟩],
    placeholderSites [summaryPredicate ⟨"P"⟩] (guardedFormula w)⟩

/-- The system of the body. -/
def guardedSystem (w : Name → Expr) (symbols : List (Name × Ty)) (functions : List Function) :
    ConditionSystem where
  program := (guarded w).attach forgettingPlaceholder
  nodes := [guardedNode w symbols functions]
  calls := ⟨[[]]⟩

/-- The kinds of what the condition of the body declares. -/
def guardedSignature : Signature where
  symbol n := if n = ⟨"g"⟩ ∨ n = ⟨"g@0"⟩ then some .int else none
  function f := if f = ⟨"PSummaryPred"⟩ then some ([.int, .int], .bool) else none

theorem ofProgram_guarded {w : Name → Expr} (hw : w = sparing ∨ w = fixing) :
    ∃ symbols functions l,
      (ofProgram (guarded w) { encoding := .inline }).run .initial =
        (.ok (guardedSystem w symbols functions), l) ∧
      (guardedNode w symbols functions).condition.signature = guardedSignature ∧
      (guardedNode w symbols functions).condition.WellTyped := by
  obtain ⟨b, hb, hencode, hterms, hname, hg, hg'⟩ : ∃ b,
      (∀ l, (Passive.passify l true ((guarded w).attach forgettingPlaceholder)
        (ensuring forgettingProcedure forgettingPlaceholder) forgettingReadied).outcome = .ok b) ∧
      (Condition.encode b.body b.order .inline).outcome = .ok (guardedFormula w, []) ∧
      b.endState = .ok [.symbol ⟨"g"⟩, .symbol ⟨"g@0"⟩] ∧ b.body.name = ⟨"P"⟩ ∧
      symbolType ((guarded w).attach forgettingPlaceholder) b.body [] ⟨"g"⟩ = .ok .int ∧
      symbolType ((guarded w).attach forgettingPlaceholder) b.body [] ⟨"g@0"⟩ = .ok .int := by
    rcases hw with rfl | rfl
    · exact ⟨_, fun l => by cbv, by cbv, by cbv, by cbv, by cbv, by cbv⟩
    · exact ⟨_, fun l => by cbv, by cbv, by cbv, by cbv, by cbv, by cbv⟩
  have hnames : ∀ n, n ∈ (guardedFormula w).names ↔ n = ⟨"g"⟩ ∨ n = ⟨"g@0"⟩ := by
    intro n
    have hnames : (guardedFormula w).names = [⟨"g@0"⟩, ⟨"g"⟩, ⟨"g@0"⟩] := by
      rcases hw with rfl | rfl <;> rfl
    rw [hnames, List.mem_cons, List.mem_pair]
    tauto
  have hfunctions : ∀ f, f ∈ (guardedFormula w).functions ↔ f = ⟨"PSummaryPred"⟩ := by
    intro f
    rcases hw with rfl | rfl <;> simp [guardedFormula, sparing, fixing, Expr.not, Expr.int]
  have hnode := Placeholder.exists_node (o := { encoding := .inline }) (h := forgettingPlaceholder)
    (prepare_forgettingBody rfl) hb hencode
    (fun n hn => by rcases (hnames n).1 hn with rfl | rfl <;> exact ⟨_, ‹_›⟩)
    (fun f hf => by rw [(hfunctions f).1 hf]; rfl) hterms rfl
    ((placeholders (guarded w) [] (guarded w).implementations).names.foldl Lexicon.mention .initial)
  rw [hname] at hnode
  obtain ⟨symbols, functions, l₁, l, hclose, hnode⟩ := hnode
  -- The declarations of the condition follow from the names and functions of its formula.
  have hsignature : (guardedNode w symbols functions).condition.signature = guardedSignature := by
    refine congrArg₂ Signature.mk
      (funext fun n => (signature_symbol_of_closeFormula hclose n).trans ?_)
      (funext fun f => (signature_function_of_closeFormula hclose f).trans ?_)
    · simp only [hnames]
      split_ifs with hn
      · rcases hn with rfl | rfl
        · rw [hg]
          rfl
        · rw [hg']
          rfl
      · rfl
    · simp only [hfunctions]
      split_ifs with hf
      · rw [hf]
        rfl
      · rfl
  refine ⟨symbols, functions, l, ?_, hsignature, fun q hq => ?_, ?_⟩
  · have hrecord := Minting.run_record
      (placeholders (guarded w) [] (guarded w).implementations) .initial
    have hhs : (placeholders (guarded w) [] (guarded w).implementations).outcome =
        .ok [forgettingPlaceholder] := rfl
    rw [hhs] at hrecord
    refine NamingExcept.bind_eq_ok.2 ⟨_, _, hrecord, NamingExcept.bind_eq_ok.2
      ⟨[{ guardedNode w symbols functions with sites := [] }], l, ?_, rfl⟩⟩
    have hzip : [forgettingPlaceholder].zip
        ([forgettingPlaceholder].foldl Program.attach (guarded w)).implementations =
          [(forgettingPlaceholder, forgettingBody)] := rfl
    rw [hzip, List.mapM_cons, List.mapM_nil]
    exact NamingExcept.bind_eq_ok.2 ⟨_, l, hnode, rfl⟩
  · obtain ⟨symbols', hsymbols, heq⟩ := bind_eq_ok.1 hclose
    obtain ⟨functions', -, heq⟩ := bind_eq_ok.1 heq
    obtain rfl : symbols' = symbols := congrArg VerificationCondition.symbols (Except.ok.inj heq)
    obtain ⟨n, hn, hq⟩ := exists_mem_of_forall₂ (mapM_eq_ok_iff.1 hsymbols).flip hq
    obtain ⟨ty, hty, heq⟩ := bind_eq_ok.1 hq
    cases heq
    rcases (hnames n).1 (Lexicon.mem_sortedSet.1 hn) with rfl | rfl
    · cases hg.symm.trans hty
      rfl
    · cases hg'.symm.trans hty
      rfl
  · rw [hsignature]
    rcases hw with rfl | rfl <;> rfl

/-- The value before the body and the one after it. -/
def guardedModel : Model := .ofList [(⟨"g"⟩, .int 0), (⟨"g@0"⟩, .int 4)]

/-- The values of the model, with a placeholder that is false of everything. -/
def guardedValuation : Valuation where
  symbol n := some (if n = ⟨"g"⟩ then .int 0 else .int 4)
  application _ _ := some (.bool false)

/-- Under every interpretation of the condition of the body the formulas in it have truth values. -/
theorem decided_of_interpretedBy {vc : VerificationCondition} {v : Valuation}
    (hsignature : vc.signature = guardedSignature) (h : vc.InterpretedBy v) (k : Int) :
    (Expr.apply ⟨"PSummaryPred"⟩ [.symbol ⟨"g@0"⟩, .int 5]).Decided v ∧
      (Expr.apply ⟨"PSummaryPred"⟩ [.symbol ⟨"g"⟩, .symbol ⟨"g@0"⟩]).Decided v ∧
        (Expr.binary .eq (.symbol ⟨"g@0"⟩) (.int k)).Decided v := by
  -- Symbols are integers and the placeholder is a predicate on pairs of integers.
  have hsymbol : ∀ n, n = ⟨"g"⟩ ∨ n = ⟨"g@0"⟩ → ∃ i, (Expr.symbol n).eval v = .ok (.int i) := by
    intro n hn
    obtain ⟨_ | _, hx, hkind⟩ := h.symbol n .int (by rw [hsignature]; exact if_pos hn)
    · exact ⟨_, by rw [Expr.eval, Expr.evalAt, Valuation.read, hx]; rfl⟩
    · cases hkind
  have happly : ∀ e e' i j, e.eval v = .ok (.int i) → e'.eval v = .ok (.int j) →
      (Expr.apply ⟨"PSummaryPred"⟩ [e, e']).Decided v := by
    intro e e' i j he he'
    obtain ⟨_ | x, hx, hkind⟩ := h.application ⟨"PSummaryPred"⟩ [.int, .int] .bool [.int i, .int j]
      (by rw [hsignature]; rfl) rfl
    · cases hkind
    · exact ⟨x, Expr.eval_apply_eq_ok.2
        ⟨_, Expr.evalAllAt_eq_ok.2 (.cons he (.cons he' .nil)), hx⟩⟩
  obtain ⟨i, hi⟩ := hsymbol ⟨"g"⟩ (.inl rfl)
  obtain ⟨j, hj⟩ := hsymbol ⟨"g@0"⟩ (.inr rfl)
  exact ⟨happly _ _ j 5 hj rfl, happly _ _ i j hi hj,
    ⟨_, Expr.eval_binary_eq_ok.2 ⟨_, hj, .inr ⟨rfl, _, rfl, rfl⟩⟩⟩⟩

/-- The model refutes a condition of the body if the condition is false where the placeholder is
false of everything. -/
theorem refutes_guardedModel {vc : VerificationCondition}
    (hsignature : vc.signature = guardedSignature)
    (hfalse : vc.formula.eval guardedValuation = .ok (.bool false)) :
    guardedModel.Refutes vc := by
  refine ⟨guardedValuation, ⟨fun n k hk => ?_, fun f ks k xs hf _ => ?_⟩, fun n x hx => ?_, hfalse⟩
  · rw [hsignature] at hk
    unfold guardedSignature at hk
    dsimp only at hk
    split_ifs at hk
    cases hk
    unfold guardedValuation
    dsimp only
    split_ifs
    · exact ⟨_, rfl, rfl⟩
    · exact ⟨_, rfl, rfl⟩
  · rw [hsignature] at hf
    unfold guardedSignature at hf
    dsimp only at hf
    split_ifs at hf
    cases hf
    exact ⟨_, rfl, rfl⟩
  · have hmem := NameMap.mem_of_find?_ofList hx
    rcases List.mem_pair.1 hmem with heq | heq <;> cases heq <;> rfl

section

variable {w : Name → Expr} {symbols : List (Name × Ty)} {functions : List Function}

/-- The run before any visit. -/
def guardedStart : Run ConstantSummary Unit := ⟨[[(⟨"g"⟩, .unobserved)]], [.unprocessed], 0, [], ()⟩

/-- At the first visit to the body the end state of the model is joined to the summary. -/
theorem passes_guarded (hw : w = sparing ∨ w = fixing)
    (hsignature : (guardedNode w symbols functions).condition.signature = guardedSignature) :
    ∃ r, (guardedSystem w symbols functions).Passes (constants 5) (refuting guardedModel)
      guardedStart r ∧ r.summaries = [[(⟨"g"⟩, .values [4])]] := by
  obtain ⟨f, hf, hfalse⟩ : ∃ f, (guardedSystem w symbols functions).query (constants 5)
      [[(⟨"g"⟩, .unobserved)]] (guardedNode w symbols functions) 0 = .ok f ∧
      f.eval guardedValuation = .ok (.bool false) := by
    rcases hw with rfl | rfl
    · exact ⟨_, by cbv, by cbv⟩
    · exact ⟨_, by cbv, by cbv⟩
  let vc : VerificationCondition :=
    { (guardedNode w symbols functions).condition with formula := f }
  have hanswer : (refuting guardedModel () "P" vc).1 = .refutation vc guardedModel :=
    if_pos (refutes_guardedModel (show vc.signature = _ from hsignature) hfalse)
  have hpending : enqueueAll (guardedSystem w symbols functions).calls.heights
      (List.range (guardedSystem w symbols functions).nodes.length) [] = [0] := by cbv
  exact ⟨_, passes_of_asks hpending rfl ⟨hf, Prod.ext hanswer rfl⟩ rfl rfl rfl (by decide), rfl⟩

/-- Observing that the variable ends at five, or at four, solves the system. -/
theorem solves_guarded {k : Int} (hw : w = sparing ∧ k = 5 ∨ w = fixing ∧ k = 4)
    (hsignature : (guardedNode w symbols functions).condition.signature = guardedSignature) :
    (guardedSystem w symbols functions).Solves (constants 5) [[(⟨"g"⟩, .values [k])]] := by
  refine ⟨.cons ⟨[(⟨"g"⟩, .unobserved)], rfl, ?_⟩ .nil, fun i n hn => ?_⟩
  · exact .join .refl (t := .ofList [(⟨"g"⟩, .int k)]) (by rfl)
  · obtain ⟨rfl, rfl⟩ : i = 0 ∧ n = guardedNode w symbols functions := by
      cases i with
      | zero => exact ⟨rfl, (Option.some.inj hn).symm⟩
      | succ i => cases hn
    -- With the summary the query says that the placeholder is true where the variable ends at the
    -- value observed.
    obtain ⟨f, hf, hholds⟩ : ∃ f, (guardedSystem w symbols functions).query (constants 5)
        [[(⟨"g"⟩, .values [k])]] (guardedNode w symbols functions) 0 = .ok f ∧
        ∀ v, (Expr.apply ⟨"PSummaryPred"⟩ [.symbol ⟨"g@0"⟩, .int 5]).Decided v →
          (Expr.apply ⟨"PSummaryPred"⟩ [.symbol ⟨"g"⟩, .symbol ⟨"g@0"⟩]).Decided v →
          (Expr.binary .eq (.symbol ⟨"g@0"⟩) (.int k)).Decided v → f.Holds v := by
      rcases hw with ⟨rfl, rfl⟩ | ⟨rfl, rfl⟩
      · refine ⟨_, by cbv, ?_⟩
        rintro v ⟨x, hx⟩ ⟨y, hy⟩ ⟨z, hz⟩
        have heq : (Expr.binary .eq (.int 5) (.int 5)).eval v = .ok (.bool true) := rfl
        refine (Expr.eval_implies (Expr.eval_and (Expr.eval_iff hx heq) (Expr.eval_iff hy hz))
          (Expr.eval_implies (Expr.eval_not hx) hy)).trans ?_
        cases x <;> simp
      · refine ⟨_, by cbv, ?_⟩
        rintro v - ⟨y, hy⟩ ⟨z, hz⟩
        refine (Expr.eval_implies (Expr.eval_iff hy hz) (Expr.eval_implies hz hy)).trans ?_
        cases y <;> cases z <;> rfl
    refine ⟨f, hf, fun v hv => ?_⟩
    obtain ⟨hspared, hown, heq⟩ := decided_of_interpretedBy (show VerificationCondition.signature
      { (guardedNode w symbols functions).condition with formula := f } = _ from hsignature) hv k
    exact hholds v hspared hown heq

end

/-- Neither the contract nor the body applies a placeholder. -/
theorem within_guarded (w : Name → Expr) (f : Name) :
    (∀ q ∈ (guarded w).procedures, q.Within (.avoiding f)) ∧
      ∀ i ∈ (guarded w).implementations, i.Within (.avoiding f) :=
  ⟨List.forall_mem_singleton.2 (within_forgettingProcedure f),
    List.forall_mem_singleton.2 (within_forgettingBody f)⟩

theorem forall₂_atMost_of_passes_guarded :
    (guarded fixing).LeavesPlaceholders ∧ RefutesSoundly (refuting guardedModel) ∧
      ∃ c l r, (ofProgram (guarded fixing) { encoding := .inline }).run .initial = (.ok c, l) ∧
        c.BegunWith RefutesSoundly (constants 5) guardedStart ∧
        c.Solves (constants 5) [[(⟨"g"⟩, .values [4])]] ∧
        c.Passes (constants 5) (refuting guardedModel) guardedStart r ∧
        r.summaries = [[(⟨"g"⟩, .values [4])]] ∧
        List.Forall₂ ConstantSummary.AtMost r.summaries [[(⟨"g"⟩, .values [4])]] := by
  have hleaves : (guarded fixing).LeavesPlaceholders := by
    intro i _
    obtain ⟨hprocedures, himplementations⟩ := within_guarded fixing (summaryPredicate i.name)
    refine ⟨List.forall_mem_singleton.2 ⟨trivial, fun w hw => ?_, trivial⟩, hprocedures,
      himplementations⟩
    cases hw
    simp [Vocabulary.avoiding, fixing, Expr.int]
  have hask := refutesSoundly_refuting guardedModel
  obtain ⟨symbols, functions, l, hc, hsignature, -⟩ := ofProgram_guarded (.inr rfl)
  have hstart : (guardedSystem fixing symbols functions).start (constants 5) () =
      .ok guardedStart := rfl
  have hsolves := solves_guarded (.inr ⟨rfl, rfl⟩) hsignature
  obtain ⟨r, hpasses, hr⟩ := passes_guarded (.inr rfl) hsignature
  exact ⟨hleaves, hask, _, l, r, hc, .start hstart, hsolves, hpasses, hr,
    forall₂_atMost_of_passes hleaves rfl hc (by decide) (.start hstart) hask hsolves hpasses⟩

/-- Where a condition on a global applies the placeholder of a body, summaries can be weakened
beyond those of a solution. -/
theorem not_forall₂_atMost_of_passes_guarded :
    (∀ b ∈ (guarded sparing).implementations,
      (∀ q ∈ (guarded sparing).procedures, q.Within (.avoiding (summaryPredicate b.name))) ∧
      ∀ i ∈ (guarded sparing).implementations, i.Within (.avoiding (summaryPredicate b.name))) ∧
      RefutesSoundly (refuting guardedModel) ∧ ConfirmsSoundly (refuting guardedModel) ∧
      ∃ c l r, (ofProgram (guarded sparing) { encoding := .inline }).run .initial = (.ok c, l) ∧
        (∀ n ∈ c.nodes, n.condition.WellTyped) ∧
        c.start (constants 5) () = .ok guardedStart ∧
        c.Solves (constants 5) [[(⟨"g"⟩, .values [5])]] ∧
        c.Passes (constants 5) (refuting guardedModel) guardedStart r ∧
        ¬ List.Forall₂ ConstantSummary.AtMost r.summaries [[(⟨"g"⟩, .values [5])]] := by
  obtain ⟨symbols, functions, l, hc, hsignature, htyped⟩ := ofProgram_guarded (.inl rfl)
  have hsolves := solves_guarded (.inl ⟨rfl, rfl⟩) hsignature
  obtain ⟨r, hpasses, hr⟩ := passes_guarded (.inl rfl) hsignature
  refine ⟨fun b _ => within_guarded sparing _, refutesSoundly_refuting _,
    confirmsSoundly_refuting _, _, l, r, hc, List.forall_mem_singleton.2 htyped, rfl, hsolves,
    hpasses, fun hall => ?_⟩
  rw [hr] at hall
  obtain ⟨⟨-, hle⟩, -⟩ := List.forall₂_cons.1 (List.forall₂_cons.1 hall).1
  -- Four has been observed.
  have hmem : (4 : Int) ∈ [(5 : Int)] := hle List.mem_cons_self
  exact absurd hmem (by decide)

end ConditionSystem

end Obligations
