import Mathlib.Tactic.IntervalCases
import Obligations.Proofs.Inference.Heights
import Obligations.Proofs.Inference.Rounds
import Obligations.Proofs.Inference.Termination

/-!
# The order of visits

A turn of inference is a visit to the first of the bodies that are to be visited
(`ConditionSystem.Turn`), and an inference that ends well is a sequence of turns after which none is
left (`ConditionSystem.settle_turns`). The bodies to be visited are kept in order of height, and a
visit brings back only callers of the body, none of which has less height
(`ConditionSystem.Scheduled.turn`). So the heights of the bodies visited never go down, and a body
that is no longer to be visited is brought back only for a body of its own component
(`ConditionSystem.Scheduled.turns`).
-/

namespace Obligations

variable {S σ : Type}

namespace ConditionSystem

variable {c : ConditionSystem} {d : SummaryDomain S} {ask : Oracle σ} {heights : List Nat}
  {i j k : Nat}

/-! ## The order in which bodies are kept -/

/-- Bodies are in the order in which they are to be visited, each once. -/
def InOrder (heights pending : List Nat) : Prop :=
  pending.Pairwise fun i j => isBefore heights i j = true

/-- A body is visited before another one if it has less height, or the same and a smaller index. -/
theorem isBefore_iff : isBefore heights i j = true ↔
    (heights[i]?).getD 0 < (heights[j]?).getD 0 ∨
      (heights[i]?).getD 0 = (heights[j]?).getD 0 ∧ i < j := by
  simp [isBefore]

theorem isBefore_trans (hij : isBefore heights i j = true) (hjk : isBefore heights j k = true) :
    isBefore heights i k = true := by
  rw [isBefore_iff] at *
  omega

/-- Of two bodies one is visited before the other. -/
theorem isBefore_of_not (hne : i ≠ j) (h : ¬ isBefore heights i j = true) :
    isBefore heights j i = true := by
  rw [isBefore_iff] at *
  omega

/-- A body that is visited before another one has no greater height. -/
theorem height_le_of_isBefore (h : isBefore heights i j = true) :
    (heights[i]?).getD 0 ≤ (heights[j]?).getD 0 := by
  rw [isBefore_iff] at h
  omega

/-- Bodies in order are listed once. -/
theorem InOrder.nodup {pending : List Nat} (h : InOrder heights pending) : pending.Nodup := by
  refine List.Pairwise.imp ?_ h
  rintro i j hij rfl
  rw [isBefore_iff] at hij
  omega

/-- Bodies stay in order when one is put at its place. -/
theorem InOrder.enqueue {js : List Nat} (h : InOrder heights js) (i : Nat) :
    InOrder heights (enqueue heights i js) := by
  induction js with
  | nil => exact List.pairwise_singleton _ i
  | cons j js ih =>
    obtain ⟨hj, hjs⟩ := List.pairwise_cons.1 h
    unfold ConditionSystem.enqueue
    split_ifs with hij hbefore
    · exact h
    · refine List.pairwise_cons.2 ⟨List.forall_mem_cons.2 ⟨hbefore, fun k hk => ?_⟩, h⟩
      exact isBefore_trans hbefore (hj k hk)
    · refine List.pairwise_cons.2 ⟨fun k hk => ?_, ih hjs⟩
      rcases mem_enqueue.1 hk with rfl | hk
      · exact isBefore_of_not hij hbefore
      · exact hj k hk

theorem InOrder.enqueueAll {is js : List Nat} (h : InOrder heights js) :
    InOrder heights (enqueueAll heights is js) := by
  induction is generalizing js with
  | nil => exact h
  | cons i is ih => exact ih (h.enqueue i)

/-! ## Turns -/

variable [DecidableEq S]

/-- The bodies that are to be visited after a visit, where `changed` says that it has changed the
summary of the body: those that were before and, if so, the other callers of the body. -/
def pendingAfter (c : ConditionSystem) (heights : List Nat) (i : Nat) (changed : Bool)
    (rest : List Nat) : List Nat :=
  if changed then enqueueAll heights ((c.calls.callers i).filter (· ≠ i)) rest else rest

/-- A visit that does not stop inference, to the first of the bodies to be visited. -/
inductive Turn (c : ConditionSystem) (d : SummaryDomain S) (ask : Oracle σ) (heights : List Nat) :
    List Nat × Run S σ → Nat → List Nat × Run S σ → Prop
  /-- The body is visited, and its callers are brought back if its summary changes. -/
  | visit {i : Nat} {rest : List Nat} {r : Run S σ} {s : S} {n : Node}
    {diagnostic : Option Diagnostic} :
    r.summaries[i]? = some s → c.nodes[i]? = some n →
    (c.visit d ask r n i s).outcome = .ok diagnostic →
    Turn c d ask heights (i :: rest, r) i
      (c.pendingAfter heights i (c.visit d ask r n i s).changed rest,
        afterVisit r i (c.visit d ask r n i s) diagnostic)

/-- The bodies visited in a sequence of turns. -/
inductive Turns (c : ConditionSystem) (d : SummaryDomain S) (ask : Oracle σ) (heights : List Nat) :
    List Nat × Run S σ → List Nat → List Nat × Run S σ → Prop
  /-- None. -/
  | none (x : List Nat × Run S σ) : Turns c d ask heights x [] x
  /-- One more. -/
  | more {x y z : List Nat × Run S σ} {vs : List Nat} {i : Nat} :
    Turns c d ask heights x vs y → Turn c d ask heights y i z →
    Turns c d ask heights x (vs ++ [i]) z

/-- A turn before others. -/
theorem Turns.cons {x y z : List Nat × Run S σ} {vs : List Nat}
    (hturn : c.Turn d ask heights x i y) (h : c.Turns d ask heights y vs z) :
    c.Turns d ask heights x (i :: vs) z := by
  induction h with
  | none => exact .more (.none _) hturn
  | more _ hlast ih => exact .more ih hlast

/-- What is put among the bodies to be visited are callers, and so bodies of the system. -/
theorem lt_length_of_mem_pendingAfter (hsize : c.calls.size = c.nodes.length) {rest : List Nat}
    (hrest : ∀ j ∈ rest, j < c.nodes.length) {changed : Bool} :
    ∀ j ∈ c.pendingAfter heights i changed rest, j < c.nodes.length := by
  intro j hj
  unfold pendingAfter at hj
  split_ifs at hj with hchanged
  · rcases mem_enqueueAll.1 hj with hj | hj
    · have hcaller := (List.mem_filter.1 (List.mem_filter.1 hj).1).1
      exact hsize ▸ List.mem_range.1 hcaller
    · exact hrest j hj
  · exact hrest j hj

/-- A run in which the visit to the first body to be visited stops inference. -/
structure Stops (c : ConditionSystem) (d : SummaryDomain S) (ask : Oracle σ) (r : Run S σ) (i : Nat)
    (n : Node) (e : InferenceError) : Prop where
  /-- The body. -/
  node : c.nodes[i]? = some n
  /-- The visit. -/
  visit : ∃ s, r.summaries[i]? = some s ∧ (c.visit d ask r n i s).outcome = .error e

/-- Inference makes turns until no body is left to be visited or a visit stops it. -/
theorem settle_turns_or_stops (d : SummaryDomain S) (ask : Oracle σ) (heights : List Nat)
    (hsize : c.calls.size = c.nodes.length) (pending : List Nat) (r : Run S σ)
    (hlength : r.summaries.length = c.nodes.length)
    (hpending : ∀ i ∈ pending, i < c.nodes.length) :
    (∃ vs, c.Turns d ask heights (pending, r) vs ([], (c.settle d ask heights pending r).1) ∧
      (c.settle d ask heights pending r).2 = .ok ()) ∨
    ∃ vs i rest r₁ n e, c.Turns d ask heights (pending, r) vs (i :: rest, r₁) ∧
      c.Stops d ask r₁ i n e ∧ (c.settle d ask heights pending r).2 = .error e := by
  fun_induction settle c d ask heights pending r with
  | case1 r => exact .inl ⟨[], .none _, rfl⟩
  | case2 r i rest s n hs hn v e hv =>
    exact .inr ⟨[], i, rest, r, n, e, .none _, ⟨hn, s, hs, hv⟩, rfl⟩
  | case3 r i rest s n hs hn v diagnostic hv next =>
    rename_i ih
    have hrest : ∀ j ∈ rest, j < c.nodes.length := fun j hj => hpending j (List.mem_cons_of_mem _ hj)
    have hnext : next = c.pendingAfter heights i v.changed rest := by
      simp only [next, pendingAfter, dite_eq_ite]
    have hturn : c.Turn d ask heights (i :: rest, r) i (next, afterVisit r i v diagnostic) := by
      rw [hnext]
      exact .visit hs hn hv
    rcases ih (List.length_set.trans hlength) (hnext ▸ lt_length_of_mem_pendingAfter hsize hrest) with
      ⟨vs, hvs, hend⟩ | ⟨vs, j, rest', r₁, m, e, hvs, hstops, hend⟩
    · exact .inl ⟨i :: vs, hvs.cons hturn, hend⟩
    · exact .inr ⟨i :: vs, j, rest', r₁, m, e, hvs.cons hturn, hstops, hend⟩
  | case4 r i rest hnone ih =>
    -- Every body to be visited has a summary and a condition.
    exfalso
    have hi : i < c.nodes.length := hpending i List.mem_cons_self
    exact hnone _ _ (List.getElem?_eq_getElem (hlength ▸ hi)) (List.getElem?_eq_getElem hi)

/-- An inference that does not stop early is a sequence of turns after which no body is left to be
visited. -/
theorem settle_turns (hsize : c.calls.size = c.nodes.length) (pending : List Nat) (r : Run S σ)
    (hlength : r.summaries.length = c.nodes.length) (hpending : ∀ i ∈ pending, i < c.nodes.length)
    (h : (c.settle d ask heights pending r).2 = .ok ()) :
    ∃ vs, c.Turns d ask heights (pending, r) vs ([], (c.settle d ask heights pending r).1) := by
  rcases settle_turns_or_stops d ask heights hsize pending r hlength hpending with
    ⟨vs, hvs, -⟩ | ⟨_, _, _, _, _, e, -, -, hend⟩
  · exact ⟨vs, hvs⟩
  · cases h.symm.trans hend

/-- How inference goes on after the visit to the first body to be visited. -/
theorem settle_cons {rest : List Nat} {r : Run S σ} {n : Node} {s : S}
    (hs : r.summaries[i]? = some s) (hn : c.nodes[i]? = some n) :
    c.settle d ask heights (i :: rest) r =
      match (c.visit d ask r n i s).outcome with
      | .error e => (r.during i (c.visit d ask r n i s), .error e)
      | .ok diagnostic => c.settle d ask heights
          (c.pendingAfter heights i (c.visit d ask r n i s).changed rest)
          (afterVisit r i (c.visit d ask r n i s) diagnostic) := by
  rw [settle.eq_def]
  dsimp only
  split
  · rename_i s' n' hs' hn'
    cases hs.symm.trans hs'
    cases hn.symm.trans hn'
    rfl
  · rename_i hnone
    exact absurd hn (hnone s n hs)

/-- Inference goes on as it does from where turns lead. -/
theorem Turns.settle_eq {x y : List Nat × Run S σ} {vs : List Nat}
    (h : c.Turns d ask heights x vs y) :
    c.settle d ask heights x.1 x.2 = c.settle d ask heights y.1 y.2 := by
  induction h with
  | none => rfl
  | more _ hturn ih =>
    rw [ih]
    cases hturn with
    | visit hs hn hv => rw [settle_cons hs hn, hv]

/-- A visit that stops inference does so after any turns. -/
theorem Turns.settle_eq_error {x : List Nat × Run S σ} {vs rest : List Nat} {r : Run S σ} {n : Node}
    {e : InferenceError} (h : c.Turns d ask heights x vs (i :: rest, r))
    (hstops : c.Stops d ask r i n e) : (c.settle d ask heights x.1 x.2).2 = .error e := by
  obtain ⟨hn, s, hs, hv⟩ := hstops
  rw [h.settle_eq, settle_cons hs hn, hv]

/-! ## What turns keep -/

/-- What is known of the bodies visited so far and of those that are to be visited. -/
structure Scheduled (c : ConditionSystem) (visited pending : List Nat) : Prop where
  /-- The bodies to be visited are in order. -/
  inOrder : InOrder c.calls.heights pending
  /-- The heights of the bodies visited do not go down. -/
  ascending : visited.Pairwise fun i j => c.height i ≤ c.height j
  /-- No body to be visited has less height than one that was visited. -/
  above : ∀ i ∈ visited, ∀ j ∈ pending, c.height i ≤ c.height j
  /-- A body that makes up a component is to be visited or has been visited once. -/
  once : ∀ i, i < c.nodes.length → (∀ j, c.calls.Mutual i j → j = i) →
    visited.count i = if i ∈ pending then 0 else 1

/-- A caller has no less height than the body that it calls. -/
theorem height_le_of_mem_callers (hg : c.calls.Closed) (h : j ∈ c.calls.callers i) :
    c.height i ≤ c.height j := by
  have hedge : i ∈ c.calls.successors j := CallGraph.mem_callers_iff.1 h
  by_cases hmutual : c.calls.Mutual j i
  · exact (CallGraph.height_eq_of_mutual hg hmutual).ge
  · exact (CallGraph.height_lt hg hedge hmutual).le

/-- What is to be visited after a visit, taken apart. -/
theorem mem_pendingAfter {changed : Bool} {rest : List Nat}
    (h : j ∈ c.pendingAfter heights i changed rest) :
    j ∈ rest ∨ j ∈ c.calls.callers i ∧ j ≠ i := by
  unfold pendingAfter at h
  split_ifs at h
  · rcases mem_enqueueAll.1 h with h | h
    · exact .inr ⟨(List.mem_filter.1 h).1, of_decide_eq_true (List.mem_filter.1 h).2⟩
    · exact .inl h
  · exact .inl h

theorem mem_pendingAfter_of_mem {changed : Bool} {rest : List Nat} (h : j ∈ rest) :
    j ∈ c.pendingAfter heights i changed rest := by
  unfold pendingAfter
  split_ifs
  · exact mem_enqueueAll.2 (.inr h)
  · exact h

/-- A turn keeps what is known. -/
theorem Scheduled.turn (hg : c.calls.Closed) {visited rest : List Nat} {changed : Bool}
    (h : c.Scheduled visited (i :: rest)) :
    c.Scheduled (visited ++ [i]) (c.pendingAfter c.calls.heights i changed rest) := by
  obtain ⟨hi, hrest⟩ := List.pairwise_cons.1 h.inOrder
  -- What waits after the turn is not below the body visited: it waited behind it or calls it.
  have hnext : ∀ j ∈ c.pendingAfter c.calls.heights i changed rest, c.height i ≤ c.height j := by
    intro j hj
    rcases mem_pendingAfter hj with hj | ⟨hj, -⟩
    · exact height_le_of_isBefore (hi j hj)
    · exact height_le_of_mem_callers hg hj
  have hi' : ∀ k ∈ visited, c.height k ≤ c.height i := fun k hk => h.above k hk i List.mem_cons_self
  refine ⟨?_, ?_, ?_, fun k hk hsingle => ?_⟩
  · unfold pendingAfter
    split_ifs
    · exact InOrder.enqueueAll hrest
    · exact hrest
  · refine List.pairwise_append.2 ⟨h.ascending, List.pairwise_singleton _ i, ?_⟩
    simpa using hi'
  · intro k hk j hj
    rcases List.mem_append.1 hk with hk | hk
    · exact (hi' k hk).trans (hnext j hj)
    · rw [List.mem_singleton.1 hk]
      exact hnext j hj
  · have hcount := h.once k hk hsingle
    by_cases hki : k = i
    · -- The body visited now is not brought back by its own change.
      subst hki
      have hgone : k ∉ c.pendingAfter c.calls.heights k changed rest := fun hmem => by
        rcases mem_pendingAfter hmem with hmem | ⟨-, hne⟩
        · exact (List.nodup_cons.1 h.inOrder.nodup).1 hmem
        · exact hne rfl
      rw [if_neg hgone, List.count_append, hcount, if_pos List.mem_cons_self,
        List.count_singleton_self]
    · have hone : List.count k [i] = 0 := List.count_eq_zero.2 (by simpa using hki)
      rw [List.count_append, hone, Nat.add_zero, hcount]
      by_cases hmem : k ∈ rest
      · rw [if_pos (List.mem_cons_of_mem _ hmem), if_pos (mem_pendingAfter_of_mem hmem)]
      · -- A body that was visited calls nothing that is still to be visited but in its component.
        have hvisited : k ∈ visited := by
          rw [if_neg (by simp [hki, hmem])] at hcount
          exact List.count_pos_iff.1 (by omega)
        have hgone : k ∉ c.pendingAfter c.calls.heights i changed rest := fun hback => by
          rcases mem_pendingAfter hback with hback | ⟨hcaller, -⟩
          · exact hmem hback
          · have hedge : i ∈ c.calls.successors k := CallGraph.mem_callers_iff.1 hcaller
            have hlt : c.height i < c.height k :=
              CallGraph.height_lt hg hedge fun hmutual => hki (hsingle i hmutual).symm
            have hle : c.height k ≤ c.height i := hi' k hvisited
            omega
        rw [if_neg (by simp [hki, hmem]), if_neg hgone]

/-- Turns keep what is known. -/
theorem Scheduled.turns (hg : c.calls.Closed) {x y : List Nat × Run S σ} {vs : List Nat}
    (hturns : c.Turns d ask c.calls.heights x vs y) (h : c.Scheduled [] x.1) :
    c.Scheduled vs y.1 := by
  induction hturns with
  | none => exact h
  | more _ hturn ih =>
    cases hturn with
    | visit hs hn hv => exact ih.turn hg

/-- Before the first visit all bodies are to be visited. -/
theorem scheduled_start (c : ConditionSystem) : c.Scheduled []
    (enqueueAll c.calls.heights (List.range c.nodes.length) []) where
  inOrder := InOrder.enqueueAll .nil
  ascending := .nil
  above _ h := by cases h
  once i hi _ := by
    rw [List.count_nil, if_pos (mem_enqueueAll.2 (.inl (List.mem_range.2 hi)))]

/-! ## Inference for a program -/

omit [DecidableEq S] in
/-- A system has the call graph of its program, whose bodies have different names. -/
theorem calls_ofProgram {p : Program} {o : GenerationOptions} {l l' : Lexicon}
    (hc : (ofProgram p o).run l = (.ok c, l')) :
    c.calls = CallGraph.ofProgram p ∧ (p.implementations.map (·.name)).Nodup := by
  have himplementations := implementations_ofProgram hc
  obtain ⟨hs, nodes, -, hnodup, -, rfl⟩ := ofProgram_eq_ok hc
  exact ⟨CallGraph.ofProgram_congr himplementations, hnodup⟩

/-- What is to be visited first. -/
def startPending (c : ConditionSystem) : List Nat :=
  enqueueAll c.calls.heights (List.range c.nodes.length) []

/-- A body that calls another one. -/
def callingBody : Implementation :=
  ⟨⟨"P"⟩, [], [⟨⟨"r"⟩, .int, none, .output⟩], [], [],
    [⟨⟨"entry"⟩, [.call ⟨"Q"⟩ [] [⟨"r"⟩]], [], .ret⟩], 0⟩

/-- The procedure of the body. -/
def callingProcedure : Procedure :=
  ⟨⟨"P"⟩, [], [⟨⟨"r"⟩, .int, none, .output⟩], [], [], [], []⟩

/-- A program in which one body calls another one. -/
def calling : Program where
  globals := []
  functions := []
  procedures := [callingProcedure, zeroProcedure]
  implementations := [callingBody, zeroBody]

/-- The placeholder for a body with the output `r` in a program without globals. -/
def outputPlaceholder (name : Name) : Placeholder :=
  ⟨name, ⟨summaryPredicate name, [⟨⟨"r"⟩, .int⟩], .bool⟩, [.symbol ⟨"r"⟩], [⟨"r"⟩], [.symbol ⟨"r"⟩]⟩

/-- The program with the placeholders. -/
def callingAttached : Program :=
  [outputPlaceholder ⟨"P"⟩, outputPlaceholder ⟨"Q"⟩].foldl Program.attach calling

/-- What a call of the body that is called assumes. -/
def calledScope : Cmd :=
  .scope [] [.havoc [⟨"r"⟩], .assume (.apply ⟨"QSummaryPred"⟩ [.symbol ⟨"r"⟩])]

/-- The body that calls another one with its condition. -/
def callingNode (symbols : List (Name × Ty)) (functions : List Function) : Node :=
  ⟨⟨"P"⟩, [⟨"r"⟩], [.symbol ⟨"r"⟩],
    ⟨⟨"P"⟩, .binary .implies (.apply ⟨"QSummaryPred"⟩ [.symbol ⟨"r@0"⟩])
      (.apply ⟨"PSummaryPred"⟩ [.symbol ⟨"r@0"⟩]), symbols, functions, []⟩, [.symbol ⟨"r@0"⟩], []⟩

/-- The body that is called with its condition. -/
def calledNode (symbols : List (Name × Ty)) (functions : List Function) : Node :=
  ⟨⟨"Q"⟩, [⟨"r"⟩], [.symbol ⟨"r"⟩],
    ⟨⟨"Q"⟩, .apply ⟨"QSummaryPred"⟩ [.int 0], symbols, functions, []⟩, [.int 0], []⟩

/-- The system of the two bodies. -/
def callingSystem (nodes : List Node) : ConditionSystem where
  program := callingAttached
  nodes := nodes.map fun n => { n with
    sites := placeholderSites (nodes.map fun m => summaryPredicate m.name) n.condition.formula }
  calls := ⟨[[1], []]⟩

/-- A body with the output `r` made ready, of one command after its calls are expanded. -/
def callingReadied (i : Implementation) (c : Cmd) : SingleExit :=
  readied i c (outputPlaceholder i.name)

theorem prepare_callingBody : (callingBody.prepare callingAttached).outcome =
    .ok (ensuring callingProcedure (outputPlaceholder ⟨"P"⟩),
      callingReadied callingBody calledScope) := by
  have hcheck : callingBody.check = .ok () := by cbv
  have hcheck' : (callingReadied callingBody calledScope).body.check = .ok () := by cbv
  exact Implementation.prepare_eq_ok.2 ⟨rfl, hcheck, _, _, _, _, rfl, rfl, rfl, rfl,
    hcheck', rfl, rfl⟩

theorem prepare_calledBody : (zeroBody.prepare callingAttached).outcome =
    .ok (ensuring zeroProcedure (outputPlaceholder ⟨"Q"⟩),
      callingReadied zeroBody (.assign [(⟨"r"⟩, .int 0)])) := by
  have hcheck : zeroBody.check = .ok () := by cbv
  have hcheck' : (callingReadied zeroBody (.assign [(⟨"r"⟩, .int 0)])).body.check = .ok () := by cbv
  exact Implementation.prepare_eq_ok.2 ⟨rfl, hcheck, _, _, _, _, rfl, rfl, rfl, rfl,
    hcheck', rfl, rfl⟩

theorem exists_callingNode (l : Lexicon) : ∃ symbols functions l',
    ((outputPlaceholder ⟨"P"⟩).node callingAttached { encoding := .inline } callingBody).run l =
      (.ok (callingNode symbols functions), l') := by
  obtain ⟨b, hb, hencode, hterms, hname, hr⟩ : ∃ b,
      (∀ l, (Passive.passify l true callingAttached
        (ensuring callingProcedure (outputPlaceholder ⟨"P"⟩))
        (callingReadied callingBody calledScope)).outcome = .ok b) ∧
      (Condition.encode b.body b.order .inline).outcome =
        .ok (.binary .implies (.apply ⟨"QSummaryPred"⟩ [.symbol ⟨"r@0"⟩])
          (.apply ⟨"PSummaryPred"⟩ [.symbol ⟨"r@0"⟩]), []) ∧
      b.endState = .ok [.symbol ⟨"r@0"⟩] ∧ b.body.name = ⟨"P"⟩ ∧
      symbolType callingAttached b.body [] ⟨"r@0"⟩ = .ok .int :=
    ⟨_, fun l => by cbv, by cbv, by cbv, by cbv, by cbv⟩
  -- The passive body and its formula have been computed, and the rest of the node follows.
  have hnode := Placeholder.exists_node (o := { encoding := .inline })
    (h := outputPlaceholder ⟨"P"⟩) prepare_callingBody hb hencode
    (by simp [Expr.names, Expr.readsAt, Expr.readsAllAt, hr])
    (by simp [Program.function?, callingAttached, calling, Program.attach, outputPlaceholder,
      summaryPredicate])
    hterms rfl l
  rw [hname] at hnode
  obtain ⟨symbols, functions, -, l', -, hnode⟩ := hnode
  exact ⟨symbols, functions, l', hnode⟩

theorem exists_calledNode (l : Lexicon) : ∃ symbols functions l',
    ((outputPlaceholder ⟨"Q"⟩).node callingAttached { encoding := .inline } zeroBody).run l =
      (.ok (calledNode symbols functions), l') := by
  obtain ⟨b, hb, hencode, hterms, hname⟩ : ∃ b,
      (∀ l, (Passive.passify l true callingAttached
        (ensuring zeroProcedure (outputPlaceholder ⟨"Q"⟩))
        (callingReadied zeroBody (.assign [(⟨"r"⟩, .int 0)]))).outcome = .ok b) ∧
      (Condition.encode b.body b.order .inline).outcome =
        .ok (.apply ⟨"QSummaryPred"⟩ [.int 0], []) ∧
      b.endState = .ok [.int 0] ∧ b.body.name = ⟨"Q"⟩ :=
    ⟨_, fun l => by cbv, by cbv, by cbv, by cbv⟩
  have hnode := Placeholder.exists_node (o := { encoding := .inline })
    (h := outputPlaceholder ⟨"Q"⟩) prepare_calledBody hb hencode
    (by simp [Expr.names, Expr.readsAt, Expr.readsAllAt, Expr.int])
    (by simp [Expr.int, Program.function?, callingAttached, calling, Program.attach,
      outputPlaceholder, summaryPredicate])
    hterms rfl l
  rw [hname] at hnode
  obtain ⟨symbols, functions, -, l', -, hnode⟩ := hnode
  exact ⟨symbols, functions, l', hnode⟩

theorem ofProgram_calling : ∃ symbols functions symbols' functions' l,
    (ofProgram calling { encoding := .inline }).run .initial =
      (.ok (callingSystem [callingNode symbols functions, calledNode symbols' functions']), l) := by
  have hhs : (placeholders calling [] calling.implementations).outcome =
      .ok [outputPlaceholder ⟨"P"⟩, outputPlaceholder ⟨"Q"⟩] := rfl
  have hrecord := Minting.run_record (placeholders calling [] calling.implementations) .initial
  rw [hhs] at hrecord
  obtain ⟨symbols, functions, l₁, hP⟩ := exists_callingNode
    ((placeholders calling [] calling.implementations).names.foldl Lexicon.mention .initial)
  obtain ⟨symbols', functions', l₂, hQ⟩ := exists_calledNode l₁
  refine ⟨symbols, functions, symbols', functions', l₂, NamingExcept.bind_eq_ok.2 ⟨_, _, hrecord,
    NamingExcept.bind_eq_ok.2
      ⟨[callingNode symbols functions, calledNode symbols' functions'], l₂, ?_, rfl⟩⟩⟩
  have hzip : [outputPlaceholder ⟨"P"⟩, outputPlaceholder ⟨"Q"⟩].zip
      ([outputPlaceholder ⟨"P"⟩, outputPlaceholder ⟨"Q"⟩].foldl Program.attach
        calling).implementations =
      [(outputPlaceholder ⟨"P"⟩, callingBody), (outputPlaceholder ⟨"Q"⟩, zeroBody)] := rfl
  rw [hzip, List.mapM_cons, List.mapM_cons, List.mapM_nil]
  exact NamingExcept.bind_eq_ok.2 ⟨_, l₁, hP, NamingExcept.bind_eq_ok.2 ⟨_, l₂,
    NamingExcept.bind_eq_ok.2 ⟨_, l₂, hQ, rfl⟩, rfl⟩⟩

/-- The one call is that of the second body by the first. -/
theorem calls_calling_iff : calling.Calls i j ↔ i = 0 ∧ j = 1 := by
  constructor
  · rintro ⟨a, b, ha, hb, hcall⟩
    have hi : i < 2 := (List.getElem?_eq_some_iff.1 ha).1
    have hj : j < 2 := (List.getElem?_eq_some_iff.1 hb).1
    interval_cases i <;> interval_cases j <;> cases ha <;> cases hb <;> revert hcall <;> decide
  · rintro ⟨rfl, rfl⟩
    exact ⟨callingBody, zeroBody, rfl, rfl, by decide⟩

/-- Neither body calls itself, directly or through the other one. -/
theorem sameComponent_calling (h : calling.SameComponent i j) : j = i := by
  rcases Relation.ReflTransGen.cases_head h.1 with heq | ⟨k, hk, -⟩
  · exact heq.symm
  · rcases Relation.ReflTransGen.cases_tail h.1 with heq | ⟨k', -, hk'⟩
    · exact heq
    · -- Control would have to come back from the body that is called.
      obtain ⟨rfl, -⟩ := calls_calling_iff.1 hk
      obtain ⟨-, rfl⟩ := calls_calling_iff.1 hk'
      rcases Relation.ReflTransGen.cases_head h.2 with heq | ⟨k'', hk'', -⟩
      · exact heq
      · exact absurd (calls_calling_iff.1 hk'').1 (by decide)

open Summary

/-- The run before any visit. -/
def callingStart : Run ConstantSummary (List Answer × List Expr) :=
  ⟨[[(⟨"r"⟩, .unobserved)], [(⟨"r"⟩, .unobserved)]], [.unprocessed, .unprocessed], 0, [],
    ([⟨[([], .empty)], .ok .errors⟩], [])⟩

end ConditionSystem

end Obligations
