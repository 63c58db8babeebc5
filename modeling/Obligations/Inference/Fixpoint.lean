import Obligations.Inference.System
import Obligations.Summary.Domain

/-!
# Inference of summaries

Inference looks for summaries under which the conditions of all bodies hold. Every body starts with
the least summary. A visit to a body asks the oracle whether its condition follows when every
placeholder in it means the present summary of the body for which it stands; as long as the answer
is a counterexample, the end state in it is joined to the body's own summary. If a visit changes a
summary, the callers have to be visited again. Bodies of least height are visited first.

Inference ends whatever the oracle answers: a visit ends because each join that changes a summary
lowers its rank, and the visits end because each of them changes a summary or leaves fewer bodies to
be visited (`weaken_cases`, `sumOf_set_lt`).
-/

namespace Obligations

/-- An oracle with a state: the name and the condition of a query are answered, and the state
changes. -/
abbrev Oracle (σ : Type) := σ → String → VerificationCondition → Answer × σ

/-- Why a summary may not be the one that the conditions call for. -/
inductive Diagnostic where
  /-- The oracle gave no verdict, and the summary was left as it was. -/
  | noVerdict (body : Name) (outcome : Outcome)
  /-- A counterexample has an end state that the summary admits already. -/
  | noProgress (body : Name)
deriving DecidableEq, Repr

/-- The text of a diagnostic. -/
def Diagnostic.text : Diagnostic → String
  | noVerdict n o => "`" ++ n.text ++ "`: oracle answered " ++ o.text
  | noProgress n => "`" ++ n.text ++ "`: counterexample is not excluded by its summary"

/-- Whether a body has been visited. -/
inductive NodeState where
  | unprocessed
  | stable
deriving DecidableEq, Repr

/-- The text of a state. -/
def NodeState.text : NodeState → String
  | unprocessed => "unprocessed"
  | stable => "stable"

/-! ## Queries -/

variable {S σ : Type}

namespace Node

/-- What a placeholder means at a site: the predicate is equivalent to the summary there. -/
def define (n : Node) (d : SummaryDomain S) (s : S) (args : List Expr) :
    Except InferenceError Expr :=
  if args.length ≠ n.keys.length then
    .error (.fault (.placeholderArity n.name args.length n.keys.length))
  else do
    let f ← d.render s (.ofList (n.keys.zip args))
    return .binary .iff (.apply (summaryPredicate n.name) args) f

/-- The value of a term of the end state in a model. -/
def readTerm (n : Node) (m : Model) : Expr → Except InferenceError Value
  | .literal (.int i) => .ok (.int i)
  | .literal (.bool b) => .ok (.bool b)
  | .symbol x => (m.find? x).elim (.error (.fault (.noModelValue n.name x))) .ok
  | e => .error (.fault (.unreadableTerm e))

/-- The end state of a body in a model. -/
def project (n : Node) (m : Model) : Except InferenceError EndState := do
  let entries ← (n.keys.zip n.endState).mapM fun (key, e) => do
    let v ← n.readTerm m e
    return (key, v)
  return .ofList entries

/-- What an answer calls for. -/
inductive Reaction where
  /-- The visit is over, perhaps with a diagnostic. -/
  | finish (d : Option Diagnostic)
  /-- The summary has to be weakened by an end state. -/
  | extend (t : EndState)

/-- What an answer to a query about a body calls for. Of several models the first counts. -/
def react (n : Node) (a : Answer) : Except InferenceError Reaction :=
  match a.result with
  | .error e => .error (.oracle e)
  | .ok .correct => .ok (.finish none)
  | .ok .errors =>
    match a.models with
    | [] => .error (.fault (.noModel n.name))
    | (_, m) :: _ => (n.project m).map .extend
  | .ok o => .ok (.finish (some (.noVerdict n.name o)))

end Node

namespace ConditionSystem

/-- The definitions of those placeholders in the condition of a body that `which` selects. -/
def definitions (c : ConditionSystem) (d : SummaryDomain S) (summaries : List S) (n : Node)
    (which : Nat → Bool) : Except InferenceError Expr := do
  let es ← (n.sites.filter fun s => which s.1).mapM fun (target, args) =>
    match c.nodes[target]?, summaries[target]? with
    | some m, some s => m.define d s args
    | _, _ => .ok (.bool true)
  return .conjAll es

/-- The formula of a query about body `i`: with all placeholders defined by the summaries, first
those of other bodies and then its own, the condition of the body holds. -/
def query (c : ConditionSystem) (d : SummaryDomain S) (summaries : List S) (n : Node) (i : Nat) :
    Except InferenceError Expr := do
  let others ← c.definitions d summaries n (· ≠ i)
  let own ← c.definitions d summaries n (· = i)
  return (others.conj own).impl n.condition.formula

end ConditionSystem

/-! ## Visits -/

/-- The end of a visit to a body. -/
structure Visit (S σ : Type) where
  /-- The summary of the body. -/
  summary : S
  /-- Whether the summary has changed. -/
  changed : Bool
  /-- The number of queries. -/
  queries : Nat
  /-- The state of the oracle. -/
  oracle : σ
  /-- A diagnostic, or why inference stops. -/
  outcome : Except InferenceError (Option Diagnostic)

variable [DecidableEq S]

/-- Weakens the summary of a body until its condition holds or no progress is made; `v` is how far
the visit has come. -/
def weaken (d : SummaryDomain S) (ask : Oracle σ) (n : Node)
    (query : S → Except InferenceError Expr) (v : Visit S σ) : Visit S σ :=
  match query v.summary with
  | .error e => { v with outcome := .error e }
  | .ok f =>
    let (answer, oracle) := ask v.oracle n.name.text { n.condition with formula := f }
    let v := { v with queries := v.queries + 1, oracle }
    match n.react answer with
    | .error e => { v with outcome := .error e }
    | .ok (.finish diagnostic) => { v with outcome := .ok diagnostic }
    | .ok (.extend t) =>
      match _ : d.join v.summary t with
      | .error e => { v with outcome := .error e }
      | .ok s =>
        if _ : s = v.summary then { v with outcome := .ok (some (.noProgress n.name)) }
        else weaken d ask n query { v with summary := s, changed := true }
termination_by d.rank v.summary
decreasing_by exact d.rank_join ‹_› ‹_›

/-- A visit leaves the summary as it is or lowers its rank, and tells which. -/
theorem weaken_cases (d : SummaryDomain S) (ask : Oracle σ) (n : Node)
    (query : S → Except InferenceError Expr) (v : Visit S σ) :
    ((weaken d ask n query v).summary = v.summary ∧
        (weaken d ask n query v).changed = v.changed) ∨
      (d.rank (weaken d ask n query v).summary < d.rank v.summary ∧
        (weaken d ask n query v).changed = true) := by
  fun_induction weaken d ask n query v with
  | case6 v f hf answer oracle ha w t hr s hj hs ih =>
    have := d.rank_join hj hs
    obtain ⟨h1, h2⟩ | ⟨h1, h2⟩ := ih
    · exact .inr ⟨by rw [h1]; exact this, by rw [h2]⟩
    · exact .inr ⟨Nat.lt_trans h1 this, h2⟩
  | _ => exact .inl ⟨rfl, rfl⟩


/-! ## The order of visits -/

/-- How far inference has come. -/
structure Run (S σ : Type) where
  /-- The summary of each body. -/
  summaries : List S
  /-- Whether each body has been visited. -/
  states : List NodeState
  /-- The number of queries. -/
  queries : Nat
  /-- The diagnostics. -/
  diagnostics : List Diagnostic
  /-- The state of the oracle. -/
  oracle : σ

namespace ConditionSystem

/-- Inference before any visit: every body has the least summary. -/
def start (c : ConditionSystem) (d : SummaryDomain S) (oracle : σ) :
    Except InferenceError (Run S σ) := do
  let summaries ← c.program.implementations.mapM (d.bottom c.program)
  return ⟨summaries, c.nodes.map fun _ => .unprocessed, 0, [], oracle⟩

/-- Whether a body is visited before another one: it has less height, or the same and a smaller
index. -/
def isBefore (heights : List Nat) (i j : Nat) : Bool :=
  let height (k : Nat) : Nat := (heights[k]?).getD 0
  height i < height j || (height i = height j && i < j)

/-- Puts a body at its place among those to be visited, unless it is there. -/
def enqueue (heights : List Nat) (i : Nat) : List Nat → List Nat
  | [] => [i]
  | j :: js =>
    if i = j then j :: js
    else if isBefore heights i j then i :: j :: js
    else j :: enqueue heights i js

/-- Puts several bodies at their places. -/
def enqueueAll (heights : List Nat) (is pending : List Nat) : List Nat :=
  is.foldl (fun js i => enqueue heights i js) pending

/-- A visit to a body. -/
def visit (c : ConditionSystem) (d : SummaryDomain S) (ask : Oracle σ) (r : Run S σ) (n : Node)
    (i : Nat) (s : S) : Visit S σ :=
  weaken d ask n (fun s => c.query d (r.summaries.set i s) n i) ⟨s, false, 0, r.oracle, .ok none⟩

/-- The run after a visit that does not stop inference. -/
def afterVisit (r : Run S σ) (i : Nat) (v : Visit S σ) (diagnostic : Option Diagnostic) :
    Run S σ where
  summaries := r.summaries.set i v.summary
  states := r.states.set i .stable
  queries := r.queries + v.queries
  diagnostics := r.diagnostics ++ diagnostic.toList
  oracle := v.oracle

/-- A visit leaves the summary as it is or lowers its rank, and tells which. -/
theorem visit_cases (c : ConditionSystem) (d : SummaryDomain S) (ask : Oracle σ) (r : Run S σ)
    (n : Node) (i : Nat) (s : S) :
    ((c.visit d ask r n i s).summary = s ∧ (c.visit d ask r n i s).changed = false) ∨
      (d.rank (c.visit d ask r n i s).summary < d.rank s ∧
        (c.visit d ask r n i s).changed = true) :=
  weaken_cases d ask n _ _

theorem set_of_getElem? {α : Type} {l : List α} {i : Nat} {a : α} (h : l[i]? = some a) :
    l.set i a = l := by
  obtain ⟨hi, rfl⟩ := List.getElem?_eq_some_iff.1 h
  exact List.set_getElem_self hi

/-- Visits bodies until none is left to be visited or inference stops. -/
def settle (c : ConditionSystem) (d : SummaryDomain S) (ask : Oracle σ) (heights : List Nat)
    (pending : List Nat) (r : Run S σ) : Run S σ × Except InferenceError Unit :=
  match pending with
  | [] => (r, .ok ())
  | i :: rest =>
    match _ : r.summaries[i]?, c.nodes[i]? with
    | some s, some n =>
      let v := c.visit d ask r n i s
      match v.outcome with
      | .error e =>
        ({ r with summaries := r.summaries.set i v.summary, queries := r.queries + v.queries,
                  oracle := v.oracle }, .error e)
      | .ok diagnostic =>
        let next := if v.changed then
            enqueueAll heights ((c.calls.callers i).filter (· ≠ i)) rest
          else rest
        c.settle d ask heights next (afterVisit r i v diagnostic)
    | _, _ => c.settle d ask heights rest r
termination_by (sumOf d.rank r.summaries, pending.length)
decreasing_by
  -- A visit that changes the summary lowers the sum of the ranks; any other queues nothing.
  · have hs := ‹r.summaries[i]? = some s›
    obtain ⟨hsame, hchanged⟩ | ⟨hlt, _⟩ := c.visit_cases d ask r n i s
    · have : (afterVisit r i (c.visit d ask r n i s) diagnostic).summaries = r.summaries := by
        simp only [afterVisit, hsame]
        exact set_of_getElem? hs
      rw [this]
      exact Prod.Lex.right _ (by simp [hchanged])
    · exact Prod.Lex.left _ _ (sumOf_set_lt hs hlt)
  · exact Prod.Lex.right _ (by simp)

/-! ## The report -/

/-- A summary as it is reported. -/
structure SummaryReport (S : Type) where
  /-- The body. -/
  body : Name
  /-- The summary. -/
  summary : S
  /-- The summary over the names of the body, with `old` for values on entry. -/
  formula : Expr
  /-- Whether the body has been visited. -/
  state : NodeState

/-- The summaries over the names of their bodies. -/
def report (c : ConditionSystem) (d : SummaryDomain S) (r : Run S σ) :
    Except InferenceError (List (SummaryReport S)) :=
  (c.nodes.zip (r.summaries.zip r.states)).mapM fun (n, s, state) => do
    let f ← d.render s (.ofList (n.keys.zip n.ownTerms))
    return ⟨n.name, s, f, state⟩

/-- Infers summaries: visits all bodies, those of least height first, and again those whose
callees' summaries change. -/
def infer (c : ConditionSystem) (d : SummaryDomain S) (ask : Oracle σ) (r : Run S σ) :
    Run S σ × Except InferenceError (List (SummaryReport S)) :=
  let heights := c.calls.heights
  let (r, ended) := c.settle d ask heights (enqueueAll heights (List.range c.nodes.length) []) r
  (r, do
    ended
    c.report d r)

end ConditionSystem

end Obligations
