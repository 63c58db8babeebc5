import Obligations.Summary.Domain
import Obligations.Summary.Antichain

/-!
# Summaries by predicates

The user gives predicates on entry states and predicates on end states. A summary has a clause for
each end predicate, which says that the end predicate holds wherever the clause's antecedent does,
a disjunction of conjunctions of signed entry predicates. An end state that refutes an end predicate
excludes its entry state from the antecedent.
-/

namespace Obligations.Summary

/-- The predicates of a domain. -/
structure Predicates where
  /-- The predicates on entry states. -/
  pre : List Expr
  /-- The predicates on end states. -/
  post : List Expr
  /-- How many entry predicates a conjunction may have. -/
  bound : Nat
  /-- The order in which missing names are reported. -/
  lexicon : Lexicon

/-- A summary over some predicates: the antecedent of each clause, and `none` before the first end
state. -/
abbrev PredicateSummary (d : Predicates) := Option (List (Antichain d.pre.length d.bound))

/-- The predicates that the template procedures of a program declare. -/
def templatePredicates (p : Program) (bound : Nat) (l : Lexicon) :
    Except InferenceError Predicates := do
  let clauses ← (p.procedures.filter (·.hasAttribute ⟨"template"⟩)).mapM fun q =>
    q.ensures.mapM fun e =>
      match e.condition with
      | .formula f => .ok (e.hasAttribute ⟨"pre"⟩, f)
      | .blocks _ => .error (.fault (.blocksInTemplate q.name))
  let pick (pre : Bool) : List Expr :=
    clauses.flatten.filterMap fun c => if c.1 = pre then some c.2 else none
  return ⟨pick true, pick false, bound, l⟩

variable {n bound : Nat}

/-- The clauses after an end state, in which the entry predicates have the given truth values. -/
def joinClauses (v : Signs n) (holds : List Bool) (cs : List (Antichain n bound)) :
    List (Antichain n bound) :=
  match cs, holds with
  | c :: cs, b :: bs => (if b then c else c.exclude v) :: joinClauses v bs cs
  | cs, _ => cs

/-- The number of valuations that satisfy the antecedents, counted for each clause. -/
def clausesWeight (cs : List (Antichain n bound)) : Nat := sumOf Antichain.weight cs

theorem joinClauses_eq_or_weight_lt (v : Signs n) (holds : List Bool)
    (cs : List (Antichain n bound)) :
    joinClauses v holds cs = cs ∨ clausesWeight (joinClauses v holds cs) < clausesWeight cs := by
  induction cs generalizing holds with
  | nil => simp [joinClauses]
  | cons c cs ih =>
    cases holds with
    | nil => exact .inl rfl
    | cons b bs =>
      have hc : (if b then c else c.exclude v) = c ∨
          (if b then c else c.exclude v).weight < c.weight := by
        cases b with
        | true => exact .inl rfl
        | false =>
          by_cases h : c.exclude v = c
          · exact .inl (by simpa using h)
          · exact .inr (by simpa using Antichain.weight_exclude_lt h)
      simp only [joinClauses, clausesWeight, sumOf] at *
      obtain hc | hc := hc <;> obtain ih | ih := ih bs
      · exact .inl (by rw [hc, ih])
      · exact .inr (by rw [hc]; omega)
      · exact .inr (by rw [ih]; omega)
      · exact .inr (by omega)

theorem clausesWeight_le (cs : List (Antichain n bound)) :
    clausesWeight cs ≤ cs.length * (Antichain.allSigns n).length := by
  induction cs with
  | nil => simp [clausesWeight, sumOf]
  | cons c cs ih =>
    have := c.weight_le
    simp only [clausesWeight, sumOf, List.length_cons, Nat.succ_mul] at *
    omega

namespace Predicates

/-- How often a summary can still change. -/
def rank (d : Predicates) : PredicateSummary d → Nat
  | none => 1 + d.post.length * (Antichain.allSigns d.pre.length).length
  | some cs => clausesWeight cs

/-- The clauses before the first end state: every end predicate, without a premise. -/
def strongest (d : Predicates) : List (Antichain d.pre.length d.bound) :=
  List.replicate d.post.length .always

/-- The summary after a further end state. -/
def join (d : Predicates) (s : PredicateSummary d) (t : EndState) :
    Except InferenceError (PredicateSummary d) := do
  let pre ← d.pre.mapM t.decide
  let post ← d.post.mapM t.decide
  return some (joinClauses (Antichain.signsOf d.pre.length pre) post (s.getD d.strongest))

theorem rank_join (d : Predicates) {s s' : PredicateSummary d} {t : EndState}
    (h : d.join s t = .ok s') (hne : s' ≠ s) : d.rank s' < d.rank s := by
  unfold join at h
  cases hp : d.pre.mapM t.decide with
  | error e => rw [hp] at h; cases h
  | ok pre =>
    cases hq : d.post.mapM t.decide with
    | error e => rw [hp, hq] at h; cases h
    | ok post =>
      rw [hp, hq] at h
      cases h
      have key := joinClauses_eq_or_weight_lt (Antichain.signsOf d.pre.length pre) post
        (s.getD d.strongest)
      cases s with
      | some cs =>
        obtain h | h := key
        · exact absurd (congrArg some h) hne
        · exact h
      | none =>
        have hb := clausesWeight_le d.strongest
        simp only [strongest, List.length_replicate] at hb
        simp only [rank, Option.getD_none] at key ⊢
        obtain h | h := key
        · rw [h]; simp only [strongest]; omega
        · simp only [strongest] at h ⊢; omega

/-- The text of a conjunction: the predicates that occur, then those that occur negated. -/
def conjunctText (d : Predicates) (c : Conjunct d.pre.length) : String :=
  let signed := d.pre.zip c.toList
  let pick (sign : Bool) (mark : String) : List String :=
    signed.filterMap fun (e, s) => if s = some sign then some (mark ++ e.text) else none
  " && ".intercalate (pick true "" ++ pick false "!")

/-- The text of a clause. -/
def clauseText (d : Predicates) (c : Antichain d.pre.length d.bound) (post : Expr) : String :=
  if c.isAlways then post.text
  else "(" ++ " || ".intercalate (c.conjuncts.map d.conjunctText) ++ " ==> " ++ post.text ++ ")"

/-- The text of a summary. Clauses that say nothing are left out. -/
def text (d : Predicates) : PredicateSummary d → String
  | none => "false"
  | some cs =>
    let parts := (cs.zip d.post).filterMap fun (c, post) =>
      if c.conjuncts.isEmpty then none else some (d.clauseText c post)
    if parts.isEmpty then "true" else " && ".intercalate parts

/-- The entry predicates that occur in some clause, each as a formula over terms. -/
def renderPre (d : Predicates) (c : RenderContext) (cs : List (Antichain d.pre.length d.bound)) :
    Except InferenceError (List (Option Expr)) :=
  d.pre.zipIdx.mapM fun (e, i) =>
    if cs.any fun a => a.conjuncts.any fun k => (k.toList[i]?.join).isSome then
      (instantiate d.lexicon c e).map some
    else .ok none

/-- A conjunction as a formula over the given formulas for the entry predicates. -/
def renderConjunct (terms : List (Option Expr)) (c : Conjunct n) : Expr :=
  .conjAll ((terms.zip c.toList).filterMap fun (e, s) =>
    match e, s with
    | some e, some true => some e
    | some e, some false => some e.not
    | _, _ => none)

/-- The clauses as formulas. Clauses that say nothing are left out. -/
def renderClauses (d : Predicates) (c : RenderContext) (terms : List (Option Expr)) :
    List (Antichain d.pre.length d.bound × Expr) → Except InferenceError (List Expr)
  | [] => .ok []
  | (a, post) :: rest =>
    if a.conjuncts.isEmpty then d.renderClauses c terms rest
    else do
      let q ← instantiate d.lexicon c post
      let es ← d.renderClauses c terms rest
      return (Expr.disjAny (a.conjuncts.map (renderConjunct terms))).impl q :: es

/-- The formula of a summary over terms. -/
def render (d : Predicates) (s : PredicateSummary d) (c : RenderContext) :
    Except InferenceError Expr :=
  match s with
  | none => .ok (.bool false)
  | some cs => do
    let terms ← d.renderPre c cs
    let es ← d.renderClauses c terms (cs.zip d.post)
    return .conjAll es

/-- The domain of summaries over these predicates. -/
def domain (d : Predicates) : SummaryDomain (PredicateSummary d) where
  bottom _ _ := .ok none
  join := d.join
  render := d.render
  rank := d.rank
  rank_join := d.rank_join

end Predicates

end Obligations.Summary
