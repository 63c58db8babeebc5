import Obligations.Inference.Error
import Obligations.Expr.Subst

/-!
# Summaries

A summary of a procedure says which end states it admits. A summary domain has a least summary,
which admits nothing, weakens a summary so that it admits a given end state as well, and renders a
summary as a formula over the terms that its names stand for at some place.

Every weakening that changes a summary lowers its rank. So a summary can be weakened only so often,
whatever end states are met; this is what ends inference.
-/

namespace Obligations

/-- The sum of a measure over a list. -/
def sumOf {α : Type} (f : α → Nat) : List α → Nat
  | [] => 0
  | a :: as => f a + sumOf f as

/-- Lowering the measure of one item lowers the sum. -/
theorem sumOf_set_lt {α : Type} {f : α → Nat} {l : List α} {i : Nat} {a b : α}
    (h : l[i]? = some a) (hlt : f b < f a) : sumOf f (l.set i b) < sumOf f l := by
  induction l generalizing i with
  | nil => simp at h
  | cons x xs ih =>
    cases i with
    | zero =>
      simp only [List.getElem?_cons_zero, Option.some.injEq] at h
      simp only [List.set_cons_zero, sumOf, h]
      omega
    | succ i =>
      simp only [List.getElem?_cons_succ] at h
      have := ih h
      simp only [List.set_cons_succ, sumOf]
      omega

/-- A concrete end state of a procedure. The value of a global on entry is kept under its entry
name; parameters and changed globals have their own names. -/
abbrev EndState := NameMap Value

/-- The terms that the names of an end state stand for at one place. -/
abbrev RenderContext := NameMap Expr

/-- What a map gives for a name: a global that a procedure does not change has its value on
entry. -/
def NameMap.current? {α : Type} (m : NameMap α) (n : Name) : Option α :=
  (m.find? n).or (m.find? n.onEntry)

/-- A domain of summaries. -/
structure SummaryDomain (S : Type) where
  /-- The summary of a body that admits no end state. -/
  bottom : Program → Implementation → Except InferenceError S
  /-- The summary weakened so that it admits an end state. -/
  join : S → EndState → Except InferenceError S
  /-- The summary as a formula over terms. -/
  render : S → RenderContext → Except InferenceError Expr
  /-- A measure of how strong a summary is. -/
  rank : S → Nat
  /-- Weakening a summary lowers its rank. -/
  rank_join : ∀ {s s' : S} {t : EndState}, join s t = .ok s' → s' ≠ s → rank s' < rank s

namespace EndState

/-- An end state gives values to current names and to names on entry. -/
def valuation (t : EndState) : Valuation where
  symbol := t.current?
  onEntry n := t.find? n.onEntry

/-- The truth value of a predicate in an end state. -/
def decide (t : EndState) (p : Expr) : Except InferenceError Bool :=
  match p.eval t.valuation with
  | .ok (.bool b) => .ok b
  | .ok (.int _) => .error (.fault (.notPredicate p))
  | .error e => .error (.fault (.undefinedPredicate p e))

end EndState

/-- A predicate over the terms of a context. Of the names that stand for nothing there, the one
mentioned first is reported, a current name before a name on entry. -/
def instantiate (l : Lexicon) (c : RenderContext) (p : Expr) : Except InferenceError Expr :=
  let current := (l.sortedSet p.currentNames).find? fun n => (c.current? n).isNone
  let onEntry := (l.sortedSet p.entryNames).find? fun n => (c.find? n.onEntry).isNone
  match current.or onEntry with
  | some n => .error (.fault (.unmapped n))
  | none => .ok (p.substituteOld c.current? fun n => c.find? n.onEntry)

end Obligations
