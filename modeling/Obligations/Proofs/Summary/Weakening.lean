import Obligations.Proofs.Summary.Constants
import Obligations.Proofs.Summary.Predicates

/-!
# Joins weaken summaries

In both domains a join gives a summary that admits the end state joined and every end state that was
admitted before (`join_weakens`). For summaries by predicates this is so among the end states that
bind the names of the predicates. It fails for others: evaluation may decide a predicate without
reading all its names, so that the state can be joined, but a formula is only stated over terms for
all of them (`join_not_admits_unbound`).
-/

namespace Obligations

/-- The terms under which each name of an end state stands for itself. -/
def EndState.ownSymbols (t : EndState) : RenderContext :=
  ⟨t.entries.map fun e => (e.1, .symbol e.1)⟩

theorem EndState.ownTerms_ownSymbols (t : EndState) : t.OwnTerms t.ownSymbols := by
  -- Every name with a value stands for itself.
  have hfind : ∀ n, t.ownSymbols.find? n = (t.find? n).map fun _ => .symbol n := by
    intro n
    unfold NameMap.find? ownSymbols
    dsimp only
    induction t.entries with
    | nil => rfl
    | cons e es ih =>
      rw [List.map_cons, List.findSome?_cons, List.findSome?_cons, ih]
      dsimp only
      by_cases h : e.1 = n
      · subst h
        simp
      · simp [h]
  constructor
  · intro n
    rw [hfind]
    simp
  · intro n e he
    rw [hfind] at he
    obtain ⟨a, -, rfl⟩ := Option.map_eq_some_iff.1 he
    exact .inl rfl

namespace Summary

/-- A join weakens the summary so that it admits the end state joined and all end states that it
admitted before: in the domain of observed values among all end states, and in a domain of
predicates among those that bind the names of the predicates and give each of them a truth value. -/
theorem join_weakens : (∀ bound, (constants bound).JoinWeakens fun _ => True) ∧
    ∀ d : Predicates, d.domain.JoinWeakens d.Fits :=
  ⟨constants_joinWeakens, Predicates.domain_joinWeakens⟩

/-- One entry predicate, `old(g) > 0`, and one end predicate, `g == old(g)`. -/
def steadiness : Predicates where
  pre := [.binary .gt (.old (.symbol ⟨"g"⟩)) (.int 0)]
  post := [.binary .eq (.symbol ⟨"g"⟩) (.old (.symbol ⟨"g"⟩))]
  bound := 3
  lexicon := .initial

/-- An end state with a value of `g` on entry and at the end. -/
def fromTo (entry exit : Int) : EndState :=
  .ofList [(Name.onEntry ⟨"g"⟩, .int entry), (⟨"g"⟩, .int exit)]

theorem steadiness_fits (entry exit : Int) : steadiness.Fits (fromTo entry exit) where
  decided := by
    intro e he
    rcases List.mem_cons.mp he with rfl | he
    · exact ⟨_, rfl⟩
    · cases List.mem_singleton.1 he
      exact ⟨_, rfl⟩
  binds := by
    intro e he
    rcases List.mem_cons.mp he with rfl | he
    · constructor
      · intro n hn
        cases hn
      · intro n hn
        cases List.mem_singleton.1 hn
        rfl
    · cases List.mem_singleton.1 he
      constructor <;>
      · intro n hn
        cases List.mem_singleton.1 hn
        rfl

/-- The strongest summary that is not the least one says that `g` never changes. It is weakened by a
state in which `g` has changed from 0, and still admits states in which `g` keeps a value. -/
theorem join_weakens_steadiness :
    (∃ s, (constants 1).join [(⟨"g"⟩, .values [4])] (fromTo 0 5) = .ok s ∧
      (constants 1).Admits s (fromTo 0 5) (fromTo 0 5).ownSymbols ∧
      (constants 1).Admits s (fromTo 1 4) (fromTo 1 4).ownSymbols) ∧
    ∃ s, steadiness.domain.join (some [.always]) (fromTo 0 5) = .ok s ∧
      steadiness.domain.Admits s (fromTo 0 5) (fromTo 0 5).ownSymbols ∧
      steadiness.domain.Admits s (fromTo 1 1) (fromTo 1 1).ownSymbols := by
  -- Both domains weaken the summary, and what it admitted before is admitted still.
  constructor
  · obtain ⟨hself, hothers⟩ := join_weakens.1 1 [(⟨"g"⟩, .values [4])] _ (fromTo 0 5) rfl trivial
    refine ⟨_, rfl, hself _ (EndState.ownTerms_ownSymbols _), ?_⟩
    refine hothers _ _ trivial (EndState.ownTerms_ownSymbols _) ?_
    refine (constants_admits_iff (EndState.ownTerms_ownSymbols _)).2 ⟨fun x hx => ?_, ?_⟩
    · cases List.mem_singleton.1 hx
    · intro x vs hx
      cases List.mem_singleton.1 hx
      exact ⟨4, by decide, rfl⟩
  · obtain ⟨hself, hothers⟩ := join_weakens.2 steadiness (some [.always]) _ (fromTo 0 5) rfl
      (steadiness_fits 0 5)
    refine ⟨_, rfl, hself _ (EndState.ownTerms_ownSymbols _), ?_⟩
    refine hothers _ _ (steadiness_fits 1 1) (EndState.ownTerms_ownSymbols _) ?_
    refine (Predicates.domain_admits_iff (EndState.ownTerms_ownSymbols _)
      (steadiness_fits 1 1) _).2 fun q hq _ => ?_
    cases List.mem_singleton.1 hq
    rfl

/-- An end predicate, `true || x > 0`, that is true whatever `x` is. -/
def idle : Predicates where
  pre := []
  post := [.binary .or (.bool true) (.binary .gt (.symbol ⟨"x"⟩) (.int 0))]
  bound := 3
  lexicon := .initial

/-- An end state without a value for `x` can be joined to the least summary, but over its names the
new summary cannot be rendered, so that it does not admit the state. -/
theorem join_not_admits_unbound :
    idle.domain.bottom .empty ⟨⟨"P"⟩, [], [], [], [], [], 0⟩ = .ok none ∧
      ∃ s, idle.domain.join none .empty = .ok s ∧
        ∀ c, EndState.OwnTerms .empty c → ¬ idle.domain.Admits s .empty c := by
  refine ⟨rfl, some [.always], rfl, fun c hc => ?_⟩
  rintro ⟨e, he, -⟩
  have hnone : ∀ n, c.find? n = none := fun n =>
    Option.not_isSome_iff_eq_none.1 fun hsome => by simpa using (hc.isSome_iff n).1 hsome
  have hx : c.current? ⟨"x"⟩ = none := by
    unfold NameMap.current?
    rw [hnone, hnone]
    rfl
  -- The clause is stated over terms, and there is none for `x`.
  obtain ⟨terms, -, he⟩ := bind_eq_ok.1 he
  obtain ⟨es, hes, -⟩ := bind_eq_ok.1 he
  obtain ⟨q, hq, -⟩ := bind_eq_ok.1 (show (instantiate _ c _ >>= _) = .ok es from hes)
  have hsome := current_isSome_of_instantiate hq (n := ⟨"x"⟩) (by decide)
  rw [hx] at hsome
  cases hsome

end Summary

end Obligations
