import Obligations.Proofs.Summary.Exactness
import Obligations.Proofs.Summary.Guards

/-!
# The least summary

The least summary of a body ought to admit no end state and to give way to the first that is met.
A summary by predicates has a form of its own for this. A summary by observed values says it with
its variables, of which none has been observed; where there is no variable to observe, the summary
that is meant to admit nothing admits everything, and no end state changes it. So the least summary
is what it ought to be exactly if the body can change a variable that holds an integer
(`bottom_admitsNothing_iff`, `bottom_not_admitsNothing_testing`).
-/

namespace Obligations

/-- A summary that admits nothing: over any terms its formula is false in every end state, and every
end state that can be joined changes it. -/
structure SummaryDomain.AdmitsNothing {S : Type} (d : SummaryDomain S) (s : S) : Prop where
  /-- The formula is false. -/
  render_false : ∀ c, ∃ e, d.render s c = .ok e ∧ ∀ t : EndState, e.eval t.valuation = .ok (.bool false)
  /-- A join changes the summary. -/
  join_ne : ∀ t s', d.join s t = .ok s' → s' ≠ s

/-- A summary that admits everything: over any terms its formula is true in every end state, and
every end state can be joined and leaves it as it is. -/
structure SummaryDomain.AdmitsEverything {S : Type} (d : SummaryDomain S) (s : S) : Prop where
  /-- The formula is true. -/
  render_true : ∀ c, ∃ e, d.render s c = .ok e ∧ ∀ t : EndState, e.eval t.valuation = .ok (.bool true)
  /-- A join leaves the summary. -/
  join_eq : ∀ t, d.join s t = .ok s

/-- No summary admits nothing and everything. -/
theorem SummaryDomain.AdmitsNothing.not_admitsEverything {S : Type} {d : SummaryDomain S} {s : S}
    (h : d.AdmitsNothing s) : ¬ d.AdmitsEverything s :=
  fun h' => h.join_ne .empty s (h'.join_eq .empty) rfl

namespace Summary

variable {bound : Nat} {p : Program} {i : Implementation} {start : ConstantSummary}

/-- The body can change a variable that holds an integer: a global that its procedure may change or
an output. -/
def ChangesInteger (p : Program) (i : Implementation) : Prop :=
  ∃ q, p.procedure? i.name = some q ∧
    ∃ v ∈ q.modifies.filterMap p.global? ++ i.outputs, v.ty = .int

theorem monitored_ne_nil_iff {q : Procedure} : monitored p q i ≠ [] ↔
    ∃ v ∈ q.modifies.filterMap p.global? ++ i.outputs, v.ty = .int := by
  have hmem : ∀ x, x ∈ monitored p q i ↔
      ∃ v ∈ q.modifies.filterMap p.global? ++ i.outputs, v.ty = .int ∧ v.name = x := by
    intro x
    rw [monitored, List.mem_eraseDups, List.mem_map]
    refine exists_congr fun v => ?_
    rw [List.mem_filter, and_assoc]
    refine and_congr_right fun _ => and_congr_left fun _ => ?_
    cases v.ty <;> simp
  constructor
  · intro hne
    obtain ⟨x, hx⟩ := List.exists_mem_of_ne_nil _ hne
    obtain ⟨v, hv, hint, -⟩ := (hmem x).1 hx
    exact ⟨v, hv, hint⟩
  · rintro ⟨v, hv, hint⟩
    exact List.ne_nil_of_mem ((hmem v.name).2 ⟨v, hv, hint, rfl⟩)

/-- The least summary by observed values has variables if the body can change an integer. -/
theorem bottom_ne_nil_iff (h : (constants bound).bottom p i = .ok start) :
    start ≠ [] ↔ ChangesInteger p i := by
  unfold constants at h
  dsimp only at h
  unfold ChangesInteger
  split at h
  next => cases h
  next q hq =>
    cases h
    rw [ne_eq, List.map_eq_nil_iff, ← ne_eq, monitored_ne_nil_iff, hq]
    simp

/-- If there are variables and none has been observed, nothing is admitted. -/
theorem constants_admitsNothing (hstart : ∀ v ∈ start, v.2 = .unobserved) (hne : start ≠ []) :
    (constants bound).AdmitsNothing start := by
  obtain ⟨v, hv⟩ := List.exists_mem_of_ne_nil start hne
  have hunobserved : (v.1, .unobserved) ∈ start := by
    rw [← hstart v hv]
    exact hv
  refine ⟨fun c => ⟨.bool false, ?_, fun _ => rfl⟩, fun t s' hjoin heq => ?_⟩
  · exact if_pos (isBottom_iff.2 ⟨v.1, hunobserved⟩)
  · -- What is known after a join is that some value was observed.
    rw [heq] at hjoin
    obtain ⟨o, k, -, -, ho⟩ := exists_of_mem_joinConstants hjoin hunobserved
    exact o.observe_ne_unobserved bound k ho.symm

/-- Without variables everything is admitted. -/
theorem constants_admitsEverything_nil : (constants bound).AdmitsEverything [] where
  render_true _ := ⟨.bool true, rfl, fun _ => rfl⟩
  join_eq _ := rfl

theorem Predicates.domain_admitsNothing (d : Predicates) : d.domain.AdmitsNothing none := by
  refine ⟨fun c => ⟨.bool false, rfl, fun _ => rfl⟩, fun t s' hjoin => ?_⟩
  obtain ⟨-, rfl⟩ := join_eq_ok_iff.1 hjoin
  exact Option.some_ne_none _

/-- The least summary by predicates admits nothing. The least summary by observed values admits
nothing exactly if the body can change a variable that holds an integer, and otherwise it admits
everything. -/
theorem bottom_admitsNothing_iff (p : Program) (i : Implementation) :
    (∀ bound start, (constants bound).bottom p i = .ok start →
      ((constants bound).AdmitsNothing start ↔ ChangesInteger p i) ∧
        ((constants bound).AdmitsEverything start ↔ ¬ ChangesInteger p i)) ∧
      ∀ d : Predicates, ∃ s, d.domain.bottom p i = .ok s ∧ d.domain.AdmitsNothing s := by
  refine ⟨fun bound start h => ?_, fun d => ⟨none, rfl, d.domain_admitsNothing⟩⟩
  rw [← bottom_ne_nil_iff h]
  by_cases hne : start = []
  · subst hne
    have hall : (constants bound).AdmitsEverything [] := constants_admitsEverything_nil
    have hnone : ¬ (constants bound).AdmitsNothing [] := fun h => h.not_admitsEverything hall
    simp [hall, hnone]
  · have hnone : (constants bound).AdmitsNothing start :=
      constants_admitsNothing (eq_unobserved_of_bottom h) hne
    simp [hnone, hnone.not_admitsEverything, hne]

theorem bottom_admitsNothing_iff_answering :
    (constants 3).bottom ⟨[], [], [answering], [answeringBody]⟩ answeringBody =
        .ok [(⟨"r"⟩, .unobserved)] ∧
      (constants 3).AdmitsNothing [(⟨"r"⟩, .unobserved)] := by
  have hbottom := bottom_answering 3
  refine ⟨hbottom, ((bottom_admitsNothing_iff _ _).1 3 _ hbottom).1.2 ?_⟩
  exact ⟨answering, rfl, _, List.mem_singleton_self _, rfl⟩

/-! ## A procedure without integers -/

/-- A procedure that answers whether something is so. -/
def testing : Procedure := ⟨⟨"P"⟩, [], [⟨⟨"r"⟩, .bool, none, .output⟩], [], [], [], []⟩

def testingBody : Implementation := ⟨⟨"P"⟩, [], [⟨⟨"r"⟩, .bool, none, .output⟩], [], [], [], 0⟩

/-- Before any end state is met, the formula of its summary by observed values is true in all of
them, and the first end state does not change it. -/
theorem bottom_not_admitsNothing_testing :
    (constants 3).bottom ⟨[], [], [testing], [testingBody]⟩ testingBody = .ok [] ∧
      (constants 3).render [] .empty = .ok (.bool true) ∧
      (constants 3).join [] (.ofList [(⟨"r"⟩, .bool true)]) = .ok [] ∧
      ¬ (constants 3).AdmitsNothing [] :=
  ⟨rfl, rfl, rfl, fun h => h.not_admitsEverything constants_admitsEverything_nil⟩

end Summary

end Obligations
