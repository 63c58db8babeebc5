import Obligations.Proofs.Cmd.Run

/-!
# Runs under a rule for leaving scopes

A scope gives its locals arbitrary values that satisfy the conditions on them. What the variables of
these names are when the scope is left can be said in several ways, and a `Leaving` is one of them.
If the variables that the locals hide come back (`Context.close`), the runs are those of `Cmd.Runs`
(`Cmd.runsAllBy_close`). Where all names are distinct, no local hides anything, and it may as well
keep its value (`Leaving.keep`).
-/

namespace Obligations

/-- The state after a scope with some locals, from the state before it and that at its end. -/
abbrev Leaving (I : Interpretation) := List Variable → I.State → I.State → I.State

/-- The locals of a scope keep their values. -/
def Leaving.keep {I : Interpretation} : Leaving I := fun _ _ t => t

namespace Cmd

variable {I : Interpretation}

/- Runs of a command and of several commands under a rule for leaving scopes. -/
mutual

/-- A command can lead from one state to another. -/
def RunsBy (l : Leaving I) (c : Context I) : Cmd → I.State → I.State → Prop
  | scope locals cmds, s, t =>
    ∃ s' t', c.Opens locals s s' ∧ RunsAllBy l (c.enter locals) cmds s' t' ∧ t = l locals s t'
  | d, s, t => d.Runs c s t

/-- Several commands can lead, one after another, from one state to another. -/
def RunsAllBy (l : Leaving I) (c : Context I) : List Cmd → I.State → I.State → Prop
  | [], s, t => t = s
  | d :: ds, s, t => ∃ s', RunsBy l c d s s' ∧ RunsAllBy l c ds s' t

end

/- Failure of an assertion in a command and in several commands under a rule for leaving scopes. -/
mutual

/-- Some run of a command comes to its assertion of a number with the condition false. -/
def FailsBy (l : Leaving I) (c : Context I) : Cmd → Nat → I.State → Prop
  | scope locals cmds, n, s => ∃ s', c.Opens locals s s' ∧ FailsAllBy l (c.enter locals) cmds n s'
  | d, n, s => d.Fails c n s

/-- Some run of several commands comes to their assertion of a number with the condition false. -/
def FailsAllBy (l : Leaving I) (c : Context I) : List Cmd → Nat → I.State → Prop
  | [], _, _ => False
  | d :: ds, n, s =>
    FailsBy l c d n s ∨
      ∃ k s', n = d.assertions + k ∧ RunsBy l c d s s' ∧ FailsAllBy l c ds k s'

end

variable {l : Leaving I} {c : Context I} {ds es : List Cmd} {n : Nat} {s t : I.State}

/-- Commands in sequence run one after another. -/
theorem runsAllBy_append :
    RunsAllBy l c (ds ++ es) s t ↔ ∃ s', RunsAllBy l c ds s s' ∧ RunsAllBy l c es s' t := by
  induction ds generalizing s with
  | nil => simp [RunsAllBy]
  | cons d ds ih =>
    simp only [List.cons_append, RunsAllBy, ih]
    constructor
    · rintro ⟨s₁, hd, s₂, hds, hes⟩
      exact ⟨s₂, ⟨s₁, hd, hds⟩, hes⟩
    · rintro ⟨s₂, ⟨s₁, hd, hds⟩, hes⟩
      exact ⟨s₁, hd, s₂, hds, hes⟩

/-- An assertion of commands in sequence is one of the first or one of the others. -/
theorem failsAllBy_append : FailsAllBy l c (ds ++ es) n s ↔
    FailsAllBy l c ds n s ∨
      ∃ k s', n = assertionsAll ds + k ∧ RunsAllBy l c ds s s' ∧ FailsAllBy l c es k s' := by
  induction ds generalizing n s with
  | nil => simp [FailsAllBy, assertionsAll, RunsAllBy]
  | cons d ds ih =>
    simp only [List.cons_append, FailsAllBy, assertionsAll, RunsAllBy, ih]
    constructor
    · rintro (hd | ⟨k, s₁, hn, hd, hds | ⟨k', s₂, hk, hds, hes⟩⟩)
      · exact .inl (.inl hd)
      · exact .inl (.inr ⟨k, s₁, hn, hd, hds⟩)
      · exact .inr ⟨k', s₂, by omega, ⟨s₁, hd, hds⟩, hes⟩
    · rintro ((hd | ⟨k, s₁, hn, hd, hds⟩) | ⟨k', s₂, hn, ⟨s₁, hd, hds⟩, hes⟩)
      · exact .inl hd
      · exact .inr ⟨k, s₁, hn, hd, .inl hds⟩
      · exact .inr ⟨assertionsAll ds + k', s₁, by omega, hd, .inr ⟨k', s₂, rfl, hds, hes⟩⟩

mutual

/-- If hidden variables come back, the runs of a command are its runs. -/
theorem runsBy_close : ∀ (d : Cmd) (c : Context I) (s t : I.State),
    RunsBy Context.close c d s t ↔ d.Runs c s t
  | scope _ cmds, _, _, _ => exists_congr fun _ => exists_congr fun _ =>
      and_congr_right fun _ => and_congr_left fun _ => runsAllBy_close cmds _ _ _
  | assert _, _, _, _ | assume _, _, _, _ | assign _, _, _, _ | havoc _, _, _, _
  | call _ _ _, _, _, _ | comment _, _, _, _ => .rfl

/-- The same for several commands. -/
theorem runsAllBy_close : ∀ (ds : List Cmd) (c : Context I) (s t : I.State),
    RunsAllBy Context.close c ds s t ↔ RunsAll c ds s t
  | [], _, _, _ => .rfl
  | d :: ds, _, _, _ => exists_congr fun _ =>
      and_congr (runsBy_close d _ _ _) (runsAllBy_close ds _ _ _)

end

mutual

/-- If hidden variables come back, the failures of a command are its failures. -/
theorem failsBy_close : ∀ (d : Cmd) (c : Context I) (n : Nat) (s : I.State),
    FailsBy Context.close c d n s ↔ d.Fails c n s
  | scope _ cmds, _, _, _ => exists_congr fun _ =>
      and_congr_right fun _ => failsAllBy_close cmds _ _ _
  | assert _, _, _, _ | assume _, _, _, _ | assign _, _, _, _ | havoc _, _, _, _
  | call _ _ _, _, _, _ | comment _, _, _, _ => .rfl

/-- The same for several commands. -/
theorem failsAllBy_close : ∀ (ds : List Cmd) (c : Context I) (n : Nat) (s : I.State),
    FailsAllBy Context.close c ds n s ↔ FailsAll c ds n s
  | [], _, _, _ => .rfl
  | d :: ds, _, _, _ => or_congr (failsBy_close d _ _ _) <| exists_congr fun _ =>
      exists_congr fun _ => and_congr_right fun _ =>
        and_congr (runsBy_close d _ _ _) (failsAllBy_close ds _ _ _)

end

end Cmd

end Obligations
