import Mathlib.Logic.Function.Basic
import Obligations.Cmd
import Obligations.Passive.Liveness
import Obligations.Proofs.NameMap
import Obligations.Proofs.Expr.Interpretation

/-!
# Runs of commands

A command relates the states before and after it (`Cmd.Runs`): an assumption lets only some states
pass, an assignment evaluates all its right sides before it stores them, and variables get arbitrary
values that satisfy the conditions on them. An assertion lets every state pass; that some run comes
to it with its condition false is said by `Cmd.Fails`, which counts the assertions in the order in
which they are written. Commands in sequence run one after another (`Cmd.runsAll_append`,
`Cmd.failsAll_append`).
-/

namespace Obligations

/-- A value for every name. -/
abbrev Interpretation.State (I : Interpretation) := Name → I.Carrier

/-- What is fixed while commands run. -/
structure Context (I : Interpretation) where
  /-- The declarations in force. -/
  declarations : Declarations
  /-- The names that denote their values on entry under `old`. -/
  modified : List Name
  /-- The state on entry. -/
  entry : I.State

namespace Context

variable {I : Interpretation}

/-- What names denote in a state. -/
def reading (c : Context I) (s : I.State) : I.Reading
  | .current, x => some (s x)
  | .entry, x => some (if x ∈ c.modified then c.entry x else s x)

/-- The value of an expression in a state. -/
def value (c : Context I) (s : I.State) (e : Expr) : Option I.Carrier := I.value (c.reading s) e

/-- A formula is true in a state. -/
def Holds (c : Context I) (s : I.State) (e : Expr) : Prop := c.value s e = some I.truth

/-- The condition on a variable. -/
def whereClause? (c : Context I) (x : Name) : Option Expr :=
  (c.declarations.find? x).bind (·.whereClause)

/-- The locals of a scope come into force. They hide variables of the same names. -/
def enter (c : Context I) (locals : List Variable) : Context I where
  declarations := c.declarations.insertAll (locals.map fun v => (v.name, v))
  modified := c.modified.filter (· ∉ locals.map (·.name))
  entry := c.entry

/-- The values of right sides in one state, stored one after another in another. -/
def Assigns (c : Context I) (s : I.State) : List (Name × Expr) → I.State → I.State → Prop
  | [], s', t => t = s'
  | (x, e) :: pairs, s', t =>
    ∃ a, c.value s e = some a ∧ c.Assigns s pairs (Function.update s' x a) t

/-- Some variables get arbitrary values that satisfy the conditions on them. -/
def Havocs (c : Context I) (xs : List Name) (s t : I.State) : Prop :=
  (∀ x, x ∉ xs → t x = s x) ∧ ∀ x ∈ xs, ∀ w, c.whereClause? x = some w → c.Holds t w

/-- The locals of a scope get arbitrary values that satisfy the conditions on them. -/
def Opens (c : Context I) (locals : List Variable) (s t : I.State) : Prop :=
  (∀ x, x ∉ locals.map (·.name) → t x = s x) ∧
    ∀ v ∈ locals, ∀ w, v.whereClause = some w → (c.enter locals).Holds t w

/-- Leaving a scope brings back the variables that its locals hide. -/
def close (locals : List Variable) (s t : I.State) : I.State := fun x =>
  if x ∈ locals.map (·.name) then s x else t x

/-- An assignment can be made if all right sides have values, and stores at each name the value of
the last right side for it. -/
theorem assigns_iff {c : Context I} {s s' t : I.State} {pairs : List (Name × Expr)} :
    c.Assigns s pairs s' t ↔ (∀ p ∈ pairs, ∃ a, c.value s p.2 = some a) ∧
      ∀ x, some (t x) =
        ((NameMap.ofList pairs).find? x).elim (some (s' x)) (c.value s) := by
  induction pairs generalizing s' with
  | nil => simp [Assigns, funext_iff]
  | cons p pairs ih =>
    obtain ⟨y, e⟩ := p
    simp only [Assigns, ih, List.forall_mem_cons]
    -- The store at the first name stands unless the others store there too.
    have hstore : ∀ a, c.value s e = some a → ∀ x,
        ((NameMap.ofList ((y, e) :: pairs)).find? x).elim (some (s' x)) (c.value s) =
          ((NameMap.ofList pairs).find? x).elim (some (Function.update s' y a x)) (c.value s) := by
      intro a ha x
      rw [NameMap.find?_ofList_cons]
      cases (NameMap.ofList pairs).find? x with
      | some e' => rfl
      | none =>
        by_cases hx : x = y
        · simp [hx, ha]
        · simp [hx]
    constructor
    · rintro ⟨a, ha, hall, ht⟩
      exact ⟨⟨⟨a, ha⟩, hall⟩, fun x => by rw [hstore a ha x]; exact ht x⟩
    · rintro ⟨⟨⟨a, ha⟩, hall⟩, ht⟩
      exact ⟨a, ha, hall, fun x => by rw [← hstore a ha x]; exact ht x⟩

/-- Inside a scope a name that is no local denotes what it denotes outside in a state in which it
has the same value. -/
theorem reading_enter {c : Context I} {locals : List Variable} {s t : I.State} {x : Name}
    (hlocal : x ∉ locals.map (·.name)) (hst : t x = s x) (m : Moment) :
    (c.enter locals).reading t m x = c.reading s m x := by
  have hmodified : x ∈ (c.enter locals).modified ↔ x ∈ c.modified := by
    unfold enter
    rw [List.mem_filter]
    simpa using fun _ => hlocal
  cases m with
  | current => rw [reading, reading, hst]
  | entry =>
    rw [reading, reading, hst]
    simp only [hmodified]
    rfl

/-- A scope does not change the conditions on variables that it does not hide. -/
theorem whereClause?_enter {c : Context I} {locals : List Variable} {x : Name}
    (h : x ∉ locals.map (·.name)) : (c.enter locals).whereClause? x = c.whereClause? x := by
  have hnone : (NameMap.ofList (locals.map fun v => (v.name, v))).find? x = none := by
    rw [NameMap.find?_ofList_eq_none, List.map_map]
    exact h
  unfold whereClause? enter
  rw [NameMap.find?_insertAll, hnone, Option.none_or]

end Context

namespace Cmd

/-- The formula that a command checks or assumes. -/
def condition? : Cmd → Option Expr
  | assert a => some a.condition
  | assume e => some e
  | _ => none

variable {I : Interpretation}

/- The number of assertions in a command and in several commands. -/
mutual

/-- The number of assertions in a command. -/
def assertions : Cmd → Nat
  | assert _ => 1
  | scope _ cmds => assertionsAll cmds
  | _ => 0

/-- The number of assertions in several commands. -/
def assertionsAll : List Cmd → Nat
  | [] => 0
  | d :: ds => d.assertions + assertionsAll ds

end

/- Runs of a command and of several commands. -/
mutual

/-- A command can lead from one state to another. -/
def Runs (c : Context I) : Cmd → I.State → I.State → Prop
  | assert _, s, t => t = s
  | assume e, s, t => c.Holds s e ∧ t = s
  | assign pairs, s, t => c.Assigns s pairs s t
  | havoc xs, s, t => c.Havocs xs s t
  | call _ _ _, _, _ => False
  | comment _, s, t => t = s
  | scope locals cmds, s, t =>
    ∃ s' t', c.Opens locals s s' ∧ RunsAll (c.enter locals) cmds s' t' ∧
      t = Context.close locals s t'

/-- Several commands can lead, one after another, from one state to another. -/
def RunsAll (c : Context I) : List Cmd → I.State → I.State → Prop
  | [], s, t => t = s
  | d :: ds, s, t => ∃ s', Runs c d s s' ∧ RunsAll c ds s' t

end

/- Failure of an assertion in a command and in several commands. -/
mutual

/-- Some run of a command comes to its assertion of a number with the condition false. -/
def Fails (c : Context I) : Cmd → Nat → I.State → Prop
  | assert a, n, s => n = 0 ∧ c.value s a.condition = some I.falsity
  | scope locals cmds, n, s => ∃ s', c.Opens locals s s' ∧ FailsAll (c.enter locals) cmds n s'
  | _, _, _ => False

/-- Some run of several commands comes to their assertion of a number with the condition false. -/
def FailsAll (c : Context I) : List Cmd → Nat → I.State → Prop
  | [], _, _ => False
  | d :: ds, n, s =>
    Fails c d n s ∨ ∃ k s', n = d.assertions + k ∧ Runs c d s s' ∧ FailsAll c ds k s'

end

variable {c : Context I} {ds es : List Cmd} {n : Nat} {s t : I.State}

@[simp] theorem assertionsAll_append :
    assertionsAll (ds ++ es) = assertionsAll ds + assertionsAll es := by
  induction ds with
  | nil => simp [assertionsAll]
  | cons d ds ih => simp [assertionsAll, ih, Nat.add_assoc]

/-- Commands in sequence run one after another. -/
theorem runsAll_append :
    RunsAll c (ds ++ es) s t ↔ ∃ s', RunsAll c ds s s' ∧ RunsAll c es s' t := by
  induction ds generalizing s with
  | nil => simp [RunsAll]
  | cons d ds ih =>
    simp only [List.cons_append, RunsAll, ih]
    constructor
    · rintro ⟨s₁, hd, s₂, hds, hes⟩
      exact ⟨s₂, ⟨s₁, hd, hds⟩, hes⟩
    · rintro ⟨s₂, ⟨s₁, hd, hds⟩, hes⟩
      exact ⟨s₁, hd, s₂, hds, hes⟩

/-- An assertion of commands in sequence is one of the first or one of the others. -/
theorem failsAll_append : FailsAll c (ds ++ es) n s ↔
    FailsAll c ds n s ∨
      ∃ k s', n = assertionsAll ds + k ∧ RunsAll c ds s s' ∧ FailsAll c es k s' := by
  induction ds generalizing n s with
  | nil => simp [FailsAll, assertionsAll, RunsAll]
  | cons d ds ih =>
    simp only [List.cons_append, FailsAll, assertionsAll, RunsAll, ih]
    constructor
    · rintro (hd | ⟨k, s₁, hn, hd, hds | ⟨k', s₂, hk, hds, hes⟩⟩)
      · exact .inl (.inl hd)
      · exact .inl (.inr ⟨k, s₁, hn, hd, hds⟩)
      · exact .inr ⟨k', s₂, by omega, ⟨s₁, hd, hds⟩, hes⟩
    · rintro ((hd | ⟨k, s₁, hn, hd, hds⟩) | ⟨k', s₂, hn, ⟨s₁, hd, hds⟩, hes⟩)
      · exact .inl hd
      · exact .inr ⟨k, s₁, hn, hd, .inl hds⟩
      · exact .inr ⟨assertionsAll ds + k', s₁, by omega, hd, .inr ⟨k', s₂, rfl, hds, hes⟩⟩

/-- Assertions let every state pass. -/
theorem runsAll_map_assert {α : Type} {f : α → Assertion} {as : List α} :
    RunsAll c (as.map fun a => .assert (f a)) s t ↔ t = s := by
  induction as generalizing s with
  | nil => simp [RunsAll]
  | cons a as ih => simp [RunsAll, Runs, ih]

/-- One of several assertions fails if its condition is false. -/
theorem exists_failsAll_map_assert {α : Type} {f : α → Assertion} {as : List α} :
    (∃ n, FailsAll c (as.map fun a => .assert (f a)) n s) ↔
      ∃ a ∈ as, c.value s (f a).condition = some I.falsity := by
  induction as with
  | nil => simp [FailsAll]
  | cons a as ih =>
    rw [List.map_cons]
    constructor
    · rintro ⟨n, ⟨-, ha⟩ | ⟨k, s', -, rfl, has⟩⟩
      · exact ⟨a, List.mem_cons_self, ha⟩
      · obtain ⟨a', ha', hfalse⟩ := ih.1 ⟨k, has⟩
        exact ⟨a', List.mem_cons_of_mem _ ha', hfalse⟩
    · rintro ⟨a', ha', hfalse⟩
      rcases List.mem_cons.mp ha' with rfl | ha'
      · exact ⟨0, .inl ⟨rfl, hfalse⟩⟩
      · obtain ⟨k, has⟩ := ih.2 ⟨a', ha', hfalse⟩
        exact ⟨1 + k, .inr ⟨k, s, rfl, rfl, has⟩⟩

/-- There are no assertions among assumptions. -/
theorem assertionsAll_map_assume {α : Type} {f : α → Expr} {as : List α} :
    assertionsAll (as.map fun a => .assume (f a)) = 0 := by
  induction as with
  | nil => rfl
  | cons a as ih => simp [assertionsAll, assertions, ih]

/-- Several assumptions let the states pass in which all of them are true. -/
theorem runsAll_map_assume {α : Type} {f : α → Expr} {as : List α} :
    RunsAll c (as.map fun a => .assume (f a)) s t ↔ (∀ a ∈ as, c.Holds s (f a)) ∧ t = s := by
  induction as generalizing s with
  | nil => simp [RunsAll]
  | cons a as ih =>
    rw [List.map_cons, List.forall_mem_cons]
    constructor
    · rintro ⟨s', ⟨ha, rfl⟩, has⟩
      obtain ⟨hall, rfl⟩ := ih.1 has
      exact ⟨⟨ha, hall⟩, rfl⟩
    · rintro ⟨⟨ha, hall⟩, rfl⟩
      exact ⟨_, ⟨ha, rfl⟩, ih.2 ⟨hall, rfl⟩⟩

mutual

/-- A command without assertions does not fail. -/
theorem not_fails : ∀ (d : Cmd) (c : Context I) (n : Nat) (s : I.State),
    d.assertions = 0 → ¬ Fails c d n s
  | assert _, _, _, _, h, _ => by cases h
  | scope _ cmds, _, n, _, h, ⟨s', _, hf⟩ => not_failsAll cmds _ n s' h hf
  | assume _, _, _, _, _, hf => hf
  | assign _, _, _, _, _, hf => hf
  | havoc _, _, _, _, _, hf => hf
  | call _ _ _, _, _, _, _, hf => hf
  | comment _, _, _, _, _, hf => hf

/-- Commands without assertions do not fail. -/
theorem not_failsAll : ∀ (ds : List Cmd) (c : Context I) (n : Nat) (s : I.State),
    assertionsAll ds = 0 → ¬ FailsAll c ds n s
  | [], _, _, _, _, hf => hf
  | d :: ds, c, n, s, h, hf => by
    have hd : d.assertions = 0 ∧ assertionsAll ds = 0 := by
      simpa [assertionsAll] using h
    rcases hf with hf | ⟨k, s', -, -, hf⟩
    · exact not_fails d c n s hd.1 hf
    · exact not_failsAll ds c k s' hd.2 hf

end

end Cmd

end Obligations
