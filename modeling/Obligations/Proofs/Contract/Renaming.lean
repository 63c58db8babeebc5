import Obligations.Contract.Threading
import Obligations.Passive.Body
import Obligations.Proofs.Cmd.Correspondence
import Obligations.Proofs.Expr.Standard
import Obligations.Proofs.Vocabulary.Preparation

/-!
# Conditions under other names

A condition of a contract is written in terms of the formals of the procedure and becomes part of a
body with formals of its own. The substitution of the ones for the others renames everything but the
declarations of scopes, so that it is a renaming exactly if it leaves these alone
(`Condition.substitute_eq_rename_iff`). It then keeps what the condition does along each way through
its blocks (`Condition.runs_substitute_iff`). Otherwise it need not: the condition on a local goes on
reading a formal of the procedure, and a local that is named like a formal is no longer the one that
the commands of the scope use (`Condition.substitute_changes_runs`).
-/

namespace Obligations

variable {I : Interpretation} {V : Set Name} {f : Name → Name} {r : Subst}

/-- What a substitution replaces, it replaces by names. -/
def Subst.RenamesBy (r : Subst) (f : Name → Name) : Prop :=
  ∀ n, r n = some (.symbol (f n)) ∨ r n = none ∧ f n = n

/-- The formals of a procedure are replaced by formals of its body, that is, by names. -/
theorem formalMap_renamesBy {p : Procedure} {i : Implementation} {formals : NameMap Expr}
    (h : formalMap p i = .ok formals) :
    Subst.RenamesBy formals.find? (Cmd.renameTarget formals.find?) := by
  intro n
  unfold Cmd.renameTarget
  cases hn : formals.find? n with
  | none => exact .inr ⟨rfl, rfl⟩
  | some e =>
    unfold formalMap at h
    split_ifs at h
    cases h
    obtain ⟨_, -, b, -, heq⟩ := exists_of_mem_zipWith (NameMap.mem_of_find?_ofList hn)
    cases heq
    exact .inl rfl

/-! ## Renaming a condition -/

def ContractExit.rename (f : Name → Name) : ContractExit → ContractExit
  | goto targets => goto targets
  | ret value => ret (value.rename f)

def ContractBlock.rename (f : Name → Name) (b : ContractBlock) : ContractBlock :=
  { b with cmds := Cmd.renameAll f b.cmds, exit := b.exit.rename f }

/-- A condition with all names renamed, those that its scopes declare included. -/
def Condition.rename (f : Name → Name) : Condition → Condition
  | formula e => formula (e.rename f)
  | blocks bs => blocks (bs.map (·.rename f))

/-- The locals that the scopes of a condition declare. -/
def Condition.scopeLocals : Condition → List Variable
  | formula _ => []
  | blocks bs => bs.flatMap fun b => Passive.scopeLocalsAll b.cmds

/-- A condition has names of a set only. -/
def Condition.IsOver (V : Set Name) : Condition → Prop
  | formula e => e.IsOver V
  | blocks bs => ∀ b ∈ bs, Cmd.AreOver V b.cmds ∧ ∀ e, b.exit = .ret e → e.IsOver V

namespace Expr

variable {g h : Moment → Subst} {keepOld : Bool}

mutual

/-- Only what becomes of each name matters in a substitution. -/
theorem substAt_congr (hgh : ∀ t n, (g t n).getD (.symbol n) = (h t n).getD (.symbol n)) :
    ∀ (e : Expr) (t : Moment), e.substAt g keepOld t = e.substAt h keepOld t
  | literal _, _ => rfl
  | symbol n, t => hgh t n
  | old a, _ => by rw [substAt, substAt, substAt_congr hgh a]
  | unary op a, t => by rw [substAt, substAt, substAt_congr hgh a]
  | binary op a b, t => by rw [substAt, substAt, substAt_congr hgh a, substAt_congr hgh b]
  | apply k args, t => by rw [substAt, substAt, substAllAt_congr hgh args]

/-- The same for several expressions. -/
theorem substAllAt_congr (hgh : ∀ t n, (g t n).getD (.symbol n) = (h t n).getD (.symbol n)) :
    ∀ (es : List Expr) (t : Moment), substAllAt g keepOld t es = substAllAt h keepOld t es
  | [], _ => rfl
  | a :: as, t => by
    rw [substAllAt, substAllAt, substAt_congr hgh a, substAllAt_congr hgh as]

end

end Expr

namespace Subst.RenamesBy

variable (hr : r.RenamesBy f)

include hr

theorem substitute_expr (e : Expr) : e.substitute r = e.rename f := by
  refine Expr.substAt_congr (fun _ n => ?_) e .current
  rcases hr n with hn | ⟨hn, hfix⟩
  · rw [hn]
  · rw [hn, Option.getD_none, Option.getD_some, hfix]

theorem renameTarget (x : Name) : Cmd.renameTarget r x = f x := by
  unfold Cmd.renameTarget
  rcases hr x with hx | ⟨hx, hfix⟩
  · rw [hx]
    rfl
  · rw [hx, hfix]
    rfl

end Subst.RenamesBy

theorem map_rename_eq_iff {vs : List Variable} :
    vs = vs.map (·.rename f) ↔ ∀ v ∈ vs, v.rename f = v := by
  rw [eq_comm]
  conv_lhs => rhs; rw [← List.map_id vs]
  exact List.map_inj_left

namespace Cmd

mutual

/-- In a command everything but the declarations of scopes is renamed. -/
theorem substitute_eq_rename_iff (hr : r.RenamesBy f) : ∀ d : Cmd, d.substitute r = d.rename f ↔
    ∀ v ∈ Passive.scopeLocals d, v.rename f = v
  | assert a => by
    rw [substitute, rename, hr.substitute_expr]
    exact iff_of_true rfl fun _ hv => absurd hv List.not_mem_nil
  | assume e => by
    rw [substitute, rename, hr.substitute_expr]
    exact iff_of_true rfl fun _ hv => absurd hv List.not_mem_nil
  | assign pairs => by
    rw [substitute, rename]
    simp only [hr.substitute_expr, hr.renameTarget]
    exact iff_of_true trivial fun _ hv => absurd hv List.not_mem_nil
  | havoc vars => by
    rw [substitute, rename, funext hr.renameTarget]
    exact iff_of_true rfl fun _ hv => absurd hv List.not_mem_nil
  | call callee args outputs => by
    rw [substitute, rename, funext hr.renameTarget, funext hr.substitute_expr]
    exact iff_of_true rfl fun _ hv => absurd hv List.not_mem_nil
  | comment _ => iff_of_true rfl fun _ hv => absurd hv List.not_mem_nil
  | scope locals cmds => by
    rw [substitute, rename, scope.injEq, map_rename_eq_iff, substituteAll_eq_renameAll_iff hr cmds,
      Passive.scopeLocals, List.forall_mem_append]

/-- The same for several commands. -/
theorem substituteAll_eq_renameAll_iff (hr : r.RenamesBy f) :
    ∀ ds : List Cmd, substituteAll r ds = renameAll f ds ↔
      ∀ v ∈ Passive.scopeLocalsAll ds, v.rename f = v
  | [] => iff_of_true rfl fun _ hv => absurd hv List.not_mem_nil
  | d :: ds => by
    rw [substituteAll, renameAll, List.cons.injEq, substitute_eq_rename_iff hr d,
      substituteAll_eq_renameAll_iff hr ds, Passive.scopeLocalsAll, List.forall_mem_append]

end

theorem renameAll_append {cs ds : List Cmd} :
    renameAll f (cs ++ ds) = renameAll f cs ++ renameAll f ds := by
  rw [renameAll_eq_map, renameAll_eq_map, renameAll_eq_map, List.map_append]

theorem areOver_append {cs ds : List Cmd} :
    AreOver V (cs ++ ds) ↔ AreOver V cs ∧ AreOver V ds := by
  induction cs with
  | nil => exact ⟨fun h => ⟨trivial, h⟩, fun h => h.2⟩
  | cons c cs ih => rw [List.cons_append, AreOver, AreOver, ih, and_assoc]

end Cmd

theorem ContractExit.substitute_eq_rename (hr : r.RenamesBy f) (e : ContractExit) :
    e.substitute r = e.rename f := by
  cases e with
  | goto targets => rfl
  | ret value => exact congrArg ret (hr.substitute_expr value)

/-- A substitution renames a condition exactly if it leaves the declarations of its scopes alone. -/
theorem Condition.substitute_eq_rename_iff (hr : r.RenamesBy f) (c : Condition) :
    c.substitute r = c.rename f ↔ ∀ v ∈ c.scopeLocals, v.rename f = v := by
  cases c with
  | formula e =>
    exact iff_of_true (congrArg formula (hr.substitute_expr e)) fun _ hv =>
      absurd hv List.not_mem_nil
  | blocks bs =>
    have hblock : ∀ b : ContractBlock, b.substitute r = b.rename f ↔
        ∀ v ∈ Passive.scopeLocalsAll b.cmds, v.rename f = v := by
      intro b
      rw [← Cmd.substituteAll_eq_renameAll_iff hr]
      unfold ContractBlock.substitute ContractBlock.rename
      rw [ContractExit.substitute_eq_rename hr, ContractBlock.mk.injEq]
      simp only [true_and, and_true]
    rw [substitute, rename, blocks.injEq, List.map_inj_left]
    simp only [hblock, scopeLocals, List.forall_mem_flatMap]

/-! ## Ways through a condition -/

/-- The value that a block returns, if it does. -/
def ContractExit.value? : ContractExit → Option Expr
  | goto _ => none
  | ret value => some value

/-- The commands on a way from a block on, along blocks of some indices, and the value that the last
of them returns, if it does. -/
inductive ContractBlock.Way (bs : List ContractBlock) :
    Nat → List Nat → List Cmd → Option Expr → Prop
  /-- The way ends after the block. -/
  | last {n : Nat} {b : ContractBlock} (block : bs[n]? = some b) :
    Way bs n [n] b.cmds b.exit.value?
  /-- The way goes on to a target of the block. -/
  | goto {n next : Nat} {b : ContractBlock} {targets ids : List Nat} {cs : List Cmd}
      {value? : Option Expr} (block : bs[n]? = some b) (exit : b.exit = .goto targets)
      (target : next ∈ targets) (rest : Way bs next ids cs value?) :
    Way bs n (n :: ids) (b.cmds ++ cs) value?

/-- The commands on a way through a condition from its first block, and the value returned at its
end, if it ends the condition. -/
inductive Condition.Way : Condition → List Nat → List Cmd → Option Expr → Prop
  /-- A formula is a value without commands. -/
  | formula (e : Expr) : Way (.formula e) [] [] (some e)
  /-- A way through a block graph starts at its first block. -/
  | blocks {bs : List ContractBlock} {ids : List Nat} {cs : List Cmd} {value? : Option Expr}
      (way : ContractBlock.Way bs 0 ids cs value?) : Way (.blocks bs) ids cs value?

/-- A run along some blocks of a condition comes to an assertion, counted from the first block on,
with its condition false. -/
def Condition.FailsAlong (c : Context I) (ids : List Nat) (k : Nat) (s : I.State)
    (q : Condition) : Prop :=
  ∃ cs value?, q.Way ids cs value? ∧ Cmd.FailsAll c cs k s

/-- A run along some blocks of a condition leads from a state to another. If it ends the condition, a
value is returned, or an expression that has none. -/
def Condition.RunsAlong (c : Context I) (ids : List Nat) (s t : I.State)
    (result? : Option (Option I.Carrier)) (q : Condition) : Prop :=
  ∃ cs value?, q.Way ids cs value? ∧ Cmd.RunsAll c cs s t ∧ result? = value?.map (c.value t)

variable {bs : List ContractBlock} {q : Condition} {n : Nat} {ids : List Nat} {cs : List Cmd}
  {value? : Option Expr}

theorem ContractExit.value?_rename (e : ContractExit) :
    (e.rename f).value? = e.value?.map (·.rename f) := by
  cases e <;> rfl

theorem ContractExit.rename_eq_goto_iff {e : ContractExit} {targets : List Nat} :
    e.rename f = .goto targets ↔ e = .goto targets := by
  cases e <;> simp [rename]

theorem ContractBlock.getElem?_rename {b : ContractBlock} (h : bs[n]? = some b) :
    (bs.map (·.rename f))[n]? = some (b.rename f) := by
  rw [List.getElem?_map, h]
  rfl

theorem ContractBlock.Way.rename (h : Way bs n ids cs value?) :
    Way (bs.map (·.rename f)) n ids (Cmd.renameAll f cs) (value?.map (·.rename f)) := by
  induction h with
  | @last n b block =>
    rw [← ContractExit.value?_rename]
    exact last (getElem?_rename block)
  | goto block exit target _ ih =>
    rw [Cmd.renameAll_append]
    exact goto (getElem?_rename block) (ContractExit.rename_eq_goto_iff.2 exit) target ih

/-- A way through the renamed blocks is a way through the blocks, renamed. -/
theorem ContractBlock.Way.exists_of_rename {cs' : List Cmd} {value?' : Option Expr}
    (h : Way (bs.map (·.rename f)) n ids cs' value?') :
    ∃ cs value?, Way bs n ids cs value? ∧ cs' = Cmd.renameAll f cs ∧
      value?' = value?.map (·.rename f) := by
  induction h with
  | last block =>
    rw [List.getElem?_map, Option.map_eq_some_iff] at block
    obtain ⟨b, hb, rfl⟩ := block
    exact ⟨_, _, last hb, rfl, b.exit.value?_rename⟩
  | goto block exit target _ ih =>
    rw [List.getElem?_map, Option.map_eq_some_iff] at block
    obtain ⟨b, hb, rfl⟩ := block
    obtain ⟨cs, value?, hway, rfl, rfl⟩ := ih
    exact ⟨_, _, goto hb (ContractExit.rename_eq_goto_iff.1 exit) target hway,
      Cmd.renameAll_append.symm, rfl⟩

/-- The commands on a way through blocks over some names are over them, and so is the value. -/
theorem ContractBlock.Way.isOver (h : Way bs n ids cs value?)
    (hover : ∀ b ∈ bs, Cmd.AreOver V b.cmds ∧ ∀ e, b.exit = .ret e → e.IsOver V) :
    Cmd.AreOver V cs ∧ ∀ e, value? = some e → e.IsOver V := by
  induction h with
  | @last n b block =>
    obtain ⟨hcmds, hexit⟩ := hover b (List.mem_of_getElem? block)
    refine ⟨hcmds, fun e he => hexit e ?_⟩
    cases hb : b.exit with
    | goto => rw [hb] at he; cases he
    | ret => rw [hb] at he; cases he; rfl
  | goto block _ _ _ ih =>
    exact ⟨Cmd.areOver_append.2 ⟨(hover _ (List.mem_of_getElem? block)).1, ih.1⟩, ih.2⟩

theorem Condition.way_rename_iff {cs' : List Cmd} {value?' : Option Expr} :
    (q.rename f).Way ids cs' value?' ↔ ∃ cs value?, q.Way ids cs value? ∧
      cs' = Cmd.renameAll f cs ∧ value?' = value?.map (·.rename f) := by
  cases q with
  | formula e =>
    constructor
    · rintro ⟨⟩
      exact ⟨[], some e, .formula e, rfl, rfl⟩
    · rintro ⟨_, _, ⟨⟩, rfl, rfl⟩
      exact .formula (e.rename f)
  | blocks bs =>
    constructor
    · rintro (_ | ⟨way⟩)
      obtain ⟨cs, value?, hway, hcs, hvalue⟩ := way.exists_of_rename
      exact ⟨cs, value?, .blocks hway, hcs, hvalue⟩
    · rintro ⟨_, _, _ | ⟨way⟩, rfl, rfl⟩
      exact .blocks way.rename

theorem Condition.Way.isOver (h : q.Way ids cs value?) (hover : q.IsOver V) :
    Cmd.AreOver V cs ∧ ∀ e, value? = some e → e.IsOver V := by
  cases h with
  | formula e =>
    refine ⟨trivial, ?_⟩
    rintro _ ⟨⟩
    exact hover
  | blocks way => exact way.isOver hover

/-- If a substitution is a renaming that tells names apart and leaves the declarations of scopes
alone, then a condition does after the substitution, along each way through its blocks, what it does
before in the state in which every name has the value of its new name: it fails at the same
assertions, leads to the same values of the names, also under their new names, and returns the
same. Other names keep their values. -/
theorem Condition.runs_substitute_iff {c c' : Context I} (hr : r.RenamesBy f)
    (hinj : Set.InjOn f V) (hover : q.IsOver V) (hlocals : ∀ v ∈ q.scopeLocals, v.rename f = v)
    (hc : c.Agrees f V c') (ids : List Nat) (s : I.State) :
    (∀ k, (q.substitute r).FailsAlong c' ids k s ↔ q.FailsAlong c ids k (s ∘ f)) ∧
      ∀ t' result?, (q.substitute r).RunsAlong c' ids s t' result? ↔
        (∀ y, y ∉ f '' V → t' y = s y) ∧
          ∃ t, q.RunsAlong c ids (s ∘ f) t result? ∧ t.Agrees f V t' := by
  rw [(q.substitute_eq_rename_iff hr).2 hlocals]
  have hs : Interpretation.State.Agrees f V (s ∘ f : I.State) s := fun _ _ => rfl
  constructor
  · intro k
    constructor
    · rintro ⟨_, _, hway', hf⟩
      obtain ⟨cs, value?, hway, rfl, rfl⟩ := way_rename_iff.1 hway'
      exact ⟨cs, value?, hway, (Cmd.failsAll_renameAll_iff hinj hc (hway.isOver hover).1 hs).1 hf⟩
    · rintro ⟨cs, value?, hway, hf⟩
      exact ⟨_, _, way_rename_iff.2 ⟨cs, value?, hway, rfl, rfl⟩,
        (Cmd.failsAll_renameAll_iff hinj hc (hway.isOver hover).1 hs).2 hf⟩
  · intro t' result?
    -- What is returned has the same value in states that agree.
    have hvalue : ∀ {t : I.State} {value? : Option Expr}, t.Agrees f V t' →
        (∀ e, value? = some e → e.IsOver V) →
        (value?.map (·.rename f)).map (c'.value t') = value?.map (c.value t) := by
      intro t value? ht he
      cases value? with
      | none => rfl
      | some e => exact congrArg some (hc.value ht (he e rfl))
    constructor
    · rintro ⟨_, _, hway', hruns, rfl⟩
      obtain ⟨cs, value?, hway, rfl, rfl⟩ := way_rename_iff.1 hway'
      obtain ⟨hcs, he⟩ := hway.isOver hover
      obtain ⟨hframe, t, ht, hagrees⟩ := (Cmd.runsAll_renameAll_iff hinj hc hcs hs).1 hruns
      exact ⟨hframe, t, ⟨cs, value?, hway, ht, hvalue hagrees he⟩, hagrees⟩
    · rintro ⟨hframe, t, ⟨cs, value?, hway, ht, rfl⟩, hagrees⟩
      obtain ⟨hcs, he⟩ := hway.isOver hover
      exact ⟨_, _, way_rename_iff.2 ⟨cs, value?, hway, rfl, rfl⟩,
        (Cmd.runsAll_renameAll_iff hinj hc hcs hs).2 ⟨hframe, t, ht, hagrees⟩,
        (hvalue hagrees he).symm⟩

/-! ## A formal `x` that is called `a` in the body -/

/-- The formal `x` of the procedure stands for the formal `a` of the body. -/
def formalAs : Subst := fun n => if n = ⟨"x"⟩ then some (.symbol ⟨"a"⟩) else none

def formalName (n : Name) : Name := if n = ⟨"x"⟩ then ⟨"a"⟩ else n

/-- A context without declarations. -/
def bareContext : Context (Interpretation.standard fun _ _ => none) where
  declarations := .empty
  modified := []
  entry := fun _ => .value (.int 0)

/-- The state in which `a` is 5 and all else is 0. -/
def fiveAt (n : Name) : Interpretation.State (Interpretation.standard fun _ _ => none) :=
  fun m => .value (.int (if m = n then 5 else 0))

/-- A condition of one block. -/
def oneBlock (cmds : List Cmd) (value : Expr) : Condition :=
  .blocks [⟨⟨"check"⟩, cmds, .ret value⟩]

/-- The condition that some `t` equal to 5 is equal to `x`. -/
def comparing : Condition :=
  oneBlock [.scope [⟨⟨"t"⟩, .int, some (.binary .eq (.symbol ⟨"t"⟩) (.int 5)), .local⟩]
    [.assume (.binary .eq (.symbol ⟨"t"⟩) (.symbol ⟨"x"⟩))]] (.bool true)

/-- The condition that some `t` equal to `x` is equal to 5. -/
def following : Condition :=
  oneBlock [.scope [⟨⟨"t"⟩, .int, some (.binary .eq (.symbol ⟨"t"⟩) (.symbol ⟨"x"⟩)), .local⟩]
    [.assume (.binary .eq (.symbol ⟨"t"⟩) (.int 5))]] (.bool true)

/-- The condition that checks that an arbitrary `x` of its own is 5. -/
def shadowing : Condition :=
  oneBlock [.scope [⟨⟨"x"⟩, .int, none, .local⟩]
    [.assert ⟨.binary .eq (.symbol ⟨"x"⟩) (.int 5), .plain, none, none⟩]] (.bool true)

theorem formalAs_renamesBy : formalAs.RenamesBy formalName := by
  intro n
  unfold formalAs formalName
  split_ifs with hn
  · exact .inl rfl
  · exact .inr ⟨rfl, rfl⟩

/-- The names `x` and `t` are told apart. -/
theorem formalName_injOn : Set.InjOn formalName {⟨"x"⟩, ⟨"t"⟩} := by
  rintro _ (rfl | rfl) _ (rfl | rfl) h
  all_goals first | rfl | exact absurd h (by decide)

theorem bareContext_agrees (V : Set Name) : bareContext.Agrees formalName V bareContext where
  isOver _ _ _ hw := by cases hw
  whereClause _ _ := rfl
  modified _ _ := iff_of_false List.not_mem_nil List.not_mem_nil
  entry _ _ := rfl

theorem way_oneBlock {cmds : List Cmd} {value : Expr} :
    (oneBlock cmds value).Way ids cs value? ↔ ids = [0] ∧ cs = cmds ∧ value? = some value := by
  constructor
  · rintro (_ | ⟨way⟩)
    cases way with
    | last block => cases block; exact ⟨rfl, rfl, rfl⟩
    | goto block exit => cases block; cases exit
  · rintro ⟨rfl, rfl, rfl⟩
    exact .blocks (.last (b := ⟨⟨"check"⟩, cs, .ret value⟩) rfl)

section

variable {c : Context I} {s t : I.State} {v : Variable}

theorem Context.holds_symbol_eq_iff {x : Name} {e : Expr} :
    c.Holds s (.binary .eq (.symbol x) e) ↔ c.value s e = some (s x) := by
  refine Interpretation.holds_eq_iff.trans ⟨?_, fun h => ⟨s x, rfl, h⟩⟩
  rintro ⟨_, ⟨⟩, h⟩
  exact h

/-- One local gets a value that satisfies the condition on it. -/
theorem Context.opens_singleton_iff : c.Opens [v] s t ↔ ∃ k, t = Function.update s v.name k ∧
    ∀ w, v.whereClause = some w → (c.enter [v]).Holds (Function.update s v.name k) w := by
  constructor
  · rintro ⟨hframe, hw⟩
    have ht : t = Function.update s v.name (t v.name) := by
      funext x
      by_cases hx : x = v.name
      · rw [hx, Function.update_self]
      · rw [Function.update_of_ne hx, hframe x (by simpa using hx)]
    exact ⟨t v.name, ht, ht ▸ hw v (List.mem_singleton_self v)⟩
  · rintro ⟨k, rfl, hw⟩
    refine ⟨fun x hx => Function.update_of_ne (by simpa using hx) _ _, fun u hu => ?_⟩
    cases List.mem_singleton.1 hu
    exact hw

/-- A block that only assumes something of a local needs a value for the local. -/
theorem runsAlong_assuming_iff {e : Expr} {result? : Option (Option I.Carrier)} :
    (oneBlock [.scope [v] [.assume e]] (.bool true)).RunsAlong c [0] s t result? ↔
      t = s ∧ result? = some (some I.truth) ∧ ∃ k,
        (∀ w, v.whereClause = some w → (c.enter [v]).Holds (Function.update s v.name k) w) ∧
          (c.enter [v]).Holds (Function.update s v.name k) e := by
  have hclose : ∀ k, Context.close [v] s (Function.update s v.name k) = s := by
    intro k
    funext x
    by_cases hx : x = v.name <;> simp [Context.close, hx]
  constructor
  · rintro ⟨_, _, hway, hruns, rfl⟩
    obtain ⟨-, rfl, rfl⟩ := way_oneBlock.1 hway
    obtain ⟨_, ⟨s₁, t₁, hopens, ⟨_, ⟨he, rfl⟩, rfl⟩, rfl⟩, rfl⟩ := hruns
    obtain ⟨k, rfl, hw⟩ := Context.opens_singleton_iff.1 hopens
    exact ⟨hclose k, rfl, k, hw, he⟩
  · rintro ⟨rfl, rfl, k, hw, he⟩
    exact ⟨_, _, way_oneBlock.2 ⟨rfl, rfl, rfl⟩, ⟨_, ⟨_, _,
      Context.opens_singleton_iff.2 ⟨k, rfl, hw⟩, ⟨_, ⟨he, rfl⟩, rfl⟩, (hclose k).symm⟩, rfl⟩, rfl⟩

/-- A block that only checks something of a local fails if the local has a value with which it is
false. -/
theorem failsAlong_asserting_iff {a : Assertion} :
    (oneBlock [.scope [v] [.assert a]] (.bool true)).FailsAlong c [0] 0 s ↔ ∃ k,
      (∀ w, v.whereClause = some w → (c.enter [v]).Holds (Function.update s v.name k) w) ∧
        (c.enter [v]).value (Function.update s v.name k) a.condition = some I.falsity := by
  constructor
  · rintro ⟨_, _, hway, hfails⟩
    obtain ⟨-, rfl, -⟩ := way_oneBlock.1 hway
    rcases hfails with ⟨_, hopens, ⟨-, hfalse⟩ | ⟨_, _, -, -, hnone⟩⟩ | ⟨_, _, -, -, hnone⟩
    · obtain ⟨k, rfl, hw⟩ := Context.opens_singleton_iff.1 hopens
      exact ⟨k, hw, hfalse⟩
    · exact absurd hnone id
    · exact absurd hnone id
  · rintro ⟨k, hw, hfalse⟩
    exact ⟨_, _, way_oneBlock.2 ⟨rfl, rfl, rfl⟩,
      .inl ⟨_, Context.opens_singleton_iff.2 ⟨k, rfl, hw⟩, .inl ⟨rfl, hfalse⟩⟩⟩

end

theorem isOver_oneBlock {v : Variable} {d : Cmd} (hv : v.IsOver V) (hd : d.IsOver V) :
    (oneBlock [.scope [v] [d]] (.bool true)).IsOver V := by
  intro b hb
  cases List.mem_singleton.1 hb
  refine ⟨⟨⟨fun u hu => List.mem_singleton.1 hu ▸ hv, hd, trivial⟩, trivial⟩, ?_⟩
  rintro _ ⟨⟩
  exact fun _ hn => absurd hn List.not_mem_nil

theorem Expr.isOver_symbol_eq_symbol {x y : Name} (hx : x ∈ V) (hy : y ∈ V) :
    (binary .eq (symbol x) (symbol y)).IsOver V := by
  intro n hn
  rcases mem_names_binary.1 hn with hn | hn
  · exact mem_names_symbol.1 hn ▸ hx
  · exact mem_names_symbol.1 hn ▸ hy

theorem Expr.isOver_symbol_eq_int {x : Name} (hx : x ∈ V) (k : Int) :
    (binary .eq (symbol x) (int k)).IsOver V := by
  intro n hn
  rcases mem_names_binary.1 hn with hn | hn
  · exact mem_names_symbol.1 hn ▸ hx
  · cases hn

theorem comparing_isOver : comparing.IsOver {⟨"x"⟩, ⟨"t"⟩} := by
  refine isOver_oneBlock ⟨.inr rfl, ?_⟩ (Expr.isOver_symbol_eq_symbol (.inr rfl) (.inl rfl))
  rintro _ ⟨⟩
  exact Expr.isOver_symbol_eq_int (.inr rfl) 5

theorem following_isOver : following.IsOver {⟨"x"⟩, ⟨"t"⟩} := by
  refine isOver_oneBlock ⟨.inr rfl, ?_⟩ (Expr.isOver_symbol_eq_int (.inr rfl) 5)
  rintro _ ⟨⟩
  exact Expr.isOver_symbol_eq_symbol (.inr rfl) (.inl rfl)

theorem shadowing_isOver : shadowing.IsOver {⟨"x"⟩, ⟨"t"⟩} := by
  refine isOver_oneBlock ⟨.inl rfl, ?_⟩ (Expr.isOver_symbol_eq_int (.inl rfl) 5)
  rintro _ ⟨⟩

/-- Where `a` is 5, some `t` equal to 5 is equal to `a`, as it is equal to `x` where `x` is 5. -/
theorem Condition.runs_substitute_iff_comparing :
    (comparing.substitute formalAs).RunsAlong bareContext [0] (fiveAt ⟨"a"⟩) (fiveAt ⟨"a"⟩)
        (some (some (.value (.bool true)))) ∧
      comparing.RunsAlong bareContext [0] (fiveAt ⟨"a"⟩ ∘ formalName) (fiveAt ⟨"a"⟩ ∘ formalName)
        (some (some (.value (.bool true)))) := by
  have hruns : comparing.RunsAlong bareContext [0] (fiveAt ⟨"a"⟩ ∘ formalName)
      (fiveAt ⟨"a"⟩ ∘ formalName) (some (some (.value (.bool true)))) := by
    refine runsAlong_assuming_iff.2 ⟨rfl, rfl, .value (.int 5), ?_, rfl⟩
    rintro _ ⟨⟩
    rfl
  have hlocals : ∀ v ∈ comparing.scopeLocals, v.rename formalName = v := by
    intro v hv
    cases List.mem_singleton.1 hv
    rfl
  have hiff := runs_substitute_iff formalAs_renamesBy formalName_injOn comparing_isOver hlocals
    (bareContext_agrees _) [0] (fiveAt ⟨"a"⟩)
  exact ⟨(hiff.2 _ _).2 ⟨fun _ _ => rfl, _, hruns, fun _ _ => rfl⟩, hruns⟩

/-- Where `a` is 5 and `x` is 0, the substitution of `a` for `x` stops the run that there is where `x`
is 5, because the condition on the local goes on reading `x`. It also hides the failure of a check of
a local `x`, because the check is of `a` then. -/
theorem Condition.substitute_changes_runs :
    formalAs.RenamesBy formalName ∧ Set.InjOn formalName {⟨"x"⟩, ⟨"t"⟩} ∧
      bareContext.Agrees formalName {⟨"x"⟩, ⟨"t"⟩} bareContext ∧
      (following.IsOver {⟨"x"⟩, ⟨"t"⟩} ∧
        following.RunsAlong bareContext [0] (fiveAt ⟨"a"⟩ ∘ formalName)
          (fiveAt ⟨"a"⟩ ∘ formalName) (some (some (.value (.bool true)))) ∧
        ∀ t result?, ¬ (following.substitute formalAs).RunsAlong bareContext [0] (fiveAt ⟨"a"⟩) t
          result?) ∧
      shadowing.IsOver {⟨"x"⟩, ⟨"t"⟩} ∧
        shadowing.FailsAlong bareContext [0] 0 (fiveAt ⟨"a"⟩ ∘ formalName) ∧
        ¬ (shadowing.substitute formalAs).FailsAlong bareContext [0] 0 (fiveAt ⟨"a"⟩) := by
  refine ⟨formalAs_renamesBy, formalName_injOn, bareContext_agrees _, ⟨following_isOver, ?_, ?_⟩,
    shadowing_isOver, ?_, ?_⟩
  · refine runsAlong_assuming_iff.2 ⟨rfl, rfl, .value (.int 5), ?_, rfl⟩
    rintro _ ⟨⟩
    rfl
  · -- The local would be as `x`, which is 0, and 5.
    intro t result? hruns
    obtain ⟨-, -, k, hw, he⟩ := runsAlong_assuming_iff.1 hruns
    have hzero := Context.holds_symbol_eq_iff.1 (hw _ rfl)
    have hfive := Context.holds_symbol_eq_iff.1 he
    have heq : Datum.value (.int 0) = Datum.value (.int 5) :=
      Option.some.inj (hzero.trans hfive.symm)
    cases heq
  · exact failsAlong_asserting_iff.2 ⟨.value (.int 0), fun _ hw => (nomatch hw), rfl⟩
  · -- The check is of `a`, which is 5 in the scope too.
    intro hfails
    obtain ⟨k, -, hfalse⟩ := failsAlong_asserting_iff.1 hfails
    have htrue : (bareContext.enter [⟨⟨"x"⟩, .int, none, .local⟩]).Holds
        (Function.update (fiveAt ⟨"a"⟩) ⟨"x"⟩ k) (.binary .eq (.symbol ⟨"a"⟩) (.int 5)) :=
      Context.holds_symbol_eq_iff.2 rfl
    exact Interpretation.true_ne_false _ (Option.some.inj (htrue.symm.trans hfalse))

end Obligations
