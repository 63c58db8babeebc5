import Obligations.Condition.Generation
import Obligations.Proofs.Condition.Inline
import Obligations.Proofs.Passive.Discipline
import Obligations.Proofs.Vocabulary.Preparation

/-!
# The functions that a condition applies

A vocabulary may be about applications only: it has all names and all literals, and compounds of its
expressions are in it. If a body is within such a vocabulary with its contract and the contracts of
the procedures that it calls, so is its condition (`Implementation.expr_condition`). So the condition
of a body applies no function that is not applied in one of them.
-/

namespace Obligations

variable {f : Name}

/-- The vocabulary has all names and literals, and operators make expressions of it of such. -/
structure Vocabulary.AboutApplications (V : Vocabulary) : Prop where
  /-- All names are in it. -/
  name : ∀ n, V.name n
  /-- So are all literals. -/
  literal : ∀ a, V.expr (.literal a)
  /-- An operator with one operand makes an expression of it. -/
  unary : ∀ {op a}, V.expr a → V.expr (.unary op a)
  /-- So does one with two operands. -/
  binary : ∀ {op a b}, V.expr a → V.expr b → V.expr (.binary op a b)

theorem Vocabulary.aboutApplications_avoiding (f : Name) :
    (Vocabulary.avoiding f).AboutApplications where
  name _ := trivial
  literal _ := Expr.notMem_functions_literal
  unary h := fun hf => h (Expr.mem_functions_unary.1 hf)
  binary ha hb := fun hf => (Expr.mem_functions_binary.1 hf).elim ha hb

namespace Vocabulary.AboutApplications

variable {V : Vocabulary} {a b e : Expr}

theorem symbol (h : V.AboutApplications) (n : Name) : V.expr (.symbol n) :=
  (V.symbol n).2 (h.name n)

theorem bool (h : V.AboutApplications) (x : Bool) : V.expr (.bool x) := h.literal _

theorem conj (h : V.AboutApplications) (ha : V.expr a) (hb : V.expr b) : V.expr (a.conj b) := by
  unfold Expr.conj
  split_ifs
  · exact hb
  · exact ha
  · exact h.binary ha hb

theorem impl (h : V.AboutApplications) (ha : V.expr a) (hb : V.expr b) : V.expr (a.impl b) := by
  unfold Expr.impl
  split_ifs
  · exact hb
  · exact h.bool true
  · exact h.unary ha
  · exact h.binary ha hb

theorem conjAll (h : V.AboutApplications) {es : List Expr} (hes : ∀ e ∈ es, V.expr e) :
    V.expr (.conjAll es) :=
  Expr.conjAll_induction (h.bool true) (fun _ _ => h.conj) hes

theorem of_isAtomic (h : V.AboutApplications) (he : Passive.isAtomic e = true) : V.expr e := by
  rcases Passive.isAtomic_iff.1 he with ⟨a, rfl⟩ | ⟨n, rfl⟩
  · exact h.literal a
  · exact h.symbol n

theorem standIn {frame map : NameMap Expr} (h : V.AboutApplications) (hframe : frame.Atomic)
    (hmap : map.Atomic) (he : V.expr e) : V.expr (standIn frame map e) :=
  V.substituteOld he (fun n a ha => h.of_isAtomic (hmap n a ha))
    fun n a ha => h.of_isAtomic (hframe n a ha)

end Vocabulary.AboutApplications

/-! ## Passive commands -/

theorem notMem_functions_of_isAtomic {e : Expr} (h : Passive.isAtomic e = true) :
    f ∉ e.functions :=
  (Vocabulary.aboutApplications_avoiding f).of_isAtomic h

theorem notMem_functions_standIn {frame map : NameMap Expr} {e : Expr} (hframe : frame.Atomic)
    (hmap : map.Atomic) (he : f ∉ e.functions) : f ∉ (standIn frame map e).functions :=
  (Vocabulary.aboutApplications_avoiding f).standIn hframe hmap he

/-- The conditions and values within a vocabulary. -/
def Passive.Discipline.within {V : Vocabulary} (h : V.AboutApplications) : Passive.Discipline where
  asserted := V.expr
  assumed := V.expr
  value := V.expr
  value_of_isAtomic := h.of_isAtomic
  value_standIn := h.standIn
  asserted_standIn := h.standIn
  assumed_standIn := h.standIn
  assumed_conjAll hes := h.conjAll fun e he => by
    obtain ⟨n, a, ha, rfl⟩ := hes e he
    exact h.binary (h.symbol n) ha

/-- The conditions and values that do not apply a function. -/
def Passive.Discipline.avoiding (f : Name) : Passive.Discipline where
  asserted e := f ∉ e.functions
  assumed e := f ∉ e.functions
  value e := f ∉ e.functions
  value_of_isAtomic := notMem_functions_of_isAtomic
  value_standIn := notMem_functions_standIn
  asserted_standIn := notMem_functions_standIn
  assumed_standIn := notMem_functions_standIn
  assumed_conjAll := (within (Vocabulary.aboutApplications_avoiding f)).assumed_conjAll

section

variable {V : Vocabulary}

mutual

/-- A command within the vocabulary keeps to the discipline. -/
theorem Cmd.Within.obeys_within (h : V.AboutApplications) :
    ∀ {c : Cmd}, c.Within V → c.Obeys (.within h)
  | .assert _, hc | .assume _, hc => hc
  | .assign _, hc => fun p hp => (hc p hp).2
  | .havoc _, _ | .call _ _ _, _ | .comment _, _ => trivial
  | .scope _ _, hc =>
    ⟨fun v hv => (hc.1 v hv).whereClause, Cmd.WithinAll.obeysAll_within h hc.2⟩

/-- The same for several commands. -/
theorem Cmd.WithinAll.obeysAll_within (h : V.AboutApplications) :
    ∀ {cs : List Cmd}, Cmd.WithinAll V cs → Cmd.ObeysAll (.within h) cs
  | [], _ => trivial
  | _ :: _, hcs => ⟨hcs.1.obeys_within h, Cmd.WithinAll.obeysAll_within h hcs.2⟩

end

/-- A command that does not apply the function keeps to the discipline. -/
theorem Cmd.Within.obeys {c : Cmd} (hc : c.Within (.avoiding f)) : c.Obeys (.avoiding f) :=
  hc.obeys_within (Vocabulary.aboutApplications_avoiding f)

theorem Cmd.StatesOnly.within {h : V.AboutApplications} {c : Cmd} (hc : c.StatesOnly (.within h)) :
    c.Within V := by
  cases c with
  | assert a => exact hc.1
  | assume e => exact hc.1
  | assign | havoc | call | comment | scope => exact hc.elim

namespace Passive

theorem initialVersions_within (h : V.AboutApplications) {p : Program} {i : Implementation}
    (hglobals : ∀ v ∈ p.globals, v.Within V) (hi : i.Within V) :
    (initialVersions p i).Obeys (.within h) := by
  refine initialVersions_obeys (fun v hv => ?_) fun id => (hi.cmds id).obeysAll_within h
  simp only [List.mem_append] at hv
  rcases hv with ((hv | hv) | hv) | hv
  · exact (hglobals v hv).whereClause
  · exact (hi.inputs v hv).whereClause
  · exact (hi.outputs v hv).whereClause
  · exact (hi.locals v hv).whereClause

/-- Passive commands are within a vocabulary about applications if the body that was made ready and
the conditions on globals are. -/
theorem passify_within (h : V.AboutApplications) {l : Lexicon} {prune : Bool} {p : Program}
    {q : Procedure} {e : SingleExit} {b : PassiveImplementation}
    (hglobals : ∀ v ∈ p.globals, v.Within V) (he : e.body.Within V)
    (hb : (passify l prune p q e).outcome = .ok b) (id : Nat) :
    Cmd.WithinAll V (b.body.cmdsAt id) := by
  obtain ⟨-, -, -, hrest, hcmds⟩ := passify_obeys (initialVersions_within h hglobals he)
    (fun id => (he.cmds id).obeysAll_within h) hb
  by_cases hid : id ∈ b.order
  · exact Cmd.withinAll_iff.2 fun c hc => ((hcmds id hid).statesOnly (atomic_frame _)
      ((he.cmds id).obeysAll_within h) c hc).within
  · exact hrest id hid ▸ he.cmds id

end Passive

end

/-! ## Conditions -/

namespace Condition

variable {i : Implementation} {t : Table} {P : Expr → Prop}

/-- A property of formulas that the connectives of conditions keep. -/
structure Kept (P : Expr → Prop) : Prop where
  /-- The literal `true` has it. -/
  bool_true : P (.bool true)
  /-- A conjunction of formulas that have it has it. -/
  conj : ∀ a b, P a → P b → P (a.conj b)
  /-- An implication between formulas that have it has it. -/
  impl : ∀ a b, P a → P b → P (a.impl b)

theorem Kept.of_vocabulary {V : Vocabulary} (h : V.AboutApplications) : Kept V.expr where
  bool_true := h.bool true
  conj _ _ := h.conj
  impl _ _ := h.impl

/-- What a command states has the property. -/
def States (P : Expr → Prop) : Cmd → Prop
  | .assert a => P a.condition
  | .assume e => P e
  | _ => True

theorem states_of_withinAll {V : Vocabulary} {cs : List Cmd} (h : Cmd.WithinAll V cs) :
    ∀ c ∈ cs, States V.expr c := by
  intro c hc
  have hwithin := Cmd.withinAll_iff.1 h c hc
  cases c with
  | assert => exact hwithin
  | assume => exact hwithin
  | assign | havoc | call | comment | scope => trivial

/-- The weakest precondition of passive commands has a property that the commands and what comes
after have. -/
theorem Kept.ofCmds (hP : Kept P) {label : Name} {post : Expr} (hpost : P post) :
    ∀ {cmds : List Cmd} {e : Expr}, (∀ c ∈ cmds, States P c) →
      Condition.ofCmds label post cmds = .ok e → P e
  | [], _, _, he => by
    cases he
    exact hpost
  | c :: cs, e, h, he => by
    obtain ⟨q, hq, he⟩ := bind_eq_ok.1 he
    obtain ⟨hc, hcs⟩ := List.forall_mem_cons.1 h
    have hrest := hP.ofCmds hpost hcs hq
    cases c with
    | assert a =>
      cases he
      exact hP.conj _ _ hc hrest
    | assume a =>
      cases he
      exact hP.impl _ _ hc hrest
    | assign | havoc | call | comment | scope => cases he

/-- The conditions of the table have the property. -/
def Table.All (P : Expr → Prop) (t : Table) : Prop := ∀ e ∈ t, P e.2

theorem Table.All.get (ht : t.All P) {id : Nat} {e : Expr} (he : t.get i id = .ok e) : P e :=
  ht _ (Table.mem_of_get_eq_ok he)

/-- The condition of a block, from those of its successors. -/
theorem Kept.block (hP : Kept P) (ht : t.All P) {id : Nat} {b : Block} {post : List Expr} {e : Expr}
    (hcmds : ∀ c ∈ i.cmdsAt id, States P c) (hb : blockAt i id = .ok b)
    (hpost : b.successors.mapM (t.get i) = .ok post)
    (he : Condition.ofCmds b.label (.conjAll post) b.cmds = .ok e) : P e := by
  refine hP.ofCmds (Expr.conjAll_induction hP.bool_true hP.conj fun a ha => ?_) ?_ he
  · obtain ⟨next, -, hnext⟩ := exists_mem_of_forall₂ (mapM_eq_ok_iff.1 hpost).flip ha
    exact ht.get hnext
  · exact cmdsAt_of_blockAt hb ▸ hcmds

theorem Kept.inlineTable (hP : Kept P) : ∀ {ids : List Nat} {t : Table},
    (∀ id ∈ ids, ∀ c ∈ i.cmdsAt id, States P c) → Condition.inlineTable i ids = .ok t → t.All P
  | [], _, _, h => by
    cases h
    exact fun e he => by cases he
  | id :: ids, _, hcmds, h => by
    obtain ⟨t, ht, h⟩ := bind_eq_ok.1 h
    obtain ⟨b, hb, h⟩ := bind_eq_ok.1 h
    obtain ⟨post, hpost, h⟩ := bind_eq_ok.1 h
    obtain ⟨e, he, h⟩ := bind_eq_ok.1 h
    cases h
    obtain ⟨hfirst, hlater⟩ := List.forall_mem_cons.1 hcmds
    have hrest := hP.inlineTable hlater ht
    exact List.forall_mem_cons.2 ⟨hP.block hrest hfirst hb hpost he, hrest⟩

/-- The condition of a body, with the conditions of successors copied, has a property that all
commands have. -/
theorem Kept.inlined (hP : Kept P) {order : List Nat} {e : Expr}
    (hcmds : ∀ id ∈ order, ∀ c ∈ i.cmdsAt id, States P c)
    (he : Condition.inlined i order = .ok e) : P e := by
  obtain ⟨t, ht, he⟩ := bind_eq_ok.1 he
  exact (hP.inlineTable hcmds ht).get he

section

variable {V : Vocabulary} (h : V.AboutApplications)
  (hcmds : ∀ id, Cmd.WithinAll V (i.cmdsAt id))

include h hcmds

theorem definitions_within (ht : t.All V.expr) : ∀ {ids : List Nat} {ds : List Expr},
    definitions i t ids = .ok ds → ∀ e ∈ ds, V.expr e
  | [], _, hds => by
    cases hds
    exact fun e he => by cases he
  | id :: ids, _, hds => by
    obtain ⟨b, hb, hds⟩ := bind_eq_ok.1 hds
    obtain ⟨post, hpost, hds⟩ := bind_eq_ok.1 hds
    obtain ⟨n, hn, hds⟩ := bind_eq_ok.1 hds
    obtain ⟨e, he, hds⟩ := bind_eq_ok.1 hds
    obtain ⟨rest, hrest, hds⟩ := bind_eq_ok.1 hds
    cases hds
    have hself := (Kept.of_vocabulary h).block ht (states_of_withinAll (hcmds id)) hb hpost he
    exact List.forall_mem_cons.2
      ⟨h.binary (ht.get hn) hself, definitions_within ht hrest⟩

/-- In either encoding the formula of a passive body is within the vocabulary of its commands. -/
theorem expr_encode {order : List Nat} {encoding : Encoding} {formula : Expr}
    {blockVariables : List Name}
    (hformula : (encode i order encoding).outcome = .ok (formula, blockVariables)) :
    V.expr formula := by
  cases encoding with
  | inline =>
    obtain ⟨e, he, hformula⟩ := Minting.bind_eq_ok.1 hformula
    cases hformula
    exact (Kept.of_vocabulary h).inlined (fun id _ => states_of_withinAll (hcmds id)) he
  | blockVariables =>
    obtain ⟨symbols, -, hformula⟩ := Minting.bind_eq_ok.1 hformula
    obtain ⟨-, -, hformula⟩ := Minting.bind_eq_ok.1 hformula
    obtain ⟨e, he, hformula⟩ := Minting.bind_eq_ok.1 hformula
    cases hformula
    -- The definitions read symbols of blocks, whatever their names are.
    have hsymbols : Table.All V.expr (symbols.reverse.map fun s => (s.1, .symbol s.2)) := by
      intro e he
      obtain ⟨s, -, rfl⟩ := List.mem_map.1 he
      exact h.symbol s.2
    obtain ⟨ds, hds, he⟩ := bind_eq_ok.1 he
    obtain ⟨start, hstart, he⟩ := bind_eq_ok.1 he
    cases he
    exact h.binary (h.conjAll (definitions_within h hcmds hsymbols hds)) (hsymbols.get hstart)

end

end Condition

/-- The formula of a condition is the one that was encoded. -/
theorem formula_closeFormula {l : Lexicon} {p : Program} {i : Implementation} {formula : Expr}
    {blockVariables : List Name} {vc : VerificationCondition}
    (h : closeFormula l p i formula blockVariables = .ok vc) : vc.formula = formula := by
  obtain ⟨symbols, -, h⟩ := bind_eq_ok.1 h
  obtain ⟨functions, -, h⟩ := bind_eq_ok.1 h
  cases h
  rfl

/-- The condition of a body is within a vocabulary about applications if its commands, its
declarations, the contract of its procedure and the contracts of the procedures that it calls are. -/
theorem Implementation.expr_condition {V : Vocabulary} (h : V.AboutApplications)
    {i : Implementation} {p : Program} {o : GenerationOptions} {b : PassiveImplementation}
    {vc : VerificationCondition} {l l₁ l₂ l₃ : Lexicon} (hglobals : ∀ v ∈ p.globals, v.Within V)
    (hi : i.Within V) (hown : ∀ q, p.procedure? i.name = some q → q.Within V)
    (hcallees : p.CalleesWithin V (i.blocks.flatMap fun b => Cmd.calleesAll b.cmds))
    (hb : (i.passiveForm p o).run l = (.ok b, l₁))
    (hvc : (b.condition p o).run l₂ = (.ok vc, l₃)) : V.expr vc.formula := by
  obtain ⟨⟨q, e⟩, l₁', hprepare, hb⟩ := NamingExcept.bind_eq_ok.1 hb
  rw [Minting.run_record] at hprepare
  have he := (within_prepare hi hown hcallees (Prod.ext_iff.1 hprepare).1).2
  obtain ⟨l₄, l₅, -, hb⟩ := NamingExcept.bind_eq_ok.1 hb
  rw [Minting.run_record] at hb
  have hcmds := Passive.passify_within h hglobals he (Prod.ext_iff.1 hb).1
  obtain ⟨⟨formula, names⟩, l₆, hencode, hvc⟩ := NamingExcept.bind_eq_ok.1 hvc
  rw [Minting.run_record] at hencode
  obtain ⟨l₇, l₈, -, hvc⟩ := NamingExcept.bind_eq_ok.1 hvc
  have hformula : vc.formula = formula := formula_closeFormula (Prod.ext_iff.1 hvc).1
  rw [hformula]
  exact Condition.expr_encode h hcmds (Prod.ext_iff.1 hencode).1

end Obligations
