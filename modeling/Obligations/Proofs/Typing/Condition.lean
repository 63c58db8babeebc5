import Obligations.Proofs.Inference.Coherence
import Obligations.Proofs.Inference.Meaning
import Obligations.Proofs.Inference.Sites
import Obligations.Proofs.Oracle.Exhaustion
import Obligations.Proofs.Typing.Passive

/-!
# Conditions are well-typed

A well-typed body that can be passified has a condition with the conditions of successors copied, and
that condition is well-typed over its own declarations (`Implementation.condition_wellTyped`). So its
formula has a truth value wherever these declarations are interpreted, unless it divides by zero.

The names made up for versions are not compared with those of the locals of calls. So a procedure
with an input that is named like a version of another input makes the condition of a caller
ill-typed (`Implementation.not_condition_wellTyped_calling`).
-/

namespace Obligations

open Condition (States inlineTable inlined)

variable {p : Program} {i : Implementation} {κ : Signature} {formula : Expr}

/-! ## The formula -/

namespace Condition

variable {order : List Nat}

/-- Along a topological order of passive blocks every block has a condition. -/
theorem exists_inlineTable (ho : i.IsTopologicalOrder order)
    (hpassive : ∀ id ∈ order, ∀ c ∈ i.cmdsAt id, c.isPassive = true) :
    ∀ after before, order = before ++ after →
      ∃ t, inlineTable i after = .ok t ∧ ∀ id ∈ after, ∃ e, t.lookup id = some e := by
  intro after
  induction after with
  | nil => exact fun _ _ => ⟨[], rfl, fun _ h => nomatch h⟩
  | cons id after ih =>
    intro before hsplit
    obtain ⟨t, ht, htable⟩ := ih (before ++ [id]) (by simpa using hsplit)
    have hid : id ∈ order := by
      rw [hsplit]
      simp
    obtain ⟨b, hb⟩ := ho.exists_block hid
    have hsucc : i.successors id = b.successors := by
      rw [Implementation.successors, hb]
      rfl
    -- The successors come later in the order.
    choose! f hlookup using htable
    have hpost : b.successors.mapM (t.get i) = .ok (b.successors.map f) :=
      Table.mapM_get fun next hnext =>
        hlookup next (ho.successors_after before id after hsplit next (hsucc ▸ hnext))
    have hcmds : i.cmdsAt id = b.cmds := by
      rw [Implementation.cmdsAt, hb]
      rfl
    obtain ⟨e, he⟩ : ∃ e, ofCmds b.label (.conjAll (b.successors.map f)) b.cmds = .ok e :=
      (ofCmds_eq_ok b.label (hcmds ▸ hpassive id hid)).imp fun _ h => h.1
    have hblock : blockAt i id = .ok b := by
      rw [blockAt, hb]
      rfl
    refine ⟨(id, e) :: t, bind_eq_ok.2 ⟨t, ht, bind_eq_ok.2 ⟨b, hblock,
      bind_eq_ok.2 ⟨_, hpost, bind_eq_ok.2 ⟨e, he, rfl⟩⟩⟩⟩, fun id' hid' => ?_⟩
    by_cases heq : id' = id
    · exact ⟨e, by simp [heq]⟩
    · rw [List.lookup_cons, beq_false_of_ne heq]
      exact ⟨f id', hlookup id' ((List.mem_cons.1 hid').resolve_left heq)⟩

theorem exists_inlined (ho : i.IsTopologicalOrder order)
    (hpassive : ∀ id ∈ order, ∀ c ∈ i.cmdsAt id, c.isPassive = true) :
    ∃ e, inlined i order = .ok e := by
  obtain ⟨t, ht, htable⟩ := exists_inlineTable ho hpassive order [] rfl
  obtain ⟨e, he⟩ := htable i.entry ho.entry_mem
  refine ⟨e, bind_eq_ok.2 ⟨t, ht, ?_⟩⟩
  rw [Table.get, he]
  rfl

theorem encode_inline_eq_ok {e : Expr} (he : inlined i order = .ok e) :
    (encode i order .inline).outcome = .ok (e, []) := by
  rw [encode]
  exact Minting.bind_eq_ok.2 ⟨e, he, rfl⟩

/-- The connectives of conditions keep formulas formulas. -/
theorem kept_formula : Kept fun e => e.kind? κ = some .bool :=
  ⟨rfl, fun _ _ => Expr.kind?_conj, fun _ _ => Expr.kind?_impl⟩

theorem kept_oldFree : Kept Expr.OldFree :=
  ⟨Expr.oldFree_literal _, fun _ _ => Expr.oldFree_conj, fun _ _ => Expr.oldFree_impl⟩

end Condition

/-! ## Its declarations -/

/-- A formula over declared names is closed with their declarations and is well-typed over them. -/
theorem exists_wellTyped_closeFormula (l : Lexicon) (hformula : formula.kind? κ = some .bool)
    (hsymbol : ∀ n k, κ.symbol n = some k → ∃ v, (i.lookup? n).or (p.global? n) = some v ∧
      v.ty.kind? = some k)
    (hfunction : ∀ f sig, κ.function f = some sig →
      (p.function? f).bind Function.kinds? = some sig) :
    ∃ vc, closeFormula l p i formula [] = .ok vc ∧ vc.formula = formula ∧ vc.WellTyped := by
  -- A name of a well-typed formula has a kind, and so it has a declaration of a type of this kind.
  have hnames : ∀ n ∈ formula.names, ∃ k ty, κ.symbol n = some k ∧
      symbolType p i [] n = .ok ty ∧ ty.kind? = some k := by
    intro n hn
    obtain ⟨r, hr, rfl⟩ := List.mem_map.1 hn
    obtain ⟨k, hk⟩ := Expr.exists_symbol_of_mem_readsAt hformula r hr
    obtain ⟨v, hv, hty⟩ := hsymbol r.2 k hk
    refine ⟨k, v.ty, hk, ?_, hty⟩
    rw [symbolType, if_neg List.not_mem_nil, hv]
  have hfunctions : ∀ f ∈ formula.functions, ∃ sig, κ.function f = some sig := fun f =>
    Expr.exists_function_of_mem_functions hformula
  have htypes : ∀ n ∈ formula.names, ∃ ty, symbolType p i [] n = .ok ty := by
    intro n hn
    obtain ⟨-, ty, -, hty, -⟩ := hnames n hn
    exact ⟨ty, hty⟩
  obtain ⟨symbols, functions, hclose⟩ := exists_closeFormula l htypes fun f hf => by
    obtain ⟨sig, hsig⟩ := hfunctions f hf
    obtain ⟨d, hd, -⟩ := Option.bind_eq_some_iff.1 (hfunction f sig hsig)
    exact Option.isSome_of_eq_some hd
  have hclosed := closed_of_closeFormula hclose
  refine ⟨_, hclose, rfl, fun q hq => ?_, ?_⟩
  · -- The type that is listed for a symbol is the one that it is declared with.
    have hmem := (hclosed.names q.1).1 (List.mem_map_of_mem hq)
    obtain ⟨k, ty, -, hty, hkind⟩ := hnames q.1 hmem
    have hsig := signature_symbol_of_closeFormula hclose q.1
    rw [if_pos hmem, hty] at hsig
    obtain ⟨ty', hq', hkind'⟩ := Bounded.exists_mem_symbols (hsig.trans hkind)
    rw [hclosed.types q.1 q.2 ty' hq hq', hkind']
    rfl
  · -- The declarations give names and functions the kinds that they have in the formula.
    refine Expr.kind?_congr (m := .current) hformula (fun r hr l hl => ?_) fun f args hmem l hl => ?_
    · rw [signature_symbol_of_closeFormula hclose, if_pos (Expr.mem_names_of_mem_readsAt hr)]
      obtain ⟨k, ty, hk, hty, hkind⟩ := hnames r.2 (Expr.mem_names_of_mem_readsAt hr)
      rw [hty, ← hl, hk]
      exact hkind
    · rw [signature_function_of_closeFormula hclose, if_pos (Expr.mem_functions.2 ⟨args, hmem⟩)]
      exact hfunction f l hl

/-- Where its declarations are interpreted, a well-typed formula without `old` has a truth value or
divides by zero. -/
theorem VerificationCondition.WellTyped.eval_of_interpretedBy {vc : VerificationCondition}
    (hvc : vc.WellTyped) (hold : vc.formula.OldFree) {v : Valuation} (hv : vc.InterpretedBy v) :
    vc.formula.eval v = .error .divisionByZero ∨ ∃ x, vc.formula.eval v = .ok (.bool x) := by
  refine (Expr.evalAt_of_kind? vc.formula .current hvc.formula ⟨fun r hr k hk => ?_,
    fun f args _ ks k xs => hv.application f ks k xs⟩).imp_right ?_
  · obtain ⟨hcurrent, -⟩ := Expr.symbol_mem_subexprs vc.formula hold r hr
    obtain ⟨x, hx, hkind⟩ := hv.symbol r.2 k hk
    refine ⟨x, ?_, hkind⟩
    rw [hcurrent, Valuation.read, hx]
    rfl
  · rintro ⟨x, hx, hkind⟩
    cases x with
    | int => cases hkind
    | bool x => exact ⟨x, hx⟩

/-! ## Bodies -/

section

variable {o : GenerationOptions} {b : PassiveImplementation} {blockVariables : List Name}

/-- The condition of a passive body is its formula, closed. -/
theorem PassiveImplementation.condition_eq_ok {vc : VerificationCondition} {l : Lexicon}
    (h : (Condition.encode b.body b.order o.encoding).outcome = .ok (formula, blockVariables))
    (hclose : closeFormula ((Condition.encode b.body b.order o.encoding).names.foldl
      Lexicon.mention l) p b.body formula blockVariables = .ok vc) :
    ∃ l', (b.condition p o).run l = (.ok vc, l') := by
  let l' := (Condition.encode b.body b.order o.encoding).names.foldl Lexicon.mention l
  refine ⟨l', NamingExcept.bind_eq_ok.2 ⟨_, l', Minting.run_record_eq_ok h l,
    NamingExcept.bind_eq_ok.2 ⟨l', l', rfl, ?_⟩⟩⟩
  rw [hclose]
  rfl

end

namespace Implementation

variable {o : GenerationOptions} {b : PassiveImplementation} {l l' : Lexicon}

/-- A well-typed body that can be passified has a condition with the conditions of successors copied.
Its formula is a truth value over the names and functions that the condition lists, at the types that
it lists, and asks for no value on entry; so where these are interpreted it has a truth value or
divides by zero. The names in force in the body are distinct and plain, its own contract declares
nothing, and no procedure that it calls has an input with the name of a version. -/
theorem condition_wellTyped (hp : p.WellTyped) (hi : i ∈ p.implementations) (h : i.WellNamed p)
    (hflat : ∀ q, p.procedure? i.name = some q → q.FlatContract)
    (hcallees : ∀ callee ∈ i.callees, ∀ q, p.procedure? callee = some q →
      ∀ x ∈ q.inputs, x.name.Versionless)
    (ho : o.encoding = .inline) (hb : (i.passiveForm p o).run l = (.ok b, l')) (l₁ : Lexicon) :
    ∃ vc l₂, (b.condition p o).run l₁ = (.ok vc, l₂) ∧ vc.WellTyped ∧ vc.formula.OldFree ∧
      ∀ v, vc.InterpretedBy v →
        vc.formula.eval v = .error .divisionByZero ∨ ∃ x, vc.formula.eval v = .ok (.bool x) := by
  obtain ⟨⟨q, e⟩, l₀, hprepare, hb⟩ := NamingExcept.bind_eq_ok.1 hb
  rw [Minting.run_record] at hprepare
  have hprepare := (Prod.ext_iff.1 hprepare).1
  obtain ⟨ds, hready⟩ := (hp.implementations i hi).ready h hp hflat hcallees hprepare
  obtain ⟨_, _, hget, hb⟩ := NamingExcept.bind_eq_ok.1 hb
  cases hget
  rw [Minting.run_record] at hb
  have hpassify := (Prod.ext_iff.1 hb).1
  obtain ⟨κ, hκ, hcmds, hdeclared⟩ := Passive.passify_typed hready hpassify
  -- The passive form is in normal form, so that its condition exists and asks for no value on
  -- entry.
  have hnormal := Passive.passify_normalForm (prepare_returning hprepare)
    (uncritical_prepare hprepare) hpassify
  have hstates : ∀ id ∈ b.order, ∀ c ∈ b.body.cmdsAt id,
      c.isPassive = true ∧ States Expr.OldFree c := by
    intro id hid c hc
    obtain ⟨f, hf, rfl | ⟨a, rfl, rfl⟩⟩ := hnormal.cmds id ((hnormal.order.mem_iff id).1 hid) c hc
    · exact ⟨rfl, hf⟩
    · exact ⟨rfl, hf⟩
  obtain ⟨f, hf⟩ := Condition.exists_inlined hnormal.order fun id hid c hc =>
    (hstates id hid c hc).1
  have hformula := Condition.kept_formula.inlined hcmds hf
  have hold := Condition.kept_oldFree.inlined (fun id hid c hc => (hstates id hid c hc).2) hf
  obtain ⟨vc, hclose, rfl, hvc⟩ := exists_wellTyped_closeFormula
    ((Condition.encode b.body b.order o.encoding).names.foldl Lexicon.mention l₁) hformula
    hdeclared fun f sig hsig => by rwa [hκ] at hsig
  have hencode : (Condition.encode b.body b.order o.encoding).outcome = .ok (vc.formula, []) := by
    rw [ho]
    exact Condition.encode_inline_eq_ok hf
  obtain ⟨l₂, hrun⟩ := PassiveImplementation.condition_eq_ok hencode hclose
  exact ⟨vc, l₂, hrun, hvc, hold, fun v => hvc.eval_of_interpretedBy hold⟩

/-- A body that calls a procedure with two inputs. -/
def callingBody : Implementation where
  name := ⟨"P"⟩
  inputs := []
  outputs := []
  locals := [⟨⟨"a"⟩, .int, none, .local⟩]
  attributes := []
  entry := 0
  blocks :=
    [⟨⟨"entry"⟩, [.call ⟨"Q"⟩ [.binary .add (.symbol ⟨"a"⟩) (.int 1), .bool true] [],
      .assert ⟨.binary .lt (.int 0) (.symbol ⟨"a"⟩), .plain, none, none⟩], [], .ret⟩]

/-- The procedure of the body. -/
def callingProcedure : Procedure := ⟨⟨"P"⟩, [], [], [], [], [], []⟩

/-- The procedure that the body calls, if its second input has a given name. -/
def calledProcedure (n : Name) : Procedure :=
  ⟨⟨"Q"⟩, [⟨⟨"x"⟩, .int, none, .input⟩, ⟨n, .bool, none, .input⟩], [], [], [], [], []⟩

/-- A program with the body. -/
def calling (n : Name) : Program where
  globals := []
  functions := []
  procedures := [callingProcedure, calledProcedure n]
  implementations := [callingBody]

theorem wellTyped_calling {n : Name} (hn : n ≠ ⟨"x"⟩) : (calling n).WellTyped where
  globals := fun _ hv => nomatch hv
  procedures := by
    refine List.forall_mem_cons.2 ⟨⟨.nil, fun v hv => (by cases hv), fun r hr => (by cases hr),
      fun e he => (by cases he)⟩, List.forall_mem_singleton.2 ⟨?_, ?_, fun r hr => (by cases hr),
      fun e he => (by cases he)⟩⟩
    · simpa [calledProcedure] using hn.symm
    · refine List.forall_mem_cons.2 ⟨⟨⟨.int, rfl⟩, fun w hw => (by cases hw)⟩,
        List.forall_mem_singleton.2 ⟨⟨.bool, rfl⟩, fun w hw => (by cases hw)⟩⟩
  implementations := by
    refine List.forall_mem_singleton.2 ⟨fun q hq => ?_, fun q hq => ?_, ?_, ?_⟩
    · cases hq
      exact .nil
    · cases hq
      exact .nil
    · exact List.forall_mem_singleton.2 ⟨⟨.int, rfl⟩, fun w hw => (by cases hw)⟩
    · refine List.forall_mem_singleton.2 ⟨⟨calledProcedure n, rfl, ?_, .nil⟩, rfl, trivial⟩
      exact .cons ⟨.int, rfl, rfl⟩ (.cons ⟨.bool, rfl, rfl⟩ .nil)

theorem wellNamed_calling (n : Name) : callingBody.WellNamed (calling n) where
  nodup := List.nodup_singleton _
  plain := List.forall_mem_singleton.2 (Name.Plain.of_toList (by decide) (by decide))
  formals _ _ _ _ := rfl

theorem flatContract_calling (n : Name) (q : Procedure)
    (hq : (calling n).procedure? callingBody.name = some q) : q.FlatContract := by
  cases hq
  exact ⟨fun r hr => (by cases hr), fun e he => (by cases he)⟩

/-- The body made ready for passification. -/
def callingReadied (n : Name) : Implementation := { callingBody with
  blocks :=
    [⟨⟨"entry"⟩, [.scope [⟨⟨"call0formalx"⟩, .int, none, .local⟩,
        ⟨⟨"call0formal" ++ n.text⟩, .bool, none, .local⟩]
        [.assign [(⟨"call0formalx"⟩, .binary .add (.symbol ⟨"a"⟩) (.int 1)),
          (⟨"call0formal" ++ n.text⟩, .bool true)]],
      .assert ⟨.binary .lt (.int 0) (.symbol ⟨"a"⟩), .plain, none, none⟩], [1], .ret⟩,
     ⟨⟨"PreconditionGeneratedEntry0"⟩, [], [], .goto [0]⟩]
  entry := 1 }

theorem prepare_callingBody {n : Name} (hn : n = ⟨"y"⟩ ∨ n = ⟨"x@0"⟩) :
    (callingBody.prepare (calling n)).outcome =
      .ok (callingProcedure, ⟨callingReadied n, 0, []⟩) := by
  have hcheck : callingBody.check = .ok () := by cbv
  have hcheck' : (callingReadied n).check = .ok () := by cbv
  rcases hn with rfl | rfl <;>
    exact Implementation.prepare_eq_ok.2 ⟨rfl, hcheck, _, _, _, _, rfl, rfl, rfl, rfl,
      hcheck', rfl, rfl⟩

theorem condition_wellTyped_calling :
    ∃ b l' vc l₂, (callingBody.passiveForm (calling ⟨"y"⟩) { encoding := .inline }).run .initial =
        (.ok b, l') ∧
      (b.condition (calling ⟨"y"⟩) { encoding := .inline }).run l' = (.ok vc, l₂) ∧
      vc.WellTyped ∧ vc.formula.OldFree ∧ ∀ v, vc.InterpretedBy v →
        vc.formula.eval v = .error .divisionByZero ∨ ∃ x, vc.formula.eval v = .ok (.bool x) := by
  obtain ⟨b, hb⟩ : ∃ b, ∀ l, (Passive.passify l true (calling ⟨"y"⟩) callingProcedure
      ⟨callingReadied ⟨"y"⟩, 0, []⟩).outcome = .ok b := ⟨_, fun l => by cbv⟩
  obtain ⟨l', h⟩ := exists_passiveForm (o := { encoding := .inline }) .initial
    (prepare_callingBody (.inl rfl)) hb
  have hcallees : ∀ callee ∈ callingBody.callees, ∀ q,
      (calling ⟨"y"⟩).procedure? callee = some q → ∀ x ∈ q.inputs, x.name.Versionless := by
    refine List.forall_mem_singleton.2 fun q hq => ?_
    cases hq
    exact List.forall_mem_cons.2 ⟨Name.ne_incarnation (by decide),
      List.forall_mem_singleton.2 (Name.ne_incarnation (by decide))⟩
  obtain ⟨vc, l₂, hvc, hproperties⟩ := condition_wellTyped (wellTyped_calling (by decide))
    List.mem_cons_self (wellNamed_calling _) (flatContract_calling _) hcallees rfl h l'
  exact ⟨b, l', vc, l₂, h, hvc, hproperties⟩

/-- The version of the one input has the name of the local that keeps the other, and the condition
says of a truth value that it equals an integer. -/
theorem not_condition_wellTyped_calling :
    (calling ⟨"x@0"⟩).WellTyped ∧ callingBody ∈ (calling ⟨"x@0"⟩).implementations ∧
      callingBody.WellNamed (calling ⟨"x@0"⟩) ∧
      (∀ q, (calling ⟨"x@0"⟩).procedure? callingBody.name = some q → q.FlatContract) ∧
      ∃ b l' vc l₂, (callingBody.passiveForm (calling ⟨"x@0"⟩) { encoding := .inline }).run .initial =
          (.ok b, l') ∧
        (b.condition (calling ⟨"x@0"⟩) { encoding := .inline }).run l' = (.ok vc, l₂) ∧
        ∃ v, vc.InterpretedBy v ∧ vc.formula.eval v = .error (.illTyped
          (.binary .eq (.symbol ⟨"call0formalx@0"⟩) (.binary .add (.symbol ⟨"a"⟩) (.int 1)))) := by
  refine ⟨wellTyped_calling (by decide), List.mem_cons_self, wellNamed_calling _,
    flatContract_calling _, ?_⟩
  let v : Valuation := { symbol n := some (if n = ⟨"a"⟩ then .int 0 else .bool true) }
  obtain ⟨b, f, hb, hf, hnames, hint, hbool, hfunctions, heval⟩ : ∃ b f,
      (∀ l, (Passive.passify l true (calling ⟨"x@0"⟩) callingProcedure
        ⟨callingReadied ⟨"x@0"⟩, 0, []⟩).outcome = .ok b) ∧
      (Condition.encode b.body b.order .inline).outcome = .ok (f, []) ∧
      f.names = [⟨"call0formalx@0"⟩, ⟨"a"⟩, ⟨"call0formalx@0"⟩, ⟨"a"⟩] ∧
      symbolType (calling ⟨"x@0"⟩) b.body [] ⟨"a"⟩ = .ok .int ∧
      symbolType (calling ⟨"x@0"⟩) b.body [] ⟨"call0formalx@0"⟩ = .ok .bool ∧
      f.functions = [] ∧ f.eval v = .error (.illTyped
        (.binary .eq (.symbol ⟨"call0formalx@0"⟩) (.binary .add (.symbol ⟨"a"⟩) (.int 1)))) :=
    ⟨_, _, fun l => by cbv, by cbv, by cbv, by cbv, by cbv, by cbv, by cbv⟩
  obtain ⟨l', h⟩ := exists_passiveForm (o := { encoding := .inline }) .initial
    (prepare_callingBody (.inr rfl)) hb
  -- The condition reads the input, which is an integer, and the name that has become a truth value.
  have htypes : ∀ n ∈ f.names, n = ⟨"a"⟩ ∨ n = ⟨"call0formalx@0"⟩ := by
    rw [hnames]
    decide
  obtain ⟨symbols, functions, hclose⟩ : ∃ symbols functions, closeFormula
      ((Condition.encode b.body b.order .inline).names.foldl Lexicon.mention l')
      (calling ⟨"x@0"⟩) b.body f [] = .ok ⟨b.body.name, f, symbols, functions, []⟩ := by
    refine exists_closeFormula _ (fun n hn => ?_) fun g hg => ?_
    · rcases htypes n hn with rfl | rfl
      · exact ⟨.int, hint⟩
      · exact ⟨.bool, hbool⟩
    · rw [hfunctions] at hg
      cases hg
  obtain ⟨l₂, hrun⟩ := PassiveImplementation.condition_eq_ok (o := { encoding := .inline }) hf hclose
  refine ⟨b, l', ⟨b.body.name, f, symbols, functions, []⟩, l₂, h, hrun, v,
    ⟨fun n k hn => ⟨_, rfl, ?_⟩, fun g ks k xs hg => ?_⟩, heval⟩
  · rw [signature_symbol_of_closeFormula hclose] at hn
    split_ifs at hn with hmem
    rcases htypes n hmem with rfl | rfl
    · rw [hint] at hn
      exact Option.some.inj hn
    · rw [hbool] at hn
      exact Option.some.inj hn
  · rw [signature_function_of_closeFormula hclose, hfunctions] at hg
    cases hg

end Implementation

end Obligations
