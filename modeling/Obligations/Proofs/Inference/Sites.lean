import Obligations.Inference.System
import Obligations.Proofs.Condition.Functions
import Obligations.Proofs.Passive.Failure

/-!
# Where placeholders occur

If a program applies no placeholder of its own, the condition of a body applies the placeholders of
the body itself and of the bodies that it calls, and no others. So every site of a body's condition
is known to the call graph (`ConditionSystem.ofProgram_wired`), and a change of a summary makes the
queries about callers new, and no others.
-/

namespace Obligations

/-- The placeholders of different bodies have different names. -/
theorem summaryPredicate_injective : Function.Injective summaryPredicate := by
  rintro ⟨a⟩ ⟨b⟩ h
  have hlists := congrArg (fun n : Name => n.text.toList) h
  simp only [summaryPredicate, String.toList_append] at hlists
  exact congrArg Name.mk (String.toList_inj.1 (List.append_cancel_right hlists))

/-! ## Placeholders -/

/-- A placeholder is that of a body: it has the name of the body's predicate, and its arguments
apply no function. -/
structure Placeholder.For (h : Placeholder) (i : Implementation) : Prop where
  /-- The body. -/
  body : h.body = i.name
  /-- The name of the predicate. -/
  name : h.function.name = summaryPredicate i.name
  /-- The arguments. -/
  args : ∀ a ∈ h.args, ∀ f, f ∉ a.functions

theorem notMem_functions_placeholderArgs {p : Program} {q : Procedure} {i : Implementation}
    {args : List PlaceholderArg} (h : placeholderArgs p q i = .ok args) {a : PlaceholderArg}
    (ha : a ∈ args) (f : Name) : f ∉ a.arg.functions := by
  unfold placeholderArgs at h
  obtain ⟨changed, hchanged, h⟩ := bind_eq_ok.1 h
  cases h
  rcases List.mem_append.1 ha with ha | ha
  · rcases List.mem_append.1 ha with ha | ha
    · obtain ⟨g, -, rfl⟩ := List.mem_map.1 ha
      simp
    · obtain ⟨d, -, v, -, rfl⟩ := exists_of_mem_zipWith ha
      simp
  · obtain ⟨g, -, hg⟩ := exists_mem_of_forall₂ (mapM_eq_ok_iff.1 hchanged).flip ha
    cases hd : p.global? g with
    | none =>
      rw [hd] at hg
      cases hg
    | some d =>
      rw [hd] at hg
      cases hg
      simp

theorem placeholder_for {p : Program} {i : Implementation} {h : Placeholder}
    (hh : (placeholder p i).outcome = .ok h) : h.For i := by
  unfold placeholder at hh
  split at hh
  · cases hh
  · split_ifs at hh
    · cases hh
    · obtain ⟨-, -, hh⟩ := Minting.bind_eq_ok.1 hh
      obtain ⟨args, hargs, hh⟩ := Minting.bind_eq_ok.1 hh
      cases hh
      refine ⟨rfl, rfl, fun a ha f => ?_⟩
      obtain ⟨arg, harg, rfl⟩ := List.mem_map.1 ha
      exact notMem_functions_placeholderArgs hargs harg f

/-- Bodies that get placeholders have different names. -/
theorem placeholders_for {p : Program} : ∀ {is : List Implementation} {seen : List Name}
    {hs : List Placeholder}, (placeholders p seen is).outcome = .ok hs →
      List.Forall₂ Placeholder.For hs is ∧ (is.map (·.name)).Nodup ∧ ∀ i ∈ is, i.name ∉ seen
  | [], _, _, h => by
    cases h
    exact ⟨.nil, List.nodup_nil, fun i hi => by cases hi⟩
  | i :: is, seen, _, h => by
    unfold placeholders at h
    split_ifs at h with hseen
    · cases h
    · obtain ⟨h₁, hfirst, h⟩ := Minting.bind_eq_ok.1 h
      obtain ⟨hs, hrest, h⟩ := Minting.bind_eq_ok.1 h
      cases h
      obtain ⟨hall, hnodup, hnew⟩ := placeholders_for hrest
      refine ⟨.cons (placeholder_for hfirst) hall, ?_, ?_⟩
      · rw [List.map_cons, List.nodup_cons]
        refine ⟨fun hmem => ?_, hnodup⟩
        obtain ⟨j, hj, hname⟩ := List.mem_map.1 hmem
        exact hnew j hj (hname ▸ List.mem_cons_self)
      · exact List.forall_mem_cons.2
          ⟨hseen, fun j hj hmem => hnew j hj (List.mem_cons_of_mem _ hmem)⟩

/-- Each body gets the placeholder that is made for it. -/
theorem forall₂_placeholders {p : Program} : ∀ {is : List Implementation} {seen : List Name}
    {hs : List Placeholder}, (placeholders p seen is).outcome = .ok hs →
      List.Forall₂ (fun h i => (placeholder p i).outcome = .ok h) hs is
  | [], _, _, h => by
    cases h
    exact .nil
  | i :: is, seen, _, h => by
    unfold placeholders at h
    split_ifs at h
    · cases h
    · obtain ⟨h₁, hfirst, h⟩ := Minting.bind_eq_ok.1 h
      obtain ⟨hs, hrest, h⟩ := Minting.bind_eq_ok.1 h
      cases h
      exact .cons hfirst (forall₂_placeholders hrest)

/-! ## Contracts with placeholders -/

/-- The postcondition that stands for the summary of a body. -/
def Placeholder.clause (h : Placeholder) : Ensures :=
  ⟨.formula (.apply h.function.name h.args), false, [], none⟩

section

variable {α : Type} {is : α → Bool} {f : α → α}

/-- The first element that a kind selects is changed if the selection is that of the change. -/
theorem find?_modifyFirst_self (hf : ∀ a, is (f a) = is a) (as : List α) :
    (modifyFirst is f as).find? is = (as.find? is).map f := by
  induction as with
  | nil => rfl
  | cons a as ih =>
    unfold modifyFirst
    by_cases ha : is a = true
    · simp [ha, hf a]
    · simp [ha, ih]

/-- A selection that the changed elements are not of is not affected. -/
theorem find?_modifyFirst_of_disjoint {which : α → Bool} (hf : ∀ a, which (f a) = which a)
    (hdisjoint : ∀ a, is a = true → which a = false) (as : List α) :
    (modifyFirst is f as).find? which = as.find? which := by
  induction as with
  | nil => rfl
  | cons a as ih =>
    unfold modifyFirst
    by_cases ha : is a = true
    · have hwhich := hdisjoint a ha
      simp [ha, hf a, hwhich]
    · simp [ha, ih, List.find?_cons]

end

namespace Program

variable {p : Program} {V : Vocabulary}

theorem procedure?_attach (p : Program) (h : Placeholder) (n : Name) :
    (p.attach h).procedure? n = if h.body = n then
      (p.procedure? n).map fun q => { q with ensures := q.ensures ++ [h.clause] }
    else p.procedure? n := by
  unfold procedure? attach
  dsimp only
  split_ifs with hbody
  · subst hbody
    rw [find?_modifyFirst_self]
    · rfl
    · exact fun _ => rfl
  · rw [find?_modifyFirst_of_disjoint]
    · exact fun _ => rfl
    · intro q hq
      rw [decide_eq_true_eq] at hq
      exact decide_eq_false (hq ▸ hbody)

/-- The contract of a procedure gets a postcondition for each placeholder of its bodies. -/
theorem procedure?_attachAll (hs : List Placeholder) (p : Program) (n : Name) :
    (hs.foldl attach p).procedure? n = (p.procedure? n).map fun q =>
      { q with ensures := q.ensures ++ (hs.filter (·.body = n)).map Placeholder.clause } := by
  induction hs generalizing p with
  | nil =>
    rw [List.foldl_nil]
    cases p.procedure? n <;> simp
  | cons h hs ih =>
    rw [List.foldl_cons, ih, procedure?_attach, List.filter_cons]
    by_cases hbody : h.body = n
    · cases p.procedure? n <;> simp [hbody]
    · simp [hbody]

/-- The contracts of a program stay within a vocabulary when placeholders are added that are
within it, or that are those of other procedures. -/
theorem within_procedure?_attachAll {n : Name} {hs : List Placeholder}
    (hh : ∀ h ∈ hs, h.body = n → V.expr (.apply h.function.name h.args))
    (hn : ∀ q, p.procedure? n = some q → q.Within V) :
    ∀ q, (hs.foldl attach p).procedure? n = some q → q.Within V := by
  intro q' hq'
  rw [procedure?_attachAll] at hq'
  obtain ⟨q, hq, rfl⟩ := Option.map_eq_some_iff.1 hq'
  have hwithin := hn q hq
  refine ⟨hwithin.inputs, hwithin.outputs, hwithin.requires, fun e he => ?_, hwithin.modifies⟩
  rcases List.mem_append.1 he with he | he
  · exact hwithin.ensures e he
  · obtain ⟨h, hmem, rfl⟩ := List.mem_map.1 he
    obtain ⟨hmem, hbody⟩ := List.mem_filter.1 hmem
    exact hh h hmem (of_decide_eq_true hbody)

/-- Placeholders do not change globals and bodies. -/
theorem attachAll_eq (hs : List Placeholder) (p : Program) :
    (hs.foldl attach p).globals = p.globals ∧
      (hs.foldl attach p).implementations = p.implementations := by
  induction hs generalizing p with
  | nil => exact ⟨rfl, rfl⟩
  | cons h hs ih => exact ih (p.attach h)

end Program

/-! ## Systems -/

section

variable {p : Program} {o : GenerationOptions}

theorem mem_placeholderSites {predicates : List Name} {formula : Expr} {target : Nat}
    {args : List Expr} : (target, args) ∈ placeholderSites predicates formula ↔
      ∃ f, predicates[target]? = some f ∧ .apply f args ∈ formula.subexprs := by
  unfold placeholderSites
  simp only [List.mem_flatMap, List.mem_filterMap, Prod.exists, List.mem_zipIdx_iff_getElem?]
  constructor
  · rintro ⟨f, t, hf, a, ha, heq⟩
    rw [Expr.applicationsOf, List.mem_eraseDups, List.mem_filter] at ha
    cases a <;> cases heq
    obtain ⟨hmem, hhead⟩ := ha
    rw [decide_eq_true_eq] at hhead
    cases hhead
    exact ⟨_, hf, hmem⟩
  · rintro ⟨f, hf, hmem⟩
    refine ⟨f, target, hf, .apply f args, ?_, rfl⟩
    rw [Expr.applicationsOf, List.mem_eraseDups, List.mem_filter]
    exact ⟨hmem, decide_eq_true rfl⟩

/-- The node of a body has the body's name, its condition in the program, and the end state that its
passive form asserts. -/
structure Node.For (n : Node) (p : Program) (o : GenerationOptions) (i : Implementation) :
    Prop where
  /-- The name. -/
  name : n.name = i.name
  /-- The condition and the end state. -/
  condition : ∃ (b : PassiveImplementation) (l₁ l₂ l₃ l₄ : Lexicon),
    (i.passiveForm p o).run l₁ = (.ok b, l₂) ∧ (b.condition p o).run l₃ = (.ok n.condition, l₄) ∧
      b.endState = .ok n.endState
  /-- The end state has a term for each name. -/
  length : n.endState.length = n.keys.length

theorem Placeholder.node_for {h : Placeholder} {i : Implementation} {n : Node} {l l' : Lexicon}
    (hn : (h.node p o i).run l = (.ok n, l')) : n.For p o i := by
  have hadapt : ∀ {α : Type} {x : NamingExcept ConditionError α} {a : α} {l l' : Lexicon},
      (ExceptT.adapt .condition x : NamingExcept InferenceError α).run l = (.ok a, l') →
        x.run l = (.ok a, l') := by
    intro α x a l l' hx
    rw [NamingExcept.run_adapt] at hx
    rcases hrun : x.run l with ⟨r, l₁⟩
    rw [hrun] at hx
    cases r <;> cases hx
    rfl
  obtain ⟨b, l₁, hb, hn⟩ := NamingExcept.bind_eq_ok.1 hn
  obtain ⟨vc, l₂, hvc, hn⟩ := NamingExcept.bind_eq_ok.1 hn
  obtain ⟨terms, l₃, hterms, hn⟩ := NamingExcept.bind_eq_ok.1 hn
  split_ifs at hn with hlength
  · cases hn
  · cases hn
    exact ⟨rfl, ⟨b, _, _, _, _, hadapt hb, hadapt hvc, (Prod.ext_iff.1 hterms).1⟩,
      not_ne_iff.1 hlength⟩

/-- The condition of a formula exists if its symbols and functions are declared. -/
theorem exists_closeFormula {p : Program} {i : Implementation} {formula : Expr}
    {blockVariables : List Name} (l : Lexicon)
    (hsymbols : ∀ n ∈ formula.names, ∃ ty, symbolType p i blockVariables n = .ok ty)
    (hfunctions : ∀ f ∈ formula.functions, (p.function? f).isSome = true) :
    ∃ symbols functions,
      closeFormula l p i formula blockVariables =
        .ok ⟨i.name, formula, symbols, functions, blockVariables⟩ := by
  -- Each symbol and each function is looked up by itself, so all are found if each one is.
  have hs : ∃ symbols, (l.sortedSet formula.names).mapM (fun n => do
      let ty ← symbolType p i blockVariables n
      return (n, ty)) = .ok symbols := by
    refine (exists_mapM_eq_ok (R := fun _ _ => True) fun n hn => ?_).imp fun _ h => h.1
    obtain ⟨ty, hty⟩ := hsymbols n (Lexicon.mem_sortedSet.1 hn)
    exact ⟨(n, ty), bind_eq_ok.2 ⟨ty, hty, rfl⟩, trivial⟩
  have hf : ∃ functions, formula.functions.mapM (fun f => (p.function? f).elim
      (Except.error (ConditionError.inconsistent (.undeclaredFunction f))) .ok) = .ok functions := by
    refine (exists_mapM_eq_ok (R := fun _ _ => True) fun f hf => ?_).imp fun _ h => h.1
    obtain ⟨a, ha⟩ := Option.isSome_iff_exists.1 (hfunctions f hf)
    exact ⟨a, by rw [ha]; rfl, trivial⟩
  obtain ⟨symbols, hs⟩ := hs
  obtain ⟨functions, hf⟩ := hf
  exact ⟨symbols, functions, bind_eq_ok.2 ⟨symbols, hs, bind_eq_ok.2 ⟨functions, hf, rfl⟩⟩⟩

/-- A body has a node if it can be made ready and be passified, the symbols and the functions of its
formula are declared, and it asserts its summary. -/
theorem Placeholder.exists_node {h : Placeholder} {i : Implementation} {q : Procedure}
    {e : SingleExit} {b : PassiveImplementation} {formula : Expr} {blockVariables : List Name}
    {terms : List Expr} (hprepare : (i.prepare p).outcome = .ok (q, e))
    (hpassify : ∀ l, (Passive.passify l o.prune p q e).outcome = .ok b)
    (hencode : (Condition.encode b.body b.order o.encoding).outcome = .ok (formula, blockVariables))
    (hsymbols : ∀ n ∈ formula.names, ∃ ty, symbolType p b.body blockVariables n = .ok ty)
    (hfunctions : ∀ f ∈ formula.functions, (p.function? f).isSome = true)
    (hterms : b.endState = .ok terms) (hlength : terms.length = h.keys.length) (l : Lexicon) :
    ∃ symbols functions l₁ l',
      closeFormula l₁ p b.body formula blockVariables =
        .ok ⟨b.body.name, formula, symbols, functions, blockVariables⟩ ∧
      (h.node p o i).run l = (.ok ⟨i.name, h.keys, h.ownTerms,
        ⟨b.body.name, formula, symbols, functions, blockVariables⟩, terms, []⟩, l') := by
  -- The errors of the conditions become errors of inference, and there are none.
  have hadapt : ∀ {α : Type} {x : NamingExcept ConditionError α} {a : α} {l l' : Lexicon},
      x.run l = (.ok a, l') →
        (ExceptT.adapt .condition x : NamingExcept InferenceError α).run l = (.ok a, l') := by
    intro α x a l l' hx
    rw [NamingExcept.run_adapt, hx]
    rfl
  obtain ⟨l₁, hpassive⟩ := Implementation.exists_passiveForm l hprepare hpassify
  let l₂ := (Condition.encode b.body b.order o.encoding).names.foldl Lexicon.mention l₁
  obtain ⟨symbols, functions, hclose⟩ := exists_closeFormula l₂ hsymbols hfunctions
  have hcondition : (b.condition p o).run l₁ =
      (.ok ⟨b.body.name, formula, symbols, functions, blockVariables⟩, l₂) := by
    refine NamingExcept.bind_eq_ok.2 ⟨(formula, blockVariables), l₂,
      Minting.run_record_eq_ok hencode l₁, NamingExcept.bind_eq_ok.2 ⟨l₂, l₂, rfl, ?_⟩⟩
    rw [hclose]
    rfl
  refine ⟨symbols, functions, l₂, l₂, hclose, NamingExcept.bind_eq_ok.2 ⟨b, l₁, hadapt hpassive,
    NamingExcept.bind_eq_ok.2 ⟨_, l₂, hadapt hcondition,
      NamingExcept.bind_eq_ok.2 ⟨terms, l₂, ?_, ?_⟩⟩⟩⟩
  · rw [hterms]
    rfl
  · rw [if_neg (fun h => h hlength)]
    rfl

/-- The condition of a body is within a vocabulary about applications if the program is, and the
placeholders in the contracts that count for the body are. -/
theorem Node.For.expr_formula {V : Vocabulary} (hV : V.AboutApplications) {n : Node}
    {i : Implementation} {hs : List Placeholder} (hn : n.For (hs.foldl Program.attach p) o i)
    (hi : i ∈ p.implementations) (hp : p.Within V)
    (hhs : ∀ h ∈ hs, h.body = i.name ∨ h.body ∈ (i.blocks.flatMap fun b => Cmd.calleesAll b.cmds) →
      V.expr (.apply h.function.name h.args)) : V.expr n.condition.formula := by
  obtain ⟨hglobals, -⟩ := Program.attachAll_eq hs p
  obtain ⟨b, l₁, l₂, l₃, l₄, hb, hvc, -⟩ := hn.condition
  have hcontract : ∀ m, m = i.name ∨ m ∈ (i.blocks.flatMap fun b => Cmd.calleesAll b.cmds) →
      ∀ q, (hs.foldl Program.attach p).procedure? m = some q → q.Within V := by
    intro m hm
    refine Program.within_procedure?_attachAll (fun h hh hbody => hhs h hh (hbody ▸ hm)) ?_
    exact fun q hq => hp.procedures q (List.mem_of_find?_eq_some hq)
  exact Implementation.expr_condition hV (hglobals ▸ hp.globals) (hp.implementations i hi)
    (hcontract i.name (.inl rfl)) (fun m hm => hcontract m (.inr hm)) hb hvc

/-- The placeholder of a body that a body does not call is not applied in the body's condition. -/
theorem Node.For.notMem_functions {n : Node} {i : Implementation} {hs : List Placeholder} {f : Name}
    (hn : n.For (hs.foldl Program.attach p) o i) (hi : i ∈ p.implementations)
    (hp : p.Within (.avoiding f))
    (hhs : ∀ h ∈ hs, h.body = i.name ∨ h.body ∈ (i.blocks.flatMap fun b => Cmd.calleesAll b.cmds) →
      f ∉ (Expr.apply h.function.name h.args).functions) : f ∉ n.condition.formula.functions :=
  hn.expr_formula (Vocabulary.aboutApplications_avoiding f) hi hp hhs

end

/-- The bodies of a system whose conditions apply the placeholder of another body are the callers of
that body, and the sites are all applications of placeholders. -/
structure ConditionSystem.Wired (c : ConditionSystem) : Prop where
  /-- There is a condition for every body. -/
  names : c.nodes.map (·.name) = c.program.implementations.map (·.name)
  /-- All applications of placeholders are sites. -/
  sites : ∀ n ∈ c.nodes, n.sites =
    placeholderSites (c.nodes.map fun m => summaryPredicate m.name) n.condition.formula
  /-- Placeholders of other bodies are those of bodies that are called. -/
  callers : ∀ i j n m, c.nodes[i]? = some n → c.nodes[j]? = some m → i ≠ j →
    summaryPredicate m.name ∈ n.condition.formula.functions → i ∈ c.calls.callers j

/-- A body that calls another one is among the callers of that one. -/
theorem CallGraph.mem_callers {p : Program} {i j : Nat} {a b : Implementation}
    (hnodup : (p.implementations.map (·.name)).Nodup) (ha : p.implementations[i]? = some a)
    (hb : p.implementations[j]? = some b)
    (hcall : b.name ∈ a.blocks.flatMap fun b => Cmd.calleesAll b.cmds) :
    i ∈ (CallGraph.ofProgram p).callers j := by
  have hindex : p.implementations.findIdx? (·.name = b.name) = some j := by
    rw [List.findIdx?_eq_some_iff_getElem]
    obtain ⟨hj, rfl⟩ := List.getElem?_eq_some_iff.1 hb
    refine ⟨hj, decide_eq_true rfl, fun k hk => ?_⟩
    have hne := List.pairwise_iff_getElem.1 hnodup k j (by simp; omega) (by simpa using hj) hk
    simpa using hne
  unfold callers
  rw [List.mem_filter, List.mem_range, decide_eq_true_eq]
  obtain ⟨hi, -⟩ := List.getElem?_eq_some_iff.1 ha
  refine ⟨by simpa [size, ofProgram] using hi, ?_⟩
  have hsuccessors : (ofProgram p).successors i = a.calledBodies p := by
    simp [successors, ofProgram, ha]
  rw [hsuccessors, Implementation.calledBodies, List.mem_eraseDups]
  exact List.mem_filterMap.2 ⟨_, hcall, hindex⟩

/-- A program does not apply the placeholders of its bodies itself, in its contracts, its bodies and
the conditions on variables. -/
def Program.LeavesPlaceholders (p : Program) : Prop :=
  ∀ i ∈ p.implementations, p.Within (.avoiding (summaryPredicate i.name))

/-- A system has the bodies of its program. -/
theorem ConditionSystem.implementations_ofProgram {p : Program} {o : GenerationOptions}
    {l l' : Lexicon} {c : ConditionSystem} (hc : (ofProgram p o).run l = (.ok c, l')) :
    c.program.implementations = p.implementations := by
  obtain ⟨hs, l₁, -, hc⟩ := NamingExcept.bind_eq_ok.1 hc
  obtain ⟨nodes, l₂, -, hc⟩ := NamingExcept.bind_eq_ok.1 hc
  cases hc
  exact (Program.attachAll_eq hs p).2

/-- A system has a node for each body, which is formed after each body has got its placeholder. -/
theorem ConditionSystem.ofProgram_made {p : Program} {o : GenerationOptions} {l l' : Lexicon}
    {c : ConditionSystem} (hc : (ofProgram p o).run l = (.ok c, l')) :
    ∃ (hs : List Placeholder) (nodes : List Node),
      List.Forall₂ (fun h i => (placeholder p i).outcome = .ok h) hs p.implementations ∧
        (p.implementations.map (·.name)).Nodup ∧
        List.Forall₂ (fun n (hi : Placeholder × Implementation) =>
          ∃ l l', (hi.1.node (hs.foldl Program.attach p) o hi.2).run l = (.ok n, l')) nodes
            (hs.zip p.implementations) ∧
        c = ⟨hs.foldl Program.attach p, nodes.map fun n => { n with
          sites := placeholderSites (nodes.map fun m => summaryPredicate m.name)
            n.condition.formula }, CallGraph.ofProgram (hs.foldl Program.attach p)⟩ := by
  obtain ⟨hs, l₁, hhs, hc⟩ := NamingExcept.bind_eq_ok.1 hc
  rw [Minting.run_record] at hhs
  obtain ⟨-, hnodup, -⟩ := placeholders_for (Prod.ext_iff.1 hhs).1
  obtain ⟨nodes, l₂, hnodes, hc⟩ := NamingExcept.bind_eq_ok.1 hc
  cases hc
  rw [(Program.attachAll_eq hs p).2] at hnodes
  exact ⟨hs, nodes, forall₂_placeholders (Prod.ext_iff.1 hhs).1, hnodup,
    (NamingExcept.forall₂_of_mapM_eq_ok hnodes).flip, rfl⟩

/-- The same of what is known of nodes and placeholders. -/
theorem ConditionSystem.ofProgram_eq_ok {p : Program} {o : GenerationOptions} {l l' : Lexicon}
    {c : ConditionSystem} (hc : (ofProgram p o).run l = (.ok c, l')) :
    ∃ (hs : List Placeholder) (nodes : List Node),
      List.Forall₂ Placeholder.For hs p.implementations ∧ (p.implementations.map (·.name)).Nodup ∧
        List.Forall₂ (fun n i => Node.For n (hs.foldl Program.attach p) o i) nodes
          p.implementations ∧
        c = ⟨hs.foldl Program.attach p, nodes.map fun n => { n with
          sites := placeholderSites (nodes.map fun m => summaryPredicate m.name)
            n.condition.formula }, CallGraph.ofProgram (hs.foldl Program.attach p)⟩ := by
  obtain ⟨hs, nodes, hplaceholders, hnodup, hnodes, hc⟩ := ofProgram_made hc
  have hzip := hnodes.flip.imp fun (hi : Placeholder × Implementation) n ⟨_, _, hn⟩ =>
    (Placeholder.node_for hn : n.For (hs.foldl Program.attach p) o hi.2)
  have hsnd : List.Forall₂ (fun i (n : Node) => n.For (hs.foldl Program.attach p) o i)
      ((hs.zip p.implementations).map Prod.snd) nodes := List.forall₂_map_left_iff.2 hzip
  rw [List.map_snd_zip hplaceholders.length_eq.ge] at hsnd
  exact ⟨hs, nodes, hplaceholders.imp fun _ _ => placeholder_for, hnodup, hsnd.flip, hc⟩

/-- In the system of a program that does not apply placeholders itself the call graph knows all
placeholders that occur. -/
theorem ConditionSystem.ofProgram_wired {p : Program} {o : GenerationOptions} {l l' : Lexicon}
    {c : ConditionSystem} (hp : p.LeavesPlaceholders) (hc : (ofProgram p o).run l = (.ok c, l')) :
    c.Wired := by
  obtain ⟨hs, nodes, hfor, hnodup, hall, rfl⟩ := ofProgram_eq_ok hc
  obtain ⟨-, himplementations⟩ := Program.attachAll_eq hs p
  refine ⟨?_, ?_, ?_⟩
  · rw [himplementations, List.map_map]
    exact map_eq_of_forall₂ hall fun n i h => h.name
  · intro n hn
    obtain ⟨n, -, rfl⟩ := List.mem_map.1 hn
    rw [List.map_map]
    rfl
  · intro i j n m hn hm hij hmem
    dsimp only at hn hm ⊢
    rw [List.getElem?_map, Option.map_eq_some_iff] at hn hm
    obtain ⟨n, hn, rfl⟩ := hn
    obtain ⟨m, hm, rfl⟩ := hm
    obtain ⟨a, ha, hna⟩ := exists_getElem?_of_forall₂ hall hn
    obtain ⟨b, hb, hmb⟩ := exists_getElem?_of_forall₂ hall hm
    by_contra hcallers
    refine hna.notMem_functions (List.mem_of_getElem? ha) (hp b (List.mem_of_getElem? hb)) ?_
      (hmb.name ▸ hmem)
    -- A contract that counts for the body applies the placeholder of the body itself or of a body
    -- that it calls.
    intro h hh hbody
    obtain ⟨k, -, hk⟩ := exists_mem_of_forall₂ hfor hh
    rw [Expr.mem_functions_apply, not_or]
    refine ⟨fun hname => ?_, fun ⟨e, he, hmem⟩ => hk.args e he _ hmem⟩
    have hkb : h.body = b.name :=
      hk.body.trans (summaryPredicate_injective (hname.trans hk.name)).symm
    rcases hbody with hbody | hbody
    · obtain ⟨hi, -⟩ := List.getElem?_eq_some_iff.1 ha
      refine hij ((List.getElem?_inj (by simpa using hi) hnodup).1 ?_)
      rw [List.getElem?_map, List.getElem?_map, ha, hb]
      exact congrArg some (hbody.symm.trans hkb)
    · refine hcallers (CallGraph.mem_callers ?_ ?_ ?_ (hkb ▸ hbody))
      · rwa [himplementations]
      · rwa [himplementations]
      · rwa [himplementations]

end Obligations
