import Obligations.Proofs.Inference.Termination

/-!
# What the parts of a system agree on

The bodies of a system have their end states, their terms and the sites at which their placeholders
are applied from different stages. If a program does not apply placeholders itself, they agree
(`ConditionSystem.ofProgram_coherent`): a placeholder is applied to as many arguments everywhere as
its body has names in an end state, these names include all integer variables that the body can
change, and the symbols that a condition declares are those that occur in it, each with one type.
-/

namespace Obligations

open Summary

/-- The integer variables that a body of a program can change. -/
def Program.monitored (p : Program) (i : Nat) : List Name :=
  ((p.implementations[i]?.bind fun b =>
    (p.procedure? b.name).map fun q => Summary.monitored p q b)).getD []

/-! ## Declarations of symbols -/

/-- A condition declares the symbols that occur in it, each with one type. -/
structure VerificationCondition.Closed (vc : VerificationCondition) : Prop where
  /-- The symbols that it declares are those that occur in it. -/
  names : ∀ n, n ∈ vc.symbols.map (·.1) ↔ n ∈ vc.formula.names
  /-- They have one type each. -/
  types : ∀ n ty ty', (n, ty) ∈ vc.symbols → (n, ty') ∈ vc.symbols → ty = ty'

theorem closed_of_closeFormula {l : Lexicon} {p : Program} {i : Implementation} {formula : Expr}
    {blockVariables : List Name} {vc : VerificationCondition}
    (h : closeFormula l p i formula blockVariables = .ok vc) : vc.Closed := by
  obtain ⟨symbols, hsymbols, h⟩ := bind_eq_ok.1 h
  obtain ⟨functions, -, h⟩ := bind_eq_ok.1 h
  cases h
  -- The symbols are paired with their types one by one, in the order of the sorted names.
  have hall : List.Forall₂ (fun n q => q.1 = n ∧ symbolType p i blockVariables n = .ok q.2)
      (l.sortedSet formula.names) symbols := by
    refine (mapM_eq_ok_iff.1 hsymbols).imp fun n q hq => ?_
    obtain ⟨ty, hty, heq⟩ := bind_eq_ok.1 hq
    cases heq
    exact ⟨rfl, hty⟩
  have htype : ∀ n ty, (n, ty) ∈ symbols → symbolType p i blockVariables n = .ok ty := by
    intro n ty hmem
    obtain ⟨m, -, rfl, hty⟩ := exists_mem_of_forall₂ hall.flip hmem
    exact hty
  refine ⟨fun n => ?_, fun n ty ty' hty hty' => ?_⟩
  · have hnames : l.sortedSet formula.names = symbols.map (·.1) := by
      simpa using map_eq_of_forall₂ (f := id) hall fun n q hq => hq.1.symm
    dsimp only
    rw [← hnames]
    exact Lexicon.mem_sortedSet
  · exact Except.ok.inj ((htype n ty hty).symm.trans (htype n ty' hty'))

/-! ## Names of end states -/

section

variable {p : Program} {i : Implementation} {h : Placeholder}

/-- Outputs and the globals that a body can change have names in its end state. -/
theorem key_mem_placeholderArgs {q : Procedure} {args : List PlaceholderArg}
    (hargs : placeholderArgs p q i = .ok args) (hinputs : q.inputs.length = i.inputs.length)
    (houtputs : q.outputs.length = i.outputs.length) :
    (∀ v ∈ i.outputs, v.name ∈ args.map (·.key)) ∧ ∀ g ∈ q.modifies, g ∈ args.map (·.key) := by
  obtain ⟨changed, hchanged, heq⟩ := bind_eq_ok.1 hargs
  cases heq
  refine ⟨fun v hv => ?_, fun g hg => ?_⟩
  · have hlength : (q.inputs ++ q.outputs).length = (i.inputs ++ i.outputs).length := by
      rw [List.length_append, List.length_append, hinputs, houtputs]
    obtain ⟨k, hk, rfl⟩ := List.getElem_of_mem (List.mem_append_right i.inputs hv)
    have hzip : k < ((q.inputs ++ q.outputs).zipWith (fun d v =>
        (⟨v.name, d.ty, .symbol d.name, .symbol v.name⟩ : PlaceholderArg))
          (i.inputs ++ i.outputs)).length := by
      rw [List.length_zipWith, hlength, Nat.min_self]
      exact hk
    rw [List.map_append, List.map_append]
    refine List.mem_append_left _ (List.mem_append_right _ (List.mem_map.2
      ⟨_, List.getElem_mem hzip, ?_⟩))
    rw [List.getElem_zipWith]
  · obtain ⟨a, ha, hg⟩ := exists_mem_of_forall₂ (mapM_eq_ok_iff.1 hchanged) hg
    have hkey : a.key = g := by
      cases hd : p.global? g with
      | none =>
        rw [hd] at hg
        cases hg
      | some d =>
        rw [hd] at hg
        cases hg
        rfl
    rw [List.map_append]
    exact List.mem_append_right _ (hkey ▸ List.mem_map_of_mem ha)

/-- A placeholder has an argument and a term for each name, and among the names are the integer
variables that the body can change. -/
theorem placeholder_keys (hh : (placeholder p i).outcome = .ok h) :
    h.args.length = h.keys.length ∧ h.ownTerms.length = h.keys.length ∧
      ∀ q, p.procedure? i.name = some q → Summary.monitored p q i ⊆ h.keys := by
  unfold placeholder at hh
  split at hh
  · cases hh
  · rename_i q hq
    split_ifs at hh with hsignature
    · cases hh
    · obtain ⟨-, -, hh⟩ := Minting.bind_eq_ok.1 hh
      obtain ⟨args, hargs, hh⟩ := Minting.bind_eq_ok.1 hh
      cases hh
      rw [not_or, not_ne_iff, not_ne_iff] at hsignature
      obtain ⟨houtputs, hmodifies⟩ := key_mem_placeholderArgs hargs hsignature.1 hsignature.2
      refine ⟨by simp, by simp, fun q' hq' x hx => ?_⟩
      cases hq.symm.trans hq'
      rw [Summary.monitored, List.mem_eraseDups, List.mem_map] at hx
      obtain ⟨v, hv, rfl⟩ := hx
      -- A variable that is monitored is a global that the contract lists or an output.
      rcases List.mem_append.1 (List.mem_filter.1 hv).1 with hv | hv
      · obtain ⟨g, hg, hglobal⟩ := List.mem_filterMap.1 hv
        have hname : v.name = g :=
          of_decide_eq_true (List.find?_some (p := fun v : Variable => v.name = g) hglobal)
        exact hname ▸ hmodifies g hg
      · exact houtputs v hv

end

/-! ## Systems -/

/-- The parts of a system that is made for a program agree. -/
structure ConditionSystem.Coherent (c : ConditionSystem) (p : Program) : Prop where
  /-- The bodies are those of the program. -/
  implementations : c.program.implementations = p.implementations
  /-- Each has a condition. -/
  length : c.nodes.length = p.implementations.length
  /-- Conditions declare the symbols that occur in them. -/
  closed : ∀ n ∈ c.nodes, n.condition.Closed
  /-- There is a term for each name of an end state. -/
  endState : ∀ n ∈ c.nodes, n.endState.length = n.keys.length
  /-- Each name of an end state denotes something in the body. -/
  ownTerms : ∀ n ∈ c.nodes, n.ownTerms.length = n.keys.length
  /-- Placeholders are applied to an argument for each name of an end state. -/
  sites : ∀ n ∈ c.nodes, ∀ target args m, (target, args) ∈ n.sites → c.nodes[target]? = some m →
    args.length = m.keys.length
  /-- The integer variables that a body can change have names in its end state. -/
  keys : ∀ i n, c.nodes[i]? = some n → p.monitored i ⊆ n.keys
  /-- The least summaries are about these variables. -/
  bottom : ∀ bound i b s, p.implementations[i]? = some b →
    (constants bound).bottom c.program b = .ok s → s.map (·.1) = p.monitored i

variable {p : Program} {o : GenerationOptions} {l l' : Lexicon}

theorem Node.For.closed {n : Node} {i : Implementation} (hn : n.For p o i) :
    n.condition.Closed := by
  obtain ⟨b, l₁, l₂, l₃, l₄, -, hvc, -⟩ := hn.condition
  obtain ⟨⟨formula, names⟩, l₅, -, hvc⟩ := NamingExcept.bind_eq_ok.1 hvc
  obtain ⟨l₆, l₇, -, hvc⟩ := NamingExcept.bind_eq_ok.1 hvc
  exact closed_of_closeFormula (Prod.ext_iff.1 hvc).1

/-- A body gets the names and terms of its placeholder. -/
theorem Placeholder.keys_of_node {h : Placeholder} {i : Implementation} {n : Node}
    (hn : (h.node p o i).run l = (.ok n, l')) : n.keys = h.keys ∧ n.ownTerms = h.ownTerms := by
  obtain ⟨b, l₁, -, hn⟩ := NamingExcept.bind_eq_ok.1 hn
  obtain ⟨vc, l₂, -, hn⟩ := NamingExcept.bind_eq_ok.1 hn
  obtain ⟨terms, l₃, -, hn⟩ := NamingExcept.bind_eq_ok.1 hn
  split_ifs at hn
  · cases hn
  · cases hn
    exact ⟨rfl, rfl⟩

theorem monitored_eq {i : Nat} {b : Implementation} {q : Procedure}
    (hb : p.implementations[i]? = some b) (hq : p.procedure? b.name = some q) :
    p.monitored i = Summary.monitored p q b := by
  unfold Program.monitored
  rw [hb, Option.bind_some, hq]
  rfl

theorem Vocabulary.aboutApplications_sized (f : Name) (k : Nat) :
    (Vocabulary.sized f k).AboutApplications where
  name _ := trivial
  literal _ := Expr.hasArity_of_notMem_functions Expr.notMem_functions_literal
  unary ha := fun args hargs => ha args (by simpa [Expr.subexprs] using hargs)
  binary ha hb := fun args hargs => by
    simp only [Expr.subexprs, List.mem_cons, reduceCtorEq, List.mem_append, false_or] at hargs
    exact hargs.elim (ha args) (hb args)

/-- An application to arguments without applications has the arity of its arguments. -/
theorem Expr.hasArity_apply {f g : Name} {k : Nat} {args : List Expr}
    (hargs : ∀ a ∈ args, f ∉ a.functions) (hlength : g = f → args.length = k) :
    (Expr.apply g args).HasArity f k := by
  intro as has
  rw [subexprs, List.mem_cons] at has
  rcases has with heq | has
  · obtain ⟨rfl, rfl⟩ := apply.inj heq
    exact hlength rfl
  · obtain ⟨a, ha, has⟩ := mem_subexprsAll.1 has
    exact absurd (mem_functions.2 ⟨as, has⟩) (hargs a ha)

/-- The integer variables that a body can change have names in its end state. -/
theorem monitored_subset_keys {h : Placeholder} {i : Nat} {b : Implementation}
    (hb : p.implementations[i]? = some b) (hh : (placeholder p b).outcome = .ok h) :
    p.monitored i ⊆ h.keys := by
  cases hq : p.procedure? b.name with
  | none =>
    intro x hx
    unfold Program.monitored at hx
    rw [hb, Option.bind_some, hq] at hx
    cases hx
  | some q =>
    rw [monitored_eq hb hq]
    exact (placeholder_keys hh).2.2 q hq

/-- The least summary of a body is about the integer variables that the body can change. -/
theorem map_fst_bottom {hs : List Placeholder} {bound i : Nat} {b : Implementation}
    {s : ConstantSummary} (hb : p.implementations[i]? = some b)
    (hs : (constants bound).bottom (hs.foldl Program.attach p) b = .ok s) :
    s.map (·.1) = p.monitored i := by
  unfold constants at hs
  dsimp only at hs
  split at hs
  · cases hs
  · rename_i q hq
    cases hs
    obtain ⟨q', hq', hmonitored⟩ := monitored_attachAll hq
    rw [monitored_eq hb hq', ← hmonitored, List.map_map]
    exact List.map_id _

/-- A node is formed for a body of the program with its placeholder. -/
structure Node.MadeFor (n : Node) (p : Program) (o : GenerationOptions) (hs : List Placeholder)
    (h : Placeholder) (b : Implementation) : Prop where
  /-- The placeholder is one of the program's. -/
  mem : h ∈ hs
  /-- It is made for the body. -/
  placeholder : (placeholder p b).outcome = .ok h
  /-- The node has the condition and the end state of the body. -/
  body : n.For (hs.foldl Program.attach p) o b
  /-- It has the names of the placeholder. -/
  keys : n.keys = h.keys
  /-- It has the terms of the placeholder. -/
  ownTerms : n.ownTerms = h.ownTerms

/-- All applications of the placeholder of a body have an argument for each name of its end
state. -/
theorem Node.MadeFor.hasArity {hs : List Placeholder} {h k : Placeholder} {n m : Node}
    {a b : Implementation} (hp : p.LeavesPlaceholders) (hfor : List.Forall₂ Placeholder.For hs
    p.implementations) (hnodup : (p.implementations.map (·.name)).Nodup)
    (hn : n.MadeFor p o hs k b) (hb : b ∈ p.implementations) (hm : m.MadeFor p o hs h a)
    (ha : a ∈ p.implementations) :
    n.condition.formula.HasArity (summaryPredicate m.name) m.keys.length := by
  have hbodies : (hs.map (·.body)).Nodup := by
    rwa [map_eq_of_forall₂ hfor fun _ _ h => h.body]
  refine hn.body.expr_formula (Vocabulary.aboutApplications_sized _ _) hb
    ((hp a ha).mono (hm.body.name ▸ Vocabulary.avoiding_le_sized _ _)) fun h' hh' _ => ?_
  obtain ⟨a', -, hfor'⟩ := exists_mem_of_forall₂ hfor hh'
  refine Expr.hasArity_apply (fun e he => hfor'.args e he _) fun hname => ?_
  -- Every placeholder of that name is the one of the body.
  have hbody : h'.body = h.body := by
    rw [hfor'.body, (placeholder_for hm.placeholder).body, ← hm.body.name]
    exact summaryPredicate_injective (hfor'.name.symm.trans hname)
  have heq : h' = h := List.inj_on_of_nodup_map hbodies hh' hm.mem hbody
  rw [heq, hm.keys]
  exact (placeholder_keys hm.placeholder).1

/-- If a program does not apply placeholders itself, the parts of its system agree. -/
theorem ConditionSystem.ofProgram_coherent {c : ConditionSystem} (hp : p.LeavesPlaceholders)
    (hc : (ofProgram p o).run l = (.ok c, l')) : c.Coherent p := by
  obtain ⟨hs, nodes, hplaceholders, hnodup, hnodes, rfl⟩ := ofProgram_made hc
  obtain ⟨hlength, -⟩ := length_ofProgram hc
  -- The node, the placeholder and the body of an index belong together.
  have hmade : ∀ {j : Nat} {n : Node}, nodes[j]? = some n → ∃ h b,
      p.implementations[j]? = some b ∧ n.MadeFor p o hs h b := by
    intro j n hn
    obtain ⟨⟨h, b⟩, hhb, l₁, l₂, hrun⟩ := exists_getElem?_of_forall₂ hnodes hn
    obtain ⟨hh, hb⟩ := List.getElem?_zip_eq_some.1 hhb
    obtain ⟨b', hb', hplaceholder⟩ := exists_getElem?_of_forall₂ hplaceholders hh
    cases hb.symm.trans hb'
    obtain ⟨hkeys, hterms⟩ := Placeholder.keys_of_node hrun
    exact ⟨h, b, hb, List.mem_of_getElem? hh, hplaceholder, Placeholder.node_for hrun, hkeys,
      hterms⟩
  have hmem : ∀ {n : Node}, n ∈ nodes → ∃ h b, b ∈ p.implementations ∧ n.MadeFor p o hs h b := by
    intro n hn
    obtain ⟨j, hj⟩ := List.mem_iff_getElem?.1 hn
    obtain ⟨h, b, hb, hnode⟩ := hmade hj
    exact ⟨h, b, List.mem_of_getElem? hb, hnode⟩
  have hfor : List.Forall₂ Placeholder.For hs p.implementations :=
    hplaceholders.imp fun _ _ => placeholder_for
  exact
    { implementations := (Program.attachAll_eq hs p).2
      length := hlength
      closed := List.forall_mem_map.2 fun n hn => by
        obtain ⟨_, _, -, hnode⟩ := hmem hn
        exact hnode.body.closed
      endState := List.forall_mem_map.2 fun n hn => by
        obtain ⟨_, _, -, hnode⟩ := hmem hn
        exact hnode.body.length
      ownTerms := List.forall_mem_map.2 fun n hn => by
        obtain ⟨h, _, -, hnode⟩ := hmem hn
        dsimp only
        rw [hnode.keys, hnode.ownTerms]
        exact (placeholder_keys hnode.placeholder).2.1
      sites := by
        refine List.forall_mem_map.2 fun n hn target args m hsite hm => ?_
        dsimp only at hm hsite
        rw [List.getElem?_map, Option.map_eq_some_iff] at hm
        obtain ⟨m, hm, rfl⟩ := hm
        -- A site is an application of the placeholder in the condition.
        obtain ⟨f, hf, happ⟩ := mem_placeholderSites.1 hsite
        rw [List.getElem?_map, hm, Option.map_some, Option.some.injEq] at hf
        subst hf
        obtain ⟨_, b, hb, hnode⟩ := hmem hn
        obtain ⟨h, a, ha, hmnode⟩ := hmade hm
        exact hnode.hasArity hp hfor hnodup hb hmnode (List.mem_of_getElem? ha) args happ
      keys := fun i n hn => by
        dsimp only at hn
        rw [List.getElem?_map, Option.map_eq_some_iff] at hn
        obtain ⟨n, hn, rfl⟩ := hn
        obtain ⟨h, b, hb, hnode⟩ := hmade hn
        dsimp only
        rw [hnode.keys]
        exact monitored_subset_keys hb hnode.placeholder
      bottom := fun bound i b s => map_fst_bottom }

end Obligations
