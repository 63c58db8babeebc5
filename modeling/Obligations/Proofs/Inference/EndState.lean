import Obligations.Proofs.Inference.Polarity
import Obligations.Proofs.Inference.Projection
import Obligations.Proofs.Passive.NormalForm
import Obligations.Proofs.Passive.Points

/-!
# Reading end states

The end state of a body is what its own placeholder is applied to in the assertion at the exit. In
the postcondition the placeholder is applied to names and to names under `old`; at the exit literals
and names stand for these. If no contract and no body applies a placeholder of its own, no other
assertion is taken for that one, so that all terms of an end state are literals and names
(`Node.For.isAtom_endState`), and only the literals of bit vectors cannot be read off a model.
-/

namespace Obligations

variable {f : Name}

/-! ## Programs that apply no placeholder -/

/- Commands that do not apply a function. The conditions on the locals of scopes do not count. -/
mutual

/-- A command does not apply the function. -/
def Cmd.Avoids (f : Name) : Cmd → Prop
  | assert a => f ∉ a.condition.functions
  | assume e => f ∉ e.functions
  | assign pairs => ∀ p ∈ pairs, f ∉ p.2.functions
  | call _ args _ => ∀ a ∈ args, f ∉ a.functions
  | havoc _ | comment _ => True
  | scope _ cmds => Cmd.AvoidsAll f cmds

/-- Several commands do not apply the function. -/
def Cmd.AvoidsAll (f : Name) : List Cmd → Prop
  | [] => True
  | c :: cs => c.Avoids f ∧ Cmd.AvoidsAll f cs

end

/-- A condition of a contract does not apply the function. -/
def Condition.Avoids (f : Name) : Condition → Prop
  | formula e => f ∉ e.functions
  | blocks bs => ∀ b ∈ bs, Cmd.AvoidsAll f b.cmds ∧ ∀ e, b.exit = .ret e → f ∉ e.functions

/-- The contract of a procedure does not apply the function. -/
structure Procedure.Avoids (f : Name) (q : Procedure) : Prop where
  /-- Its preconditions. -/
  requires : ∀ r ∈ q.requires, r.condition.Avoids f
  /-- Its postconditions. -/
  ensures : ∀ r ∈ q.ensures, r.condition.Avoids f

/-- The contracts and the bodies of a program do not apply the placeholder of a body. The conditions
on variables may. -/
structure Program.AvoidsPlaceholders (p : Program) : Prop where
  /-- The contracts. -/
  procedures : ∀ i ∈ p.implementations, ∀ q ∈ p.procedures, q.Avoids (summaryPredicate i.name)
  /-- The bodies. -/
  implementations : ∀ i ∈ p.implementations, ∀ j ∈ p.implementations, ∀ b ∈ j.blocks,
    Cmd.AvoidsAll (summaryPredicate i.name) b.cmds

/-- No assertion of the command applies the function. -/
def Cmd.SilentOn (f : Name) (c : Cmd) : Prop := ∀ a ∈ c.asserted, f ∉ a.condition.functions

namespace Cmd

variable {c : Cmd} {cs : List Cmd}

theorem avoidsAll_iff : AvoidsAll f cs ↔ ∀ c ∈ cs, c.Avoids f := by
  induction cs with
  | nil => simp [AvoidsAll]
  | cons c cs ih => simp [AvoidsAll, ih]

theorem mem_assertedAll {a : Assertion} : a ∈ assertedAll cs ↔ ∃ c ∈ cs, a ∈ c.asserted := by
  induction cs with
  | nil => simp [assertedAll]
  | cons c cs ih => simp [assertedAll, ih]

theorem assertedAll_append (cs ds : List Cmd) :
    assertedAll (cs ++ ds) = assertedAll cs ++ assertedAll ds := by
  induction cs with
  | nil => rfl
  | cons c cs ih => rw [List.cons_append, assertedAll, assertedAll, ih, List.append_assoc]

theorem silentOn_of_asserted (h : c.asserted = []) : c.SilentOn f := by
  intro a ha
  rw [h] at ha
  cases ha

theorem silentOn_scope {locals : List Variable} (h : ∀ c ∈ cs, c.SilentOn f) :
    (scope locals cs).SilentOn f := by
  intro a ha
  obtain ⟨c, hc, ha⟩ := mem_assertedAll.1 (show a ∈ assertedAll cs from ha)
  exact h c hc a ha

mutual

theorem Avoids.silentOn : ∀ {c : Cmd}, c.Avoids f → c.SilentOn f
  | .assert a, h, a', ha' => by
    cases List.mem_singleton.1 ha'
    exact h
  | .scope _ _, h, a, ha => AvoidsAll.notMem_functions h a ha
  | .assume _, _, _, ha | .assign _, _, _, ha | .havoc _, _, _, ha | .call _ _ _, _, _, ha
  | .comment _, _, _, ha => absurd ha List.not_mem_nil

theorem AvoidsAll.notMem_functions : ∀ {cs : List Cmd}, AvoidsAll f cs →
    ∀ a ∈ assertedAll cs, f ∉ a.condition.functions
  | [], _, _, ha => absurd ha List.not_mem_nil
  | _ :: _, h, a, ha => (List.mem_append.1 ha).elim (h.1.silentOn a) (h.2.notMem_functions a)

end

section

variable {σ : Subst}

theorem notMem_functions_substitute (hσ : ∀ n a, σ n = some a → f ∉ a.functions) {e : Expr}
    (he : f ∉ e.functions) : f ∉ (e.substitute σ).functions :=
  Expr.notMem_functions_substAt (fun _ n a ha => hσ n a ha) e _ he

mutual

theorem Avoids.substitute (hσ : ∀ n a, σ n = some a → f ∉ a.functions) :
    ∀ {c : Cmd}, c.Avoids f → (c.substitute σ).Avoids f
  | .assert _, h | .assume _, h => notMem_functions_substitute hσ h
  | .assign _, h => List.forall_mem_map.2 fun p hp => notMem_functions_substitute hσ (h p hp)
  | .call _ _ _, h => List.forall_mem_map.2 fun a ha => notMem_functions_substitute hσ (h a ha)
  | .havoc _, _ | .comment _, _ => trivial
  | .scope _ _, h => AvoidsAll.substituteAll hσ h

theorem AvoidsAll.substituteAll (hσ : ∀ n a, σ n = some a → f ∉ a.functions) :
    ∀ {cs : List Cmd}, AvoidsAll f cs → AvoidsAll f (substituteAll σ cs)
  | [], _ => trivial
  | _ :: _, h => ⟨h.1.substitute hσ, h.2.substituteAll hσ⟩

end

end

end Cmd

/-- A clause that does not apply the function adds no assertion that does, also when names are
replaced in it. -/
theorem Condition.Avoids.adds {σ : Subst} (hσ : ∀ n a, σ n = some a → f ∉ a.functions)
    {c : Condition} (h : c.Avoids f) (s : Splice) : (c.substitute σ).Adds (Cmd.SilentOn f) s := by
  -- An assumption asserts nothing, and an assertion is of the expression itself.
  have hcmd : ∀ e : Expr, f ∉ e.functions → (s.cmd (e.substitute σ)).SilentOn f := by
    intro e he a ha
    cases s with
    | assume => exact absurd ha List.not_mem_nil
    | assert kind =>
      cases List.mem_singleton.1 ha
      exact Cmd.notMem_functions_substitute hσ he
  cases c with
  | formula e => exact hcmd e h
  | blocks bs =>
    intro b hb
    obtain ⟨b₀, hb₀, rfl⟩ := List.mem_map.1 hb
    obtain ⟨hcmds, hexit⟩ := h b₀ hb₀
    refine ⟨fun c hc => (Cmd.avoidsAll_iff.1 (hcmds.substituteAll hσ) c hc).silentOn, ?_⟩
    obtain ⟨label, cmds, exit⟩ := b₀
    intro e he
    cases exit with
    | goto => cases he
    | ret value =>
      cases he
      exact hcmd value (hexit value rfl)

/-! ## Preparation -/

section

variable {p : Program}

/-- The preconditions of a procedure are checked for the arguments. -/
theorem CallSite.checks_silentOn {s : CallSite}
    (hcallee : ∀ r ∈ s.callee.requires, r.condition.Avoids f)
    (hargs : ∀ a ∈ s.args, f ∉ a.functions) {checks : List Cmd} (hchecks : s.checks = .ok checks) :
    ∀ c ∈ checks, c.SilentOn f := by
  intro c hc
  obtain ⟨r, hr, heq⟩ := exists_mem_of_forall₂ (mapM_eq_ok_iff.1 hchecks).flip hc
  have hcondition := hcallee r (List.mem_filter.1 hr).1
  obtain ⟨e, he, heq⟩ := bind_eq_ok.1 heq
  cases heq
  cases hr : r.condition with
  | blocks bs =>
    rw [hr] at he
    cases he
  | formula e' =>
    rw [hr] at he hcondition
    cases he
    intro a ha
    cases List.mem_singleton.1 ha
    -- What the check reads instead of a parameter is an argument.
    refine Cmd.notMem_functions_substitute (fun n a ha => ?_) hcondition
    obtain ⟨x, -, b, hb, heq⟩ := exists_of_mem_zipWith (NameMap.mem_of_find?_ofList ha)
    cases heq
    exact hargs a hb

/-- The expansion of a call asserts nothing else. -/
theorem CallSite.expand_silentOn {s : CallSite}
    (hcallee : ∀ r ∈ s.callee.requires, r.condition.Avoids f)
    (hargs : ∀ a ∈ s.args, f ∉ a.functions) {d : Cmd} (hd : (s.expand p).outcome = .ok d) :
    d.SilentOn f := by
  obtain ⟨checks, hchecks, hd⟩ := Minting.bind_eq_ok.1 hd
  obtain ⟨-, -, hd⟩ := Minting.bind_eq_ok.1 hd
  obtain ⟨globals, -, hd⟩ := Minting.bind_eq_ok.1 hd
  obtain ⟨guarantees, hguarantees, hd⟩ := Minting.bind_eq_ok.1 hd
  cases hd
  refine Cmd.silentOn_scope fun c hc => ?_
  simp only [List.mem_append] at hc
  -- Only the checks assert; what is kept, changed and guaranteed is stored or assumed.
  rcases hc with ((hc | hc) | hc) | hc
  · exact checks_silentOn hcallee hargs hchecks c hc
  · split_ifs at hc
    · cases hc
    · cases List.mem_singleton.1 hc
      exact Cmd.silentOn_of_asserted rfl
  · split_ifs at hc
    · cases hc
    · cases List.mem_singleton.1 hc
      exact Cmd.silentOn_of_asserted rfl
  · obtain ⟨r, -, heq⟩ := exists_mem_of_forall₂ (mapM_eq_ok_iff.1 hguarantees).flip hc
    obtain ⟨e, -, heq⟩ := bind_eq_ok.1 heq
    cases heq
    exact Cmd.silentOn_of_asserted rfl

/-- Expanded calls assert nothing that applies the function, if the preconditions of the procedures
called and the body do not apply it. -/
theorem Cmd.expandsTo_silentOn {caller : Name} : Cmd.ExpandsTo p caller
    (fun c => c.Avoids f ∧ ∀ n ∈ c.callees, ∀ q, p.procedure? n = some q →
      ∀ r ∈ q.requires, r.condition.Avoids f) (Cmd.SilentOn f) where
  call {callee args _ _ _ _} h hs hd := by
    have hargs : ∀ a ∈ args, f ∉ a.functions := h.1
    unfold callSite at hs
    cases hq : p.procedure? callee with
    | none =>
      rw [hq] at hs
      cases hs
    | some q =>
      simp only [hq] at hs
      split_ifs at hs
      cases hs
      exact CallSite.expand_silentOn (h.2 callee (by simp [Cmd.callees]) q hq) hargs hd
  body {_ cs} h c hc := by
    refine ⟨Cmd.avoidsAll_iff.1 h.1 c hc, fun n hn => h.2 n ?_⟩
    exact Cmd.callees_subset_calleesAll hc hn
  scope _ hds := Cmd.silentOn_scope hds
  other h := h.1.silentOn

/-- No assertion of a body applies the function. -/
def Implementation.SilentOn (f : Name) (i : Implementation) : Prop :=
  ∀ id, ∀ a ∈ Cmd.assertedAll (i.cmdsAt id), f ∉ a.condition.functions

/-- The assertions of a body do not apply the function, but for assertions of one condition in one
block. -/
def Implementation.AssertsAt (f : Name) (own : Expr) (exit : Nat) (i : Implementation) : Prop :=
  ∀ id, ∀ a ∈ Cmd.assertedAll (i.cmdsAt id),
    f ∉ a.condition.functions ∨ id = exit ∧ a.condition = own

open Implementation

variable {i j : Implementation} {q : Procedure} {own : Expr} {exit exit' : Nat}

/-- Commands that assert nothing that applies the function may be added. -/
theorem Implementation.GrowsBy.mem_or_notMem (h : GrowsBy (Cmd.SilentOn f) i j) {id : Nat}
    {a : Assertion} (ha : a ∈ Cmd.assertedAll (j.cmdsAt id)) :
    a ∈ Cmd.assertedAll (i.cmdsAt id) ∨ f ∉ a.condition.functions := by
  obtain ⟨cs, hcs, hsilent⟩ := h.cmdsAt id
  rw [hcs, Cmd.assertedAll_append] at ha
  refine (List.mem_append.1 ha).imp_right fun ha => ?_
  obtain ⟨c, hc, ha⟩ := Cmd.mem_assertedAll.1 ha
  exact hsilent c hc a ha

theorem Implementation.GrowsBy.silentOn (h : GrowsBy (Cmd.SilentOn f) i j) (hi : i.SilentOn f) :
    j.SilentOn f := fun id a ha => (h.mem_or_notMem ha).elim (hi id a) fun hnot => hnot

theorem Implementation.GrowsBy.assertsAt (h : GrowsBy (Cmd.SilentOn f) i j)
    (hi : i.AssertsAt f own exit) : j.AssertsAt f own exit := fun id a ha =>
  (h.mem_or_notMem ha).elim (hi id a) .inl

/-- The calls of a body are expanded to commands whose assertions do not apply the function. -/
theorem Implementation.expandCalls_silentOn (hi : ∀ b ∈ i.blocks, Cmd.AvoidsAll f b.cmds)
    (hcallees : ∀ n q, p.procedure? n = some q → ∀ r ∈ q.requires, r.condition.Avoids f)
    (hj : (i.expandCalls p).outcome = .ok j) :
    (∃ blocks, j = { i with blocks }) ∧ j.SilentOn f := by
  rw [Implementation.expandCalls] at hj
  obtain ⟨blocks, hblocks, hj⟩ := Minting.bind_eq_ok.1 hj
  cases hj
  have hsilent : ∀ b ∈ blocks, ∀ c ∈ b.cmds, c.SilentOn f :=
    Cmd.expandsTo_silentOn.expandBlocks (fun b hb c hc =>
      ⟨Cmd.avoidsAll_iff.1 (hi b hb) c hc, fun n _ => hcallees n⟩) hblocks
  refine ⟨⟨blocks, rfl⟩, forall_cmdsAt
    (P := fun cs => ∀ a ∈ Cmd.assertedAll cs, f ∉ a.condition.functions)
    (fun a ha => absurd ha List.not_mem_nil) fun b hb a ha => ?_⟩
  obtain ⟨c, hc, ha⟩ := Cmd.mem_assertedAll.1 ha
  exact hsilent b hb c hc a ha

/-- A contract to which a formula has been added is asserted with this formula at the exit. -/
theorem assertPostconditions_assertsAt {e : Expr} {attributes : List Name} {note : Option String}
    (hi : i.SilentOn f) (hq : ∀ r ∈ q.ensures, r.condition.Avoids f)
    (hj : (assertPostconditions
      { q with ensures := q.ensures ++ [⟨.formula e, false, attributes, note⟩] } i exit).outcome =
        .ok (j, exit')) :
    ∃ formals, formalMap q i = .ok formals ∧ (∃ blocks, j = { i with blocks }) ∧
      j.AssertsAt f (e.substitute formals.find?) exit' := by
  obtain ⟨formals, hf, hj⟩ := Minting.bind_eq_ok.1 hj
  obtain ⟨g, hg, hj⟩ := Minting.bind_eq_ok.1 hj
  cases hj
  dsimp only at hg
  rw [List.filter_append, List.map_append] at hg
  -- The formula that is added is the last clause, so the others are asserted before it.
  obtain ⟨g₁, hg₁, hg⟩ := Growth.addClauses_append hg
  obtain ⟨g₂, hg₂, hg⟩ := Minting.bind_eq_ok.1 hg
  cases hg
  cases hg₂
  have hf : formalMap q i = .ok formals := hf
  have hgrows : GrowsBy (Cmd.SilentOn f) i g₁.body := by
    refine Growth.growsBy_addClauses (fun c hc => ?_) hg₁
    obtain ⟨r, hr, rfl⟩ := List.mem_map.1 hc
    exact (hq r (List.mem_filter.1 hr).1).adds (notMem_functions_of_formalMap hf) _
  have hbefore : g₁.body.AssertsAt f (e.substitute formals.find?) g₁.insertion :=
    hgrows.assertsAt fun id a ha => .inl (hi id a ha)
  obtain ⟨blocks, hblocks⟩ := hgrows.rest
  refine ⟨formals, hf, ⟨_, by rw [hblocks]; rfl⟩, fun id a ha => ?_⟩
  rw [cmdsAt_pushCmd] at ha
  split_ifs at ha with hid
  · rw [Cmd.assertedAll_append] at ha
    rcases List.mem_append.1 ha with ha | ha
    · exact hbefore id a ha
    · cases List.mem_singleton.1 ha
      exact .inr ⟨hid.1, rfl⟩
  · exact hbefore id a ha

/-- A body is made ready to whose contract a formula has been added. If the contract, the body and
the preconditions of the procedures that it calls do not apply the function, the only condition
asserted that may apply it is the formula, at the exit. -/
theorem Implementation.prepare_assertsAt {q' : Procedure} {a : Expr} {attributes : List Name}
    {note : Option String} {e : SingleExit} (hi : ∀ b ∈ i.blocks, Cmd.AvoidsAll f b.cmds)
    (hcallees : ∀ n q, p.procedure? n = some q → ∀ r ∈ q.requires, r.condition.Avoids f)
    (hq : q.Avoids f) (hown : p.procedure? i.name =
      some { q with ensures := q.ensures ++ [⟨.formula a, false, attributes, note⟩] })
    (hprepare : (i.prepare p).outcome = .ok (q', e)) :
    ∃ σ : Subst, (∀ n b, σ n = some b → ∃ m, b = .symbol m) ∧ e.body.name = i.name ∧
      e.body.AssertsAt f (a.substitute σ) e.exit := by
  obtain ⟨hq', -, expanded, unified, asserted, assumed, hexpanded, hunified, hasserted, hassumed, -,
    hbody, -⟩ := prepare_eq_ok.1 hprepare
  cases hown.symm.trans hq'
  obtain ⟨⟨blocks, rfl⟩, hcalls⟩ := expandCalls_silentOn hi hcallees hexpanded
  obtain ⟨body, uniqueExit, replaced⟩ := unified
  have hunified : GrowsBy (Cmd.SilentOn f) { i with blocks } body := growsBy_unifyExits hunified
  obtain ⟨blocks', rfl⟩ := hunified.rest
  obtain ⟨formals, hf, ⟨blocks₁, rfl⟩, hat⟩ :=
    assertPostconditions_assertsAt (hunified.silentOn hcalls) hq.ensures hasserted
  obtain ⟨formals', entry, hf', hgrows⟩ :=
    growsBy_assumePreconditions (P := Cmd.SilentOn f) hassumed
  -- The stages after the assertion of the postconditions only assume and rearrange.
  have hgrows := (hgrows (fun _ _ _ _ _ ha => absurd ha List.not_mem_nil) fun r hr =>
    (hq.requires r hr).adds (notMem_functions_of_formalMap hf') _).trans
      (growsBy_splitCriticalEdges hbody)
  obtain ⟨blocks₂, hrest⟩ := hgrows.rest
  exact ⟨formals.find?, fun n b => eq_symbol_of_formalMap hf, by rw [hrest],
    hgrows.assertsAt hat⟩

end

/-! ## End states -/

/-- The expression is a name, or a name under `old`. -/
def Expr.IsReference (e : Expr) : Prop := ∃ x, e = .symbol x ∨ e = .old (.symbol x)

/-- Names for names make names of what placeholders are applied to in contracts. -/
theorem Expr.IsReference.substitute {e : Expr} (h : e.IsReference) {σ : Subst}
    (hσ : ∀ n b, σ n = some b → ∃ m, b = .symbol m) : (e.substitute σ).IsReference := by
  have hname : ∀ x : Name, ∃ y, (σ x).getD (.symbol x) = .symbol y := by
    intro x
    cases hx : σ x with
    | none => exact ⟨x, rfl⟩
    | some b => exact hσ x b hx
  obtain ⟨x, rfl | rfl⟩ := h
  · obtain ⟨y, hy⟩ := hname x
    exact ⟨y, .inl hy⟩
  · obtain ⟨y, hy⟩ := hname x
    exact ⟨y, .inr (congrArg Expr.old hy)⟩

/-- Literals and names stand for names and for names under `old`. -/
theorem Passive.IsAtom.standIn {L : Literal → Prop} {frame m : NameMap Expr} {e : Expr}
    (hframe : Atoms L frame) (hm : Atoms L m) (he : e.IsReference) :
    IsAtom L (standIn frame m e) := by
  have hatom : ∀ (o : Option Expr) (x : Name), (∀ a, o = some a → IsAtom L a) →
      IsAtom L (o.getD (.symbol x)) := by
    rintro (_ | a) x ha
    · exact isAtom_symbol x
    · exact ha a rfl
  obtain ⟨x, rfl | rfl⟩ := he
  · exact hatom _ x (hm x)
  · refine hatom ((frame.find? x).or (m.find? x)) x fun a ha => ?_
    rcases Option.or_eq_some_iff.1 ha with ha | ⟨-, ha⟩
    · exact hframe x a ha
    · exact hm x a ha

theorem isReference_of_mem_placeholderArgs {p : Program} {q : Procedure} {i : Implementation}
    {args : List PlaceholderArg} (h : placeholderArgs p q i = .ok args) {a : PlaceholderArg}
    (ha : a ∈ args) : a.arg.IsReference := by
  unfold placeholderArgs at h
  obtain ⟨changed, hchanged, h⟩ := bind_eq_ok.1 h
  cases h
  -- There are arguments for the globals at the entry, for the parameters and for the globals that
  -- change.
  rcases List.mem_append.1 ha with ha | ha
  · rcases List.mem_append.1 ha with ha | ha
    · obtain ⟨g, -, rfl⟩ := List.mem_map.1 ha
      exact ⟨_, .inr rfl⟩
    · obtain ⟨d, -, v, -, rfl⟩ := exists_of_mem_zipWith ha
      exact ⟨_, .inl rfl⟩
  · obtain ⟨g, -, hg⟩ := exists_mem_of_forall₂ (mapM_eq_ok_iff.1 hchanged).flip ha
    cases hd : p.global? g with
    | none =>
      rw [hd] at hg
      cases hg
    | some d =>
      rw [hd] at hg
      cases hg
      exact ⟨_, .inl rfl⟩

/-- In contracts placeholders are applied to names and to names under `old`. -/
theorem isReference_of_mem_args {p : Program} {i : Implementation} {h : Placeholder}
    (hh : (placeholder p i).outcome = .ok h) {a : Expr} (ha : a ∈ h.args) : a.IsReference := by
  unfold placeholder at hh
  cases hq : p.procedure? i.name with
  | none =>
    rw [hq] at hh
    cases hh
  | some q =>
    simp only [hq] at hh
    split_ifs at hh
    · cases hh
    · obtain ⟨-, -, hh⟩ := Minting.bind_eq_ok.1 hh
      obtain ⟨args, hargs, hh⟩ := Minting.bind_eq_ok.1 hh
      obtain ⟨-, -, hh⟩ := Minting.bind_eq_ok.1 hh
      cases hh
      obtain ⟨arg, harg, rfl⟩ := List.mem_map.1 ha
      exact isReference_of_mem_placeholderArgs hargs harg

section

variable {p : Program} {o : GenerationOptions} {hs : List Placeholder} {i : Implementation}
  {n : Node} {L : Literal → Prop}

/-- The preconditions of procedures with placeholders are those that they had. -/
theorem Program.requires_avoids_attachAll (hp : ∀ q ∈ p.procedures, q.Avoids f) (m : Name)
    (q : Procedure) (hq : (hs.foldl Program.attach p).procedure? m = some q) :
    ∀ r ∈ q.requires, r.condition.Avoids f := by
  rw [procedure?_attachAll] at hq
  obtain ⟨q₀, hq₀, rfl⟩ := Option.map_eq_some_iff.1 hq
  exact (hp q₀ (List.mem_of_find?_eq_some hq₀)).requires

/-- If a body ready to be passified applies its placeholder in one condition only, asserted at the
exit, the end state of the passive body is what the placeholder is applied to in that condition,
stated about what stands for the variables. -/
theorem Passive.exists_standIn_eq_of_endState {lexicon : Lexicon} {prune : Bool} {q : Procedure}
    {e : SingleExit} {b : PassiveImplementation} {own : Expr} {terms : List Expr}
    (hvalues : ∀ id, ∀ a ∈ Cmd.valuesAll (e.body.cmdsAt id), a.LiteralsIn L)
    (hat : e.body.AssertsAt (summaryPredicate e.body.name) own e.exit)
    (hb : (passify lexicon prune p q e).outcome = .ok b) (hterms : b.endState = .ok terms) :
    ∃ m, Atoms L m ∧ standIn (.ofList (q.modifies.map fun g => (g, .symbol g))) m own =
      .apply (summaryPredicate e.body.name) terms := by
  obtain ⟨-, ⟨-, hname⟩, -⟩ :=
    passify_obeys (D := .all) (fun _ _ _ => trivial) (fun id => Cmd.obeysAll_all _) hb
  obtain ⟨hexit, hrest, hstated⟩ := assertion_of_passify hvalues hb
  obtain ⟨id, a, ha, hcondition⟩ := PassiveImplementation.exists_assert_of_endState hterms
  rw [hname] at hcondition
  have happlied : summaryPredicate e.body.name ∈ a.condition.functions := by
    rw [hcondition, Expr.mem_functions_apply]
    exact .inl rfl
  -- The assertion with the end state is in a block of the order or, as it was before, in one that
  -- is not reached.
  by_cases hid : id ∈ b.order
  · obtain ⟨m, hm, src, hsrc, rfl⟩ := hstated id hid a ha
    rcases hat id src hsrc with hnot | ⟨-, rfl⟩
    · exact absurd happlied
        (notMem_functions_standIn (atoms_frame (L := L) q.modifies).atomic hm.atomic hnot)
    · exact ⟨m, hm, hcondition⟩
  · -- Only a block of the order asserts the placeholder.
    rw [hrest id hid] at ha
    rcases hat id a (Cmd.mem_assertedAll.2 ⟨_, ha, List.mem_singleton_self a⟩) with hnot | ⟨heq, -⟩
    · exact absurd happlied hnot
    · exact absurd (heq ▸ hexit) hid

/-- All terms of an end state are names, and literals of a kind if those in the values that the body
assigns are. -/
theorem Node.For.isAtom_endState (hn : n.For (hs.foldl Program.attach p) o i)
    (hp : p.AvoidsPlaceholders) (hi : i ∈ p.implementations)
    (hfor : List.Forall₂ Placeholder.For hs p.implementations)
    (hargs : ∀ h ∈ hs, ∀ a ∈ h.args, a.IsReference)
    (hnodup : (p.implementations.map (·.name)).Nodup)
    (hvalues : ∀ q e, (i.prepare (hs.foldl Program.attach p)).outcome = .ok (q, e) →
      ∀ id, ∀ a ∈ Cmd.valuesAll (e.body.cmdsAt id), a.LiteralsIn L) :
    ∀ e ∈ n.endState, Passive.IsAtom L e := by
  obtain ⟨b, l₁, l₂, l₃, l₄, hb, -, hterms⟩ := hn.condition
  obtain ⟨q, e, hprepare, hb⟩ := Implementation.passiveForm_cases hb
  -- The assertion of the placeholder in the body made ready.
  obtain ⟨hq, -⟩ := Implementation.prepare_eq_ok.1 hprepare
  obtain ⟨q₀, h, hmem, hq₀, hh, rfl⟩ := Program.exists_procedure?_attachAll hfor hnodup hi hq
  obtain ⟨σ, hσ, hname, hat⟩ := Implementation.prepare_assertsAt (f := summaryPredicate i.name)
    (hp.implementations i hi i hi) (Program.requires_avoids_attachAll (hp.procedures i hi))
    (hp.procedures i hi q₀ (List.mem_of_find?_eq_some hq₀)) hq hprepare
  obtain ⟨m, hm, hstands⟩ :=
    Passive.exists_standIn_eq_of_endState (hvalues _ e hprepare) (hname ▸ hat) hb hterms
  obtain ⟨-, hstands⟩ := Expr.apply.inj hstands
  rw [← hstands]
  intro t ht
  obtain ⟨t₁, ht₁, rfl⟩ := Expr.mem_substAllAt.1 ht
  obtain ⟨t₀, ht₀, rfl⟩ := Expr.mem_substAllAt.1 ht₁
  exact Passive.IsAtom.standIn (Passive.atoms_frame q₀.modifies) hm
    ((hargs h hmem t₀ ht₀).substitute hσ)

end

/-! ## Programs without bit vectors -/

/-- The literal is no bit vector. -/
def Literal.NoBitVector (v : Literal) : Prop := ∀ width value, v ≠ .bv width value

/-- The expressions whose literals are of a kind. -/
def Vocabulary.literals (L : Literal → Prop) : Vocabulary where
  name _ := True
  expr := Expr.LiteralsIn L
  kind _ := True
  symbol n := iff_of_true (Expr.literalsIn_symbol n) trivial
  substitute he hr := he.substAt (fun _ n a ha => hr n a ha) _
  substituteOld he hf hg := he.substituteOld hf hg
  append _ _ _ _ := trivial
  localKind := trivial

mutual

theorem Cmd.Within.literalsIn {L : Literal → Prop} : ∀ {c : Cmd}, c.Within (.literals L) →
    ∀ a ∈ c.values, a.LiteralsIn L
  | .assign _, h, _, ha => by
    obtain ⟨p, hp, rfl⟩ := List.mem_map.1 ha
    exact (h p hp).2
  | .scope _ _, h, a, ha => Cmd.WithinAll.literalsIn h.2 a ha
  | .assert _, _, _, ha | .assume _, _, _, ha | .havoc _, _, _, ha | .call _ _ _, _, _, ha
  | .comment _, _, _, ha => absurd ha List.not_mem_nil

theorem Cmd.WithinAll.literalsIn {L : Literal → Prop} : ∀ {cs : List Cmd},
    Cmd.WithinAll (.literals L) cs → ∀ a ∈ Cmd.valuesAll cs, a.LiteralsIn L
  | [], _, _, ha => absurd ha List.not_mem_nil
  | _ :: _, h, a, ha => (List.mem_append.1 ha).elim (h.1.literalsIn a) (h.2.literalsIn a)

end

theorem Expr.IsReference.literalsIn {L : Literal → Prop} {e : Expr} (h : e.IsReference) :
    e.LiteralsIn L := by
  intro v hv
  obtain ⟨x, rfl | rfl⟩ := h <;> simp [subexprs] at hv

section

variable {p : Program} {o : GenerationOptions} {hs : List Placeholder} {i : Implementation}
  {n : Node} {L : Literal → Prop}

/-- The literals of a body with a placeholder, made ready, are those of the program. -/
theorem Implementation.literalsIn_prepare (hp : p.Within (.literals L))
    (hi : i ∈ p.implementations) (hargs : ∀ h ∈ hs, ∀ a ∈ h.args, a.IsReference) {q : Procedure}
    {e : SingleExit} (hprepare : (i.prepare (hs.foldl Program.attach p)).outcome = .ok (q, e))
    (id : Nat) : ∀ a ∈ Cmd.valuesAll (e.body.cmdsAt id), a.LiteralsIn L := by
  have hcontract : ∀ m q, (hs.foldl Program.attach p).procedure? m = some q →
      q.Within (.literals L) := by
    intro m
    refine Program.within_procedure?_attachAll (fun h hh _ v hv => ?_) ?_
    · rw [Expr.subexprs, List.mem_cons] at hv
      obtain ⟨a, ha, hv⟩ := Expr.mem_subexprsAll.1 (hv.resolve_left (by simp))
      exact (hargs h hh a ha).literalsIn v hv
    · exact fun q hq => hp.procedures q (List.mem_of_find?_eq_some hq)
  obtain ⟨-, hbody⟩ := Implementation.within_prepare (hp.implementations i hi) (hcontract i.name)
    (fun m _ => hcontract m) hprepare
  exact (hbody.cmds id).literalsIn

end

namespace Node

variable {n : Node} {m : Model}

/-- If a name or a literal other than that of a bit vector cannot be read off a model, it is a name
for which the model has no value. -/
theorem failsOnly_readTerm {e : Expr} (h : Passive.IsAtom Literal.NoBitVector e) :
    FailsOnly (fun f => ∃ x, m.find? x = none ∧ f = .fault (.noModelValue n.name x))
      (n.readTerm m e) := by
  rcases Passive.isAtomic_iff.1 h.isAtomic with ⟨v, rfl⟩ | ⟨x, rfl⟩
  · cases v with
    | bv width value =>
      exact absurd rfl (h.literals (.bv width value) (by simp [Expr.subexprs]) width value)
    | bool b => exact .ok _ (Value.bool b)
    | int i => exact .ok _ (Value.int i)
  · rw [readTerm]
    cases hx : m.find? x with
    | none => exact .error ⟨x, hx, rfl⟩
    | some v => exact .ok _ v

/-- If an end state of names and of such literals cannot be read off a model, the model has no value
for a name. -/
theorem failsOnly_project_of_isAtom (h : ∀ e ∈ n.endState, Passive.IsAtom Literal.NoBitVector e) :
    FailsOnly (fun f => ∃ x, m.find? x = none ∧ f = .fault (.noModelValue n.name x))
      (n.project m) := by
  have hentries : ∀ p ∈ n.keys.zip n.endState,
      FailsOnly (fun f => ∃ x, m.find? x = none ∧ f = .fault (.noModelValue n.name x)) do
        let v ← n.readTerm m p.2
        return (p.1, v) :=
    fun p hp => (failsOnly_readTerm (h p.2 (List.of_mem_zip hp).2)).bind fun v => .ok _ _
  exact (FailsOnly.mapM_of_mem hentries).bind fun _ => .ok _ _

end Node

/-! ## Systems -/

namespace ConditionSystem

variable {p : Program} {o : GenerationOptions} {l l' : Lexicon} {c : ConditionSystem}

/-- All terms of the end states of a program that does not apply placeholders itself are names, and
literals of a kind if those in the values that the bodies assign are. -/
theorem isAtom_endState {L : Literal → Prop} (hp : p.AvoidsPlaceholders)
    (hc : (ofProgram p o).run l = (.ok c, l'))
    (hvalues : ∀ hs : List Placeholder, (∀ h ∈ hs, ∀ a ∈ h.args, a.IsReference) →
      ∀ i ∈ p.implementations, ∀ q e,
        (i.prepare (hs.foldl Program.attach p)).outcome = .ok (q, e) →
          ∀ id, ∀ a ∈ Cmd.valuesAll (e.body.cmdsAt id), a.LiteralsIn L) :
    ∀ n ∈ c.nodes, ∀ e ∈ n.endState, Passive.IsAtom L e := by
  obtain ⟨hs, nodes, hplaceholders, hnodup, hnodes, rfl⟩ := ofProgram_made hc
  have hargs : ∀ h ∈ hs, ∀ a ∈ h.args, a.IsReference := fun h hh a ha =>
    have ⟨_, _, hi⟩ := exists_mem_of_forall₂ hplaceholders hh
    isReference_of_mem_args hi ha
  intro n' hn'
  obtain ⟨n, hn, rfl⟩ := List.mem_map.1 hn'
  obtain ⟨⟨h, i⟩, hmem, l₁, l₂, hnode⟩ := exists_mem_of_forall₂ hnodes hn
  have hi : i ∈ p.implementations := (List.of_mem_zip hmem).2
  exact (Placeholder.node_for hnode).isAtom_endState hp hi
    (hplaceholders.imp fun _ _ => placeholder_for) hargs hnodup (hvalues hs hargs i hi)

/-- At every point of every passification, names and literals stand for the variables, also in the
map at the exit and in those that assertions keep. So if no contract and no body of a program
applies a placeholder, all terms of end states are names and literals, and if the program has no
literals of bit vectors besides, none of them turns out to be unreadable. -/
theorem atomic_and_readable :
    (∀ (l : Lexicon) (prune : Bool) (p : Program) (q : Procedure) (e : SingleExit),
      (∀ order m, e.body.topologicalOrder = .ok order →
        Passive.Arises (Passive.settingOf l prune p q e.body order)
          ⟨e.body, Passive.initialVersions p e.body, []⟩ order m → m.Atomic) ∧
      ∀ b, (Passive.passify l prune p q e).outcome = .ok b → b.exitMap.Atomic ∧
        ∀ id ∈ b.order, ∀ a, .assert a ∈ b.body.cmdsAt id →
          ∃ m, a.incarnations = some m ∧ m.Atomic) ∧
    ∀ (p : Program) (o : GenerationOptions) (l l' : Lexicon) (c : ConditionSystem),
      (ofProgram p o).run l = (.ok c, l') → p.AvoidsPlaceholders →
        (∀ n ∈ c.nodes, ∀ e ∈ n.endState, Passive.isAtomic e = true) ∧
          (p.Within (.literals Literal.NoBitVector) →
            ∀ n ∈ c.nodes, ∀ m e, n.project m ≠ .error (.fault (.unreadableTerm e))) := by
  refine ⟨fun l prune p q e =>
      ⟨fun order m horder h => ?_, fun b hb => ⟨?_, fun id hid a ha => ?_⟩⟩,
    fun p o l l' c hc hp => ⟨fun n hn e he => ?_, fun hliterals n hn m e he => ?_⟩⟩
  · exact (h.atoms (L := fun _ => True) (fun _ _ _ _ _ => trivial) horder).atomic
  · exact (Passive.atoms_exitMap (L := fun _ => True) (fun _ _ _ _ _ => trivial) hb).atomic
  · obtain ⟨-, -, hstated⟩ :=
      Passive.assertion_of_passify (L := fun _ => True) (fun _ _ _ _ _ => trivial) hb
    obtain ⟨m, hm, src, -, rfl⟩ := hstated id hid a ha
    exact ⟨m, rfl, hm.atomic⟩
  · exact (isAtom_endState (L := fun _ => True) hp hc
      (fun _ _ _ _ _ _ _ _ _ _ _ _ => trivial) n hn e he).isAtomic
  · have hatom := isAtom_endState hp hc
      (fun hs hargs i hi q e => Implementation.literalsIn_prepare hliterals hi hargs) n hn
    obtain ⟨x, -, heq⟩ := n.failsOnly_project_of_isAtom hatom _ he
    cases heq

/-- No contract and no body of the program applies a placeholder. -/
theorem avoidsPlaceholders_calling : calling.AvoidsPlaceholders where
  procedures i _ q hq := by
    have hempty : q.requires = [] ∧ q.ensures = [] := by
      simp only [calling, List.mem_cons, List.not_mem_nil, or_false] at hq
      rcases hq with rfl | rfl <;> exact ⟨rfl, rfl⟩
    exact ⟨by simp [hempty.1], by simp [hempty.2]⟩
  implementations i _ j hj b hb := by
    simp only [calling, List.mem_cons, List.not_mem_nil, or_false] at hj
    rcases hj with rfl | rfl
    · cases List.mem_singleton.1 hb
      simp [Cmd.AvoidsAll, Cmd.Avoids]
    · cases List.mem_singleton.1 hb
      simp [Cmd.AvoidsAll, Cmd.Avoids, Expr.int]

/-- No literal of the program is a bit vector. -/
theorem within_literals_calling : calling.Within (.literals Literal.NoBitVector) := by
  have hr : Variable.Within (.literals Literal.NoBitVector) ⟨⟨"r"⟩, .int, none, .output⟩ :=
    ⟨trivial, fun _ h => (by cases h), trivial⟩
  refine ⟨fun _ hv => (by cases hv), fun q hq => ?_, fun i hi => ?_⟩
  · simp only [calling, List.mem_cons, List.not_mem_nil, or_false] at hq
    rcases hq with rfl | rfl
    · exact ⟨by simp [callingProcedure], by simp [callingProcedure, hr],
        by simp [callingProcedure], by simp [callingProcedure], fun _ _ => trivial⟩
    · exact ⟨by simp [zeroProcedure], by simp [zeroProcedure, hr], by simp [zeroProcedure],
        by simp [zeroProcedure], fun _ _ => trivial⟩
  · simp only [calling, List.mem_cons, List.not_mem_nil, or_false] at hi
    rcases hi with rfl | rfl
    · refine ⟨by simp [callingBody], by simp [callingBody, hr], by simp [callingBody],
        Implementation.forall_cmdsAt Cmd.withinAll_nil fun b hb => ?_⟩
      cases List.mem_singleton.1 hb
      exact ⟨⟨by simp, fun _ _ => trivial⟩, trivial⟩
    · refine ⟨by simp [zeroBody], by simp [zeroBody, hr], by simp [zeroBody],
        Implementation.forall_cmdsAt Cmd.withinAll_nil fun b hb => ?_⟩
      cases List.mem_singleton.1 hb
      -- The only literal of the program is the integer zero.
      have hzero : (Expr.int 0).LiteralsIn Literal.NoBitVector := by
        intro v hv width value heq
        simp [Expr.int, Expr.subexprs, heq] at hv
      exact ⟨List.forall_mem_singleton.2 ⟨trivial, hzero⟩, trivial⟩

theorem atomic_and_readable_calling :
    (∃ order m, Passive.steppingBody.topologicalOrder = .ok order ∧
      Passive.Arises (Passive.settingOf .initial true Passive.steppingProgram
        (Passive.changing [⟨"g"⟩]) Passive.steppingBody order)
        ⟨Passive.steppingBody,
          Passive.initialVersions Passive.steppingProgram Passive.steppingBody, []⟩ order m ∧
      m.find? ⟨"g"⟩ = some (.symbol ⟨"g@0"⟩) ∧ m.Atomic) ∧
    (∃ b, (Passive.passify .initial true Passive.steppingProgram (Passive.changing [⟨"g"⟩])
      ⟨Passive.steppingBody, 3, []⟩).outcome = .ok b ∧ b.exitMap.Atomic) ∧
    ∃ c l, (ofProgram calling { encoding := .inline }).run .initial = (.ok c, l) ∧
      calling.AvoidsPlaceholders ∧ calling.Within (.literals Literal.NoBitVector) ∧
      (∀ n ∈ c.nodes, ∀ e ∈ n.endState, Passive.isAtomic e = true) ∧
      ∀ n ∈ c.nodes, ∀ m e, n.project m ≠ .error (.fault (.unreadableTerm e)) := by
  obtain ⟨symbols, functions, symbols', functions', l, hc⟩ := ofProgram_calling
  have hsystem := atomic_and_readable.2 calling _ _ _ _ hc avoidsPlaceholders_calling
  have hpassive := atomic_and_readable.1 .initial true Passive.steppingProgram
    (Passive.changing [⟨"g"⟩]) ⟨Passive.steppingBody, 3, []⟩
  refine ⟨?_, ?_, _, l, hc, avoidsPlaceholders_calling, within_literals_calling, hsystem.1,
    hsystem.2 within_literals_calling⟩
  · obtain ⟨s, hs, hm⟩ : ∃ s, (Passive.passifyBlocks (Passive.settingOf .initial true
        Passive.steppingProgram (Passive.changing [⟨"g"⟩]) Passive.steppingBody [0, 1, 2, 3])
        [0, 1] ⟨Passive.steppingBody,
          Passive.initialVersions Passive.steppingProgram Passive.steppingBody, []⟩).outcome =
            .ok s ∧ ∃ m, s.exitMaps.lookup 1 = some m ∧ m.find? ⟨"g"⟩ = some (.symbol ⟨"g@0"⟩) :=
      ⟨_, by cbv, _, by cbv, by cbv⟩
    obtain ⟨m, hm, hg⟩ := hm
    have horder : Passive.steppingBody.topologicalOrder = .ok [0, 1, 2, 3] := by cbv
    have hdone : [0, 1] <+: [0, 1, 2, 3] := ⟨[2, 3], rfl⟩
    have harises := Passive.Arises.exit hdone hs hm
    exact ⟨_, m, horder, harises, hg, hpassive.1 _ m horder harises⟩
  · obtain ⟨b, hb⟩ : ∃ b, (Passive.passify .initial true Passive.steppingProgram
        (Passive.changing [⟨"g"⟩]) ⟨Passive.steppingBody, 3, []⟩).outcome = .ok b := ⟨_, by cbv⟩
    exact ⟨b, hb, (hpassive.2 b hb).1⟩

end ConditionSystem

end Obligations
