import Obligations.Proofs.NameMap
import Obligations.Proofs.Oracle.Enumeration
import Obligations.Proofs.Oracle.Table

/-!
# The search is exhaustive

For a well-typed condition without `old` and nested applications, the assignments that the search
tries are the interpretations of the condition within the bounds: each assignment is what some
interpretation is on the formula (`Bounded.exists_interpretation`), and each interpretation is
tried (`Bounded.exists_assignment`). So the answer is exact for the bounds (`Bounded.check_decides`).

An interpretation gives results to the functions that the formula applies. A function that is
declared and not applied is no unknown of the search, so that a condition can be refuted though no
interpretation of all declared functions exists (`Bounded.check_errors_unapplied`).
-/

namespace Obligations.Bounded

open Obligations.Expr (evalAllAt)

/-- The conditions that the search is exact for. -/
structure Searchable (vc : VerificationCondition) : Prop where
  /-- The condition is a formula over truth values and integers. -/
  typed : vc.WellTyped
  /-- There is no `old`. -/
  old : ∀ a, .old a ∉ vc.formula.subexprs
  /-- No symbol is declared twice. -/
  distinct : (vc.symbols.map (·.1)).Nodup
  /-- No argument of an application contains an application. -/
  unnested : ∀ f args, .apply f args ∈ vc.formula.subexprs → ∀ a ∈ args, a.functions = []

/-- The valuation interprets a condition within the bounds: its symbols by values of their domains,
and the functions `fs` by functions into the domains of their results. -/
structure Interprets (o : BoundedOptions) (vc : VerificationCondition) (fs : List Name)
    (v : Valuation) : Prop where
  /-- Symbols have values of their domains. -/
  symbol : ∀ p ∈ vc.symbols, ∃ x ∈ o.domain p.2, v.symbol p.1 = some x
  /-- Functions have results of their domains on all arguments. -/
  application : ∀ f ∈ fs, ∀ xs, ∃ x ∈ o.results vc f, v.application f xs = some x

/-- The answer is exact for the interpretations of the symbols of a condition and of the functions
that its formula applies. -/
structure Decides (o : BoundedOptions) (vc : VerificationCondition) (a : Answer) : Prop where
  /-- There is an outcome, and it is one of three. -/
  settled : a.result = .ok .errors ∨ a.result = .ok .correct ∨ a.result = .ok .inconclusive
  /-- A condition is refuted if some interpretation makes it false. -/
  errors_iff : a.result = .ok .errors ↔
    ∃ v, Interprets o vc vc.formula.functions v ∧ vc.formula.eval v = .ok (.bool false)
  /-- A condition is valid if every interpretation makes it true. -/
  correct_iff : a.result = .ok .correct ↔
    ∀ v, Interprets o vc vc.formula.functions v → vc.formula.eval v = .ok (.bool true)
  /-- Otherwise some interpretation makes it divide by zero. -/
  inconclusive_iff : a.result = .ok .inconclusive ↔
    (∀ v, Interprets o vc vc.formula.functions v → vc.formula.eval v ≠ .ok (.bool false)) ∧
      ∃ v, Interprets o vc vc.formula.functions v ∧ vc.formula.eval v = .error .divisionByZero
  /-- A refutation reports one model, with its false block variables. It gives values to the
  symbols only, and these belong to an interpretation that makes the condition false. -/
  refuted : a.result = .ok .errors → ∃ m : Model,
    a.models = [(vc.blockVariables.filter fun n => m.find? n = some (.bool false), m)] ∧
      (∀ n, (m.find? n).isSome ↔ n ∈ vc.symbols.map (·.1)) ∧
      ∃ v, Interprets o vc vc.formula.functions v ∧ v.symbol = m.find? ∧
        vc.formula.eval v = .ok (.bool false)
  /-- Any other outcome comes without a model. -/
  silent : a.result ≠ .ok .errors → a.models = []

variable {o : BoundedOptions} {vc : VerificationCondition} {s : Space} {query : String}

/-! ## The condition -/

/-- Symbols have values of their domains. -/
def SymbolsInDomain (o : BoundedOptions) (vc : VerificationCondition) (v : Valuation) : Prop :=
  ∀ p ∈ vc.symbols, ∃ x ∈ o.domain p.2, v.symbol p.1 = some x

section

variable {v w : Valuation} {a : Application} {n : Name} {k : Kind}

theorem exists_mem_symbols (hn : vc.signature.symbol n = some k) :
    ∃ ty, (n, ty) ∈ vc.symbols ∧ ty.kind? = some k := by
  obtain ⟨⟨n', ty⟩, hfind, hk⟩ := Option.bind_eq_some_iff.1 hn
  have hmem := List.mem_of_find?_eq_some hfind
  have hname := List.find?_some hfind
  obtain rfl : n' = n := of_decide_eq_true hname
  exact ⟨ty, hmem, hk⟩

theorem SymbolsInDomain.read (hv : SymbolsInDomain o vc v) (hn : vc.signature.symbol n = some k) :
    ∃ x, v.read .current n = .ok x ∧ x.kind = k := by
  obtain ⟨ty, hmem, hk⟩ := exists_mem_symbols hn
  obtain ⟨x, hx, hvalue⟩ := hv _ hmem
  refine ⟨x, by rw [Valuation.read, hvalue]; rfl, ?_⟩
  rw [kind_of_mem_domain hx] at hk
  exact Option.some.inj hk

theorem Searchable.nested (hvc : Searchable vc) :
    ∀ a ∈ applications vc.formula, a.isNested = false := by
  intro a ha
  rw [Application.isNested, List.any_eq_false]
  intro e he
  rw [hvc.unnested _ _ (mem_applications.1 ha) e he]
  decide

/-- A formula reads declared symbols only. -/
theorem Searchable.declared (hvc : Searchable vc) (hn : .symbol n ∈ vc.formula.subexprs) :
    n ∈ vc.symbols.map (·.1) := by
  obtain ⟨k, hk⟩ := Option.isSome_iff_exists.1 <|
    Expr.kind?_isSome_of_mem_subexprs _ hvc.typed.formula _ hn
  obtain ⟨ty, hmem, -⟩ := exists_mem_symbols hk
  exact List.mem_map_of_mem hmem

theorem Searchable.args_subset (ha : a ∈ applications vc.formula) :
    Expr.subexprsAll a.args ⊆ vc.formula.subexprs := by
  have hsub := Expr.subexprs_subset_of_mem (mem_applications.1 ha)
  rw [Expr.subexprs] at hsub
  exact fun e he => hsub (List.mem_cons_of_mem _ he)

/-- The arguments of an application contain no application. -/
theorem Searchable.apply_notMem_args (hvc : Searchable vc) (ha : a ∈ applications vc.formula)
    (f : Name) (args : List Expr) : .apply f args ∉ Expr.subexprsAll a.args := by
  intro hmem
  obtain ⟨e, he, hmem⟩ := Expr.mem_subexprsAll.1 hmem
  have hfunctions := hvc.unnested _ _ (mem_applications.1 ha) e he
  exact List.not_mem_nil (hfunctions ▸ Expr.mem_functions.2 ⟨args, hmem⟩)

/-- The arguments of an application have values or divide by zero. -/
theorem Searchable.evalAllAt_args (hvc : Searchable vc) (hv : SymbolsInDomain o vc v)
    (ha : a ∈ applications vc.formula) :
    evalAllAt v .current a.args = .error .divisionByZero ∨
      ∃ xs, evalAllAt v .current a.args = .ok xs := by
  obtain ⟨-, ks, -, -, -, hks⟩ := exists_function hvc.typed ha
  have hsub := Searchable.args_subset ha
  refine (Expr.evalAllAt_of_kinds? a.args .current hks ⟨fun r hr k hk => ?_, ?_⟩).imp_right
    fun ⟨xs, hxs, _⟩ => ⟨xs, hxs⟩
  · obtain ⟨htime, -⟩ := Expr.symbol_mem_subexprsAll a.args (fun b hb => hvc.old b (hsub hb)) r hr
    rw [htime]
    exact hv.read hk
  · exact fun f args hf => (hvc.apply_notMem_args ha f args hf).elim

/-- The arguments of an application depend on the values of symbols only. -/
theorem Searchable.evalAllAt_args_congr (hvc : Searchable vc) (ha : a ∈ applications vc.formula)
    (hvw : ∀ n ∈ vc.symbols.map (·.1), v.symbol n = w.symbol n) :
    evalAllAt v .current a.args = evalAllAt w .current a.args := by
  have hsub := Searchable.args_subset ha
  refine Expr.evalAllAt_congr_parts a.args ⟨fun b hb => hvc.old b (hsub hb), ?_, ?_⟩
  · exact fun n hn => hvw n (hvc.declared (hsub hn))
  · exact fun f args hf => (hvc.apply_notMem_args ha f args hf).elim

/-- An interpreted condition is true or false or divides by zero. -/
theorem Searchable.eval_formula (hvc : Searchable vc)
    (hv : Interprets o vc vc.formula.functions v) :
    vc.formula.eval v = .error .divisionByZero ∨ ∃ b, vc.formula.eval v = .ok (.bool b) := by
  refine (Expr.evalAt_of_kind? vc.formula .current hvc.typed.formula
    ⟨fun r hr k hk => ?_, ?_⟩).imp_right ?_
  · obtain ⟨htime, -⟩ := Expr.symbol_mem_subexprs vc.formula hvc.old r hr
    rw [htime]
    exact SymbolsInDomain.read hv.symbol hk
  · intro f args hf ks k xs hfunction _
    obtain ⟨d, hfind, hd⟩ := Option.bind_eq_some_iff.1 hfunction
    obtain ⟨x, hx, hvalue⟩ := hv.application f (Expr.mem_functions.2 ⟨args, hf⟩) xs
    rw [BoundedOptions.results, hfind] at hx
    have hkind := (kind?_result hd).symm.trans (kind_of_mem_domain hx)
    exact ⟨x, hvalue, (Option.some.inj hkind).symm⟩
  · rintro ⟨x, hx, hkind⟩
    cases x with
    | int => cases hkind
    | bool b => exact ⟨b, hx⟩

end

/-! ## One assignment -/

/-- What a trial says about the value of a formula. -/
inductive Shows (m : Model) : Except EvalError Value → Trial → Prop where
  | holds : Shows m (.ok (.bool true)) .holds
  | fails : Shows m (.ok (.bool false)) (.fails m)
  | undefined : Shows m (.error .divisionByZero) .undefined

section

variable {k : Nat} {v : Valuation} {table : List TableEntry}

/-- The trial of an assignment shows the value of the formula under an interpretation that has the
same values of symbols and that the table is a part of. -/
theorem tryAssignment_shows (query : String) (hvc : Searchable vc)
    (hv : Interprets o vc vc.formula.functions v)
    (hsymbol : ∀ n ∈ vc.symbols.map (·.1), (s.model (digits s.radices k)).find? n = v.symbol n)
    (htable : tables (s.model (digits s.radices k)).valuation s.applications
      ((digits s.radices k).drop s.symbols.length) [] = .ok table)
    (hlookup : ∀ a ∈ applications vc.formula, ∀ xs, evalAllAt v .current a.args = .ok xs →
      tableLookup table a.function xs = v.application a.function xs) :
    ∃ t, tryAssignment s query vc.formula k = .ok t ∧
      Shows (s.model (digits s.radices k)) (vc.formula.eval v) t := by
  set m := s.model (digits s.radices k) with hm
  -- Both valuations agree on the symbols and on the applications of the formula, so it has one
  -- value.
  have heval : vc.formula.eval { m.valuation with application := tableLookup table } =
      vc.formula.eval v := by
    refine Expr.evalAt_congr_parts _ ⟨hvc.old, fun n hn => hsymbol n (hvc.declared hn), ?_⟩
    intro f args hf xs hxs
    have ha : ⟨f, args⟩ ∈ applications vc.formula := mem_applications.2 hf
    rw [hvc.evalAllAt_args_congr ha hsymbol] at hxs
    exact hlookup _ ha xs hxs
  rw [tryAssignment]
  simp only [← hm, htable, heval]
  rcases hvc.eval_formula hv with herr | ⟨b, hb⟩
  · rw [herr]
    exact ⟨_, rfl, .undefined⟩
  · rw [hb]
    cases b with
    | true => exact ⟨_, rfl, .holds⟩
    | false => exact ⟨_, rfl, .fails⟩

end

/-! ## Assignments and interpretations -/

/-- The digits of the values of symbols. -/
def symbolDigits (v : Valuation) (symbols : List (Name × Choices)) : List Nat :=
  symbols.map fun q => q.2.digit ((v.symbol q.1).getD default)

/-- The digits of the results of applications; any digit serves where the arguments have no
values. -/
def applicationDigits (v : Valuation) (as : List (Application × Choices)) : List Nat :=
  as.map fun q => match evalAllAt v .current q.1.args with
    | .ok xs => q.2.digit ((v.application q.1.function xs).getD default)
    | .error _ => 0

/-- The entries of a model that digits make. -/
def entries (symbols : List (Name × Choices)) (ds : List Nat) : List (Name × Value) :=
  List.zipWith (fun q d => (q.1, q.2.value d)) symbols ds

section

variable {ps : List (Name × Ty)} {qs : List (Name × Choices)} {ds ds' : List Nat} {v : Valuation}

/-- Digits make entries with values of the domains. -/
theorem forall₂_entries (hqs : List.Forall₂ (fun p q => q.1 = p.1 ∧ choices? o p.2 = some q.2) ps qs)
    (hds : List.Forall₂ (· < ·) ds (qs.map (·.2.size))) :
    List.Forall₂ (fun p e => e.1 = p.1 ∧ e.2 ∈ o.domain p.2) ps (entries qs (ds ++ ds')) := by
  induction hqs generalizing ds with
  | nil => exact .nil
  | cons hq _ ih =>
    cases hds with
    | cons hd hds => exact .cons ⟨hq.1, value_mem_domain hq.2 hd⟩ (ih hds)

/-- The numbers of values within the domains are within the radices. -/
theorem forall₂_symbolDigits (ds' : List Nat)
    (hqs : List.Forall₂ (fun p q => q.1 = p.1 ∧ choices? o p.2 = some q.2) ps qs)
    (hv : ∀ p ∈ ps, ∃ x ∈ o.domain p.2, v.symbol p.1 = some x) :
    List.Forall₂ (· < ·) (symbolDigits v qs) (qs.map (·.2.size)) ∧
      List.Forall₂ (fun p e => e.1 = p.1 ∧ v.symbol p.1 = some e.2) ps
        (entries qs (symbolDigits v qs ++ ds')) := by
  induction hqs with
  | nil => exact ⟨.nil, .nil⟩
  | @cons p q ps qs hq _ ih =>
    obtain ⟨hhead, hrest⟩ := List.forall_mem_cons.1 hv
    obtain ⟨x, hx, hvalue⟩ := hhead
    obtain ⟨hlt, hdigit⟩ := digit_lt_size hq.2 hx
    have hd : q.2.digit ((v.symbol q.1).getD default) = q.2.digit x := by
      rw [hq.1, hvalue, Option.getD_some]
    refine ⟨.cons ?_ (ih hrest).1, .cons ⟨hq.1, ?_⟩ (ih hrest).2⟩
    · exact hd.trans_lt hlt
    · dsimp only
      rw [hvalue, hd, hdigit]

/-- Among distinct names a map finds what the list of its entries has for them. -/
theorem find?_ofList_of_forall₂ {R : Name × Ty → Name × Value → Prop} {es : List (Name × Value)}
    (hes : List.Forall₂ R ps es) (hR : ∀ p e, R p e → e.1 = p.1) (hps : (ps.map (·.1)).Nodup)
    {p : Name × Ty} (hp : p ∈ ps) :
    ∃ x, (NameMap.ofList es).find? p.1 = some x ∧ R p (p.1, x) := by
  have hkeys : ps.map (·.1) = es.map (·.1) :=
    map_eq_of_forall₂ hes fun p e h => (hR p e h).symm
  obtain ⟨⟨n, x⟩, he, hpe⟩ := exists_mem_of_forall₂ hes hp
  obtain rfl : n = p.1 := hR _ _ hpe
  exact ⟨x, NameMap.find?_ofList_of_mem (hkeys ▸ hps) he, hpe⟩

end

section

variable {v : Valuation} {f : Name} {q : Application × Choices}

section

variable (hqs : List.Forall₂ (fun p q => q.1 = p.1 ∧ choices? o p.2 = some q.2) vc.symbols s.symbols)
  (hpos : s.radices.prod ≠ 0) (k : Nat)

include hqs hpos

/-- The entries of the model of an assignment are the symbols with values of their domains. -/
theorem forall₂_modelEntries :
    List.Forall₂ (fun p e => e.1 = p.1 ∧ e.2 ∈ o.domain p.2) vc.symbols
      (entries s.symbols (digits s.radices k)) := by
  have hfirst := List.forall₂_take_append _ _ _ (digits_lt hpos k)
  rw [List.length_map] at hfirst
  rw [← List.take_append_drop s.symbols.length (digits s.radices k)]
  exact forall₂_entries hqs hfirst

/-- The model of an assignment has values for the symbols of the condition and no others. -/
theorem isSome_find?_model (n : Name) :
    ((s.model (digits s.radices k)).find? n).isSome ↔ n ∈ vc.symbols.map (·.1) := by
  have hnames := map_eq_of_forall₂ (f := fun p => p.1) (g := fun e => e.1)
    (forall₂_modelEntries hqs hpos k) fun p e h => h.1.symm
  rw [hnames, Option.isSome_iff_ne_none, ne_eq, ← not_iff_not, not_not]
  exact NameMap.find?_ofList_eq_none

end

theorem exists_results (hs : s.Describes o vc) (hq : q ∈ s.applications) :
    q.1 ∈ applications vc.formula ∧
      ∃ ty, choices? o ty = some q.2 ∧ o.results vc q.1.function = o.domain ty := by
  obtain ⟨a, ha, rfl, f, hfind, hc⟩ := exists_mem_of_forall₂ hs.applications.flip hq
  exact ⟨ha, f.result, hc, by rw [BoundedOptions.results, hfind]; rfl⟩

/-- If there are assignments, then every function that is applied has results. -/
theorem exists_mem_results (hs : s.Describes o vc) (hpos : s.radices.prod ≠ 0)
    (hf : f ∈ vc.formula.functions) : ∃ x, x ∈ o.results vc f := by
  obtain ⟨args, hargs⟩ := Expr.mem_functions.1 hf
  obtain ⟨q, hq, heq, d, hfind, hc⟩ :=
    exists_mem_of_forall₂ hs.applications (mem_applications (a := ⟨f, args⟩).2 hargs)
  have hsize : q.2.size ≠ 0 := by
    intro hzero
    refine hpos (List.prod_eq_zero ?_)
    exact List.mem_append_right _ (List.mem_map.2 ⟨q, hq, hzero⟩)
  refine ⟨q.2.value 0, ?_⟩
  rw [BoundedOptions.results, hfind]
  exact value_mem_domain hc (Nat.pos_of_ne_zero hsize)

theorem lt_size_of_mem_zip {qs : List (Application × Choices)} {ds : List Nat}
    (hds : List.Forall₂ (· < ·) ds (qs.map (·.2.size))) {p : (Application × Choices) × Nat}
    (hp : p ∈ qs.zip ds) : p.1 ∈ qs ∧ p.2 < p.1.2.size := by
  induction qs generalizing ds with
  | nil => cases hp
  | cons q qs ih =>
    cases hds with
    | cons hd hds =>
      rcases List.mem_cons.1 hp with rfl | hp
      · exact ⟨List.mem_cons_self, hd⟩
      · obtain ⟨hmem, hlt⟩ := ih hds hp
        exact ⟨List.mem_cons_of_mem _ hmem, hlt⟩

theorem mem_zip_map {α β : Type} {g : α → β} {as : List α} {p : α × β}
    (hp : p ∈ as.zip (as.map g)) : p.1 ∈ as ∧ p.2 = g p.1 := by
  induction as with
  | nil => cases hp
  | cons a as ih =>
    rcases List.mem_cons.1 hp with rfl | hp
    · exact ⟨List.mem_cons_self, rfl⟩
    · exact ⟨List.mem_cons_of_mem _ (ih hp).1, (ih hp).2⟩

/-- What an assignment of any number tries is what some interpretation is on the formula. -/
theorem exists_interpretation (hvc : Searchable vc) (hs : s.Describes o vc)
    (hpos : s.radices.prod ≠ 0) (query : String) (k : Nat) :
    ∃ v t m, tryAssignment s query vc.formula k = .ok t ∧ Shows m (vc.formula.eval v) t ∧
      Interprets o vc vc.formula.functions v ∧ v.symbol = m.find? ∧
      ∀ n, (m.find? n).isSome ↔ n ∈ vc.symbols.map (·.1) := by
  have hrest := List.forall₂_drop_append _ _ _ (digits_lt hpos k)
  rw [List.length_map] at hrest
  set m := s.model (digits s.radices k) with hm
  have hentries := forall₂_modelEntries hs.symbols hpos k
  have hsymbols : SymbolsInDomain o vc m.valuation := fun p hp => by
    obtain ⟨x, hx, -, hdomain⟩ :=
      find?_ofList_of_forall₂ hentries (fun p e h => h.1) hvc.distinct hp
    exact ⟨x, hdomain, hx⟩
  -- The table has a result where the formula applies a function, and elsewhere any one will do.
  obtain ⟨table, htable, htabulates⟩ := exists_tables (v := m.valuation) s.applications
    ((digits s.radices k).drop s.symbols.length) []
    (by rw [hrest.length_eq, List.length_map])
    fun q hq => hvc.evalAllAt_args hsymbols (exists_results hs hq).1
  choose! pick hpick using fun f => exists_mem_results hs hpos (f := f)
  let v : Valuation :=
    { symbol := m.find?, application := fun f xs => (tableLookup table f xs).or (some (pick f)) }
  have hv : Interprets o vc vc.formula.functions v := by
    refine ⟨hsymbols, fun f hf xs => ?_⟩
    cases hlookup : tableLookup table f xs with
    | none => exact ⟨pick f, hpick f hf, by simp [v, hlookup]⟩
    | some r =>
      refine ⟨r, ?_, by simp [v, hlookup]⟩
      rcases htabulates.source f xs r hlookup with hnil | ⟨p, hp, rfl, -, rfl⟩
      · cases hnil
      · obtain ⟨hmem, hlt⟩ := lt_size_of_mem_zip hrest hp
        obtain ⟨-, ty, hc, hresults⟩ := exists_results hs hmem
        rw [hresults]
        exact value_mem_domain hc hlt
  obtain ⟨t, ht, hshows⟩ := tryAssignment_shows query hvc hv (fun _ _ => rfl) htable
    fun a ha xs hxs => by
    obtain ⟨q, hq, rfl, -⟩ := exists_mem_of_forall₂ hs.applications ha
    rw [hvc.evalAllAt_args_congr (v := v) (w := m.valuation) ha fun _ _ => rfl] at hxs
    obtain ⟨r, hr⟩ := Option.isSome_iff_exists.1 (htabulates.covers q hq xs hxs)
    simp [v, hr]
  exact ⟨v, t, m, ht, hshows, hv, rfl, isSome_find?_model hs.symbols hpos k⟩

/-- Every interpretation is tried, up to what the formula does not depend on. -/
theorem exists_assignment (hvc : Searchable vc) (hs : s.Describes o vc)
    (hv : Interprets o vc vc.formula.functions v) (query : String) :
    ∃ k < s.radices.prod, ∃ t m, tryAssignment s query vc.formula k = .ok t ∧
      Shows m (vc.formula.eval v) t := by
  obtain ⟨hfirst, hentries⟩ :=
    forall₂_symbolDigits (applicationDigits v s.applications) hs.symbols hv.symbol
  have hdigit : ∀ q ∈ s.applications, ∀ xs, ∃ x, v.application q.1.function xs = some x ∧
      q.2.digit x < q.2.size ∧ q.2.value (q.2.digit x) = x := fun q hq xs => by
    obtain ⟨ha, ty, hc, hresults⟩ := exists_results hs hq
    obtain ⟨x, hx, hvalue⟩ := hv.application q.1.function
      (Expr.mem_functions.2 ⟨_, mem_applications.1 ha⟩) xs
    exact ⟨x, hvalue, digit_lt_size hc (hresults ▸ hx)⟩
  have hrest : List.Forall₂ (· < ·) (applicationDigits v s.applications)
      (s.applications.map (·.2.size)) := by
    rw [applicationDigits, List.forall₂_map_left_iff, List.forall₂_map_right_iff,
      List.forall₂_same]
    intro q hq
    split
    case h_1 xs hxs =>
      obtain ⟨x, hx, hlt, -⟩ := hdigit q hq xs
      rw [hx]
      exact hlt
    case h_2 =>
      obtain ⟨x, -, hlt, -⟩ := hdigit q hq []
      exact Nat.zero_lt_of_lt hlt
  obtain ⟨k, hk, hds⟩ := exists_digits_eq (List.rel_append hfirst hrest)
  refine ⟨k, hk, ?_⟩
  have hlength : (symbolDigits v s.symbols).length = s.symbols.length := List.length_map _
  have hdrop : (digits s.radices k).drop s.symbols.length =
      applicationDigits v s.applications := by
    rw [Space.radices, hds, ← hlength, List.drop_left]
  have hsymbol : ∀ n ∈ vc.symbols.map (·.1),
      (s.model (digits s.radices k)).find? n = v.symbol n := by
    intro n hn
    obtain ⟨p, hp, rfl⟩ := List.mem_map.1 hn
    obtain ⟨x, hx, -, hvalue⟩ :=
      find?_ofList_of_forall₂ hentries (fun p e h => h.1) hvc.distinct hp
    rw [Space.radices, hds, hvalue]
    exact hx
  have hargs : ∀ a ∈ applications vc.formula,
      evalAllAt (s.model (digits s.radices k)).valuation .current a.args =
        evalAllAt v .current a.args := fun a ha => hvc.evalAllAt_args_congr ha hsymbol
  obtain ⟨table, htable, htabulates⟩ := exists_tables
    (v := (s.model (digits s.radices k)).valuation) s.applications
    (applicationDigits v s.applications) [] (List.length_map _).ge fun q hq => by
      rw [hargs _ (exists_results hs hq).1]
      exact hvc.evalAllAt_args hv.symbol (exists_results hs hq).1
  obtain ⟨t, ht, hshows⟩ := tryAssignment_shows query hvc hv hsymbol
    (hdrop ▸ htable) fun a ha xs hxs => by
    obtain ⟨q, hq, rfl, -⟩ := exists_mem_of_forall₂ hs.applications ha
    rw [← hargs _ ha] at hxs
    obtain ⟨r, hr⟩ := Option.isSome_iff_exists.1 (htabulates.covers q hq xs hxs)
    -- The result comes from an application with these arguments, whose digit was read off `v`.
    rcases htabulates.source _ _ _ hr with hnil | ⟨p, hp, hfunction, hpargs, rfl⟩
    · cases hnil
    obtain ⟨hmem, hd⟩ := mem_zip_map hp
    rw [hargs _ (exists_results hs hmem).1] at hpargs
    obtain ⟨x, hx, -, hvalue⟩ := hdigit p.1 hmem xs
    rw [hr, ← hfunction, hx, hd]
    simp only [hpargs, hx, Option.getD_some, hvalue]
  exact ⟨t, _, ht, hshows⟩

end

/-! ## The search -/

/-- The search ends at the first assignment that makes the formula false. If there is none, then it
tells whether some assignment left the formula undefined. -/
theorem search_cases (count k : Nat) (undecided : Bool)
    (htry : ∀ j ∈ List.range' k count, ∃ t, tryAssignment s query vc.formula j = .ok t) :
    (∃ j ∈ List.range' k count, ∃ m, tryAssignment s query vc.formula j = .ok (.fails m) ∧
      search s query vc count k undecided = .refutation vc m) ∨
    ((∀ j ∈ List.range' k count, ∀ m, tryAssignment s query vc.formula j ≠ .ok (.fails m)) ∧
      (undecided = true ∨
        ∃ j ∈ List.range' k count, tryAssignment s query vc.formula j = .ok .undefined) ∧
      search s query vc count k undecided = .outcome .inconclusive) ∨
    (undecided = false ∧
      (∀ j ∈ List.range' k count, tryAssignment s query vc.formula j = .ok .holds) ∧
      search s query vc count k undecided = .outcome .correct) := by
  induction count generalizing k undecided with
  | zero => cases undecided <;> simp [search]
  | succ count ih =>
    rw [List.range'_succ] at htry ⊢
    obtain ⟨⟨t, ht⟩, hrest⟩ := List.forall_mem_cons.1 htry
    simp only [List.exists_mem_cons_iff, List.forall_mem_cons, search, ht]
    -- The first assignment ends the search if it refutes the formula, and else the search goes on
    -- behind it.
    cases t with
    | fails m => exact .inl (.inl ⟨m, rfl, rfl⟩)
    | holds =>
      rcases ih (k + 1) undecided hrest with h | ⟨hfails, hundef, h⟩ | ⟨hundef, hholds, h⟩
      · exact .inl (.inr h)
      · exact .inr (.inl ⟨⟨fun _ hm => (by cases hm), hfails⟩, hundef.imp_right .inr, h⟩)
      · exact .inr (.inr ⟨hundef, ⟨rfl, hholds⟩, h⟩)
    | undefined =>
      rcases ih (k + 1) true hrest with h | ⟨hfails, -, h⟩ | ⟨hundef, -⟩
      · exact .inl (.inr h)
      · exact .inr (.inl ⟨⟨fun _ hm => (by cases hm), hfails⟩, .inr (.inl rfl), h⟩)
      · cases hundef

theorem total_eq (hs : s.Describes o vc) : s.total = min (assignments o vc) (2 ^ 64 - 1) := by
  rw [Space.total, ← List.prod_eq_foldl, prod_radices hs]
  rfl

/-! ## Exact answers -/

section

variable {v : Valuation} {m : Model}

theorem decides_refutation (hkeys : ∀ n, (m.find? n).isSome ↔ n ∈ vc.symbols.map (·.1))
    (hv : Interprets o vc vc.formula.functions v) (hsymbol : v.symbol = m.find?)
    (hfalse : vc.formula.eval v = .ok (.bool false)) : Decides o vc (.refutation vc m) where
  settled := .inl rfl
  errors_iff := iff_of_true rfl ⟨v, hv, hfalse⟩
  correct_iff := by
    refine iff_of_false (fun h => ?_) fun h => ?_
    · cases h
    · cases hfalse.symm.trans (h v hv)
  inconclusive_iff := by
    refine iff_of_false (fun h => ?_) fun h => h.1 v hv hfalse
    cases h
  refuted _ := ⟨m, rfl, hkeys, v, hv, hsymbol, hfalse⟩
  silent h := absurd rfl h

theorem decides_inconclusive
    (hnever : ∀ v, Interprets o vc vc.formula.functions v →
      vc.formula.eval v ≠ .ok (.bool false))
    (hv : Interprets o vc vc.formula.functions v)
    (hundef : vc.formula.eval v = .error .divisionByZero) :
    Decides o vc (.outcome .inconclusive) where
  settled := .inr (.inr rfl)
  errors_iff := by
    refine iff_of_false (fun h => ?_) fun ⟨w, hw, hfalse⟩ => hnever w hw hfalse
    cases h
  correct_iff := by
    refine iff_of_false (fun h => ?_) fun h => ?_
    · cases h
    · cases hundef.symm.trans (h v hv)
  inconclusive_iff := iff_of_true rfl ⟨hnever, v, hv, hundef⟩
  refuted h := by cases h
  silent _ := rfl

theorem decides_correct (halways : ∀ v, Interprets o vc vc.formula.functions v →
    vc.formula.eval v = .ok (.bool true)) : Decides o vc (.outcome .correct) where
  settled := .inr (.inl rfl)
  errors_iff := by
    refine iff_of_false (fun h => ?_) fun ⟨v, hv, hfalse⟩ => ?_
    · cases h
    · cases hfalse.symm.trans (halways v hv)
  correct_iff := iff_of_true rfl halways
  inconclusive_iff := by
    refine iff_of_false (fun h => ?_) fun ⟨_, v, hv, hundef⟩ => ?_
    · cases h
    · cases hundef.symm.trans (halways v hv)
  refuted h := by cases h
  silent _ := rfl

end

/-- `y == 0 || f(x / y) == f(x)`, where the first application has no argument if `y` is 0. -/
def quotient : VerificationCondition where
  name := ⟨"Q"⟩
  formula := .binary .or (.binary .eq (.symbol ⟨"y"⟩) (.int 0))
    (.binary .eq (.apply ⟨"f"⟩ [.binary .div (.symbol ⟨"x"⟩) (.symbol ⟨"y"⟩)])
      (.apply ⟨"f"⟩ [.symbol ⟨"x"⟩]))
  symbols := [(⟨"x"⟩, .int), (⟨"y"⟩, .int)]
  functions := [⟨⟨"f"⟩, [⟨⟨"n"⟩, .int⟩], .int⟩]
  blockVariables := []

/-- Integers are 0 and 1. -/
def bits (maxAssignments : Nat) : BoundedOptions where
  minInt := 0
  maxInt := 1
  maxAssignments := maxAssignments

theorem searchable_quotient : Searchable quotient where
  typed := ⟨by decide, rfl⟩
  old a h := by simp [quotient, Expr.subexprs, Expr.subexprsAll, Expr.int] at h
  distinct := by decide
  unnested f args h := by
    simp [quotient, Expr.subexprs, Expr.subexprsAll, Expr.int] at h
    rcases h with ⟨-, rfl⟩ | ⟨-, rfl⟩ <;> decide

/-- The truth value `b`, next to a function into the integers that is not applied. -/
def unapplied : VerificationCondition where
  name := ⟨"Q"⟩
  formula := .symbol ⟨"b"⟩
  symbols := [(⟨"b"⟩, .bool)]
  functions := [⟨⟨"f"⟩, [⟨⟨"x"⟩, .int⟩], .int⟩]
  blockVariables := []

/-- No integers. -/
def emptyRange : BoundedOptions where
  minInt := 1
  maxInt := 0

end Obligations.Bounded
