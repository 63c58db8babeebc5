import Obligations.Proofs.Passive.Versions

/-!
# Assignments and arbitrary values

What the steps of a passive assignment do to a valuation and the state that it represents. A value
that is a literal or a single name only comes to stand for the variable; any other is the value of a
version, which the valuation is extended by (`Passive.Stores`). A variable that gets an arbitrary
value gets a version with that value (`Passive.Renews`).
-/

namespace Obligations.Passive

variable {I : Interpretation} {S : Scene I} {E V : List Name}

/-- The base names in use are declared, and among them are the names in force and the names in force
outside of all scopes. -/
structure Scene.InForce (S : Scene I) (E V : List Name) : Prop where
  /-- The base names in use are declared. -/
  declared : ∀ x ∈ E, x ∈ S.declared
  /-- The names in force are in use. -/
  used : ∀ x ∈ V, x ∈ E
  /-- So are the names in force outside of all scopes. -/
  outer : ∀ x ∈ S.outer, x ∈ E

/-- A name in force is declared. -/
theorem Scene.InForce.declared_of_mem (h : S.InForce E V) {x : Name} (hx : x ∈ V) :
    x ∈ S.declared := h.declared x (h.used x hx)

variable {s s' : Progress}

/-- A name in force gets a version that is new, and that then stands for it. -/
theorem renew_eq_ok (hV : S.InForce E V) (hs : S.Sound E V s.versions s.map) {x : Name}
    (hx : x ∈ V) (o : Origin) :
    ∃ n s', (s.renew x o).outcome = .ok (n, s') ∧ s'.cmds = s.cmds ∧
      s'.map = s.map.insert x (.symbol n) ∧ S.Sound E V s'.versions s'.map ∧
      ¬ s.versions.Used E n ∧ ∀ y, s'.versions.Used E y ↔ s.versions.Used E y ∨ y = n := by
  obtain ⟨n, versions, hnext, htracks, hnew, hused⟩ := hs.tracks.next (hV.declared_of_mem hx) o
  have hsound : S.Sound E V versions s.map :=
    hs.mono htracks (fun y hy => (hused E y).2 (.inl hy)) fun _ hy => hy
  have hsymbol : ∀ y ∈ (Expr.symbol n).names, versions.Used E y := fun y hy =>
    (hused E y).2 (.inr (Expr.mem_names_symbol.1 hy))
  refine ⟨n, { s with versions, map := s.map.insert x (.symbol n) }, ?_, rfl, rfl,
    hsound.insert hx rfl hsymbol, hnew E hV.declared, hused E⟩
  rw [Progress.renew, Minting.outcome_bind, hnext]
  rfl

/-- The steps of an assignment, from its right sides with what stands for the names put in their
place to the equalities to assume. -/
structure Stores (S : Scene I) (E V : List Name) (g : Expr → Expr) (s : Progress)
    (pairs : List (Name × Expr)) (es : List Expr) (s' : Progress) : Prop where
  /-- No passive command is added. -/
  cmds : s'.cmds = s.cmds
  /-- The map stays sound. -/
  sound : S.Sound E V s'.versions s'.map
  /-- Names in use stay in use. -/
  grows : ∀ x, s.versions.Used E x → s'.versions.Used E x
  /-- The equalities read names in use. -/
  reads : ∀ e ∈ es, ∀ x ∈ e.names, s'.versions.Used E x
  /-- An extension of the valuation represents the state after the values are stored. -/
  run : ∀ (c : Context I) ν σ σ' τ Y, (∀ p ∈ pairs, I.value ν.passive (g p.2) = c.value σ p.2) →
    (∀ x, Y x → x ∈ E) → S.Represents s.map Y ν σ' → c.Assigns σ pairs σ' τ →
    ∃ ν', Agree (s.versions.Used E) ν ν' ∧ (∀ e ∈ es, I.Holds ν'.passive e) ∧
      S.Represents s'.map (fun x => Y x ∨ x ∈ pairs.map (·.1)) ν' τ
  /-- A valuation that makes the equalities true represents the state after the values are
  stored. -/
  back : ∀ (c : Context I) ν σ σ' Y, (∀ p ∈ pairs, I.value ν.passive (g p.2) = c.value σ p.2) →
    S.Represents s.map Y ν σ' → (∀ e ∈ es, I.Holds ν.passive e) →
    ∃ τ, c.Assigns σ pairs σ' τ ∧
      S.Represents s'.map (fun x => Y x ∨ x ∈ pairs.map (·.1)) ν τ

/-- Nothing is stored. -/
theorem Stores.nil {g : Expr → Expr} (hs : S.Sound E V s.versions s.map) :
    Stores S E V g s [] [] s where
  cmds := rfl
  sound := hs
  grows _ hx := hx
  reads e he := by cases he
  run c ν σ σ' τ Y _ _ hrep hassign := by
    cases hassign
    refine ⟨ν, Agree.refl, fun e he => (by cases he), hrep.mono fun x hx => ?_⟩
    simpa using hx
  back c ν σ σ' Y _ hrep _ := by
    refine ⟨σ', rfl, hrep.mono fun x hx => ?_⟩
    simpa using hx

/-- A literal or a single name comes to stand for a variable before other values are stored. -/
theorem Stores.stand {g : Expr → Expr} {x : Name} {e : Expr} {pairs : List (Name × Expr)}
    {es : List Expr} (hatomic : isAtomic (g e) = true)
    (h : Stores S E V g (s.stand x (g e)) pairs es s') (hx : x ∈ E) :
    Stores S E V g s ((x, e) :: pairs) es s' where
  cmds := h.cmds
  sound := h.sound
  grows := h.grows
  reads := h.reads
  run c ν σ σ' τ Y hvalues hY hrep hassign := by
    obtain ⟨a, ha, hassign⟩ := hassign
    have hvalue : I.value ν.passive (g e) = some a := (hvalues _ List.mem_cons_self).trans ha
    obtain ⟨ν', hν', hall, hrep'⟩ := h.run c ν σ _ τ (fun y => Y y ∨ y = x)
      (fun p hp => hvalues p (List.mem_cons_of_mem _ hp))
      (fun y hy => hy.elim (hY y) fun heq => heq ▸ hx) (hrep.insert hvalue) hassign
    exact ⟨ν', hν', hall, hrep'.of_cons⟩
  back c ν σ σ' Y hvalues hrep hall := by
    obtain ⟨a, hvalue⟩ := exists_value_of_isAtomic hatomic ν
    obtain ⟨τ, hassign, hrep'⟩ := h.back c ν σ _ (fun y => Y y ∨ y = x)
      (fun p hp => hvalues p (List.mem_cons_of_mem _ hp)) (hrep.insert hvalue) hall
    exact ⟨τ, ⟨a, (hvalues _ List.mem_cons_self).symm.trans hvalue, hassign⟩, hrep'.of_cons⟩

/-- A variable gets a version for its value before other values are stored. -/
theorem Stores.version {g : Expr → Expr} {x n : Name} {e : Expr} {pairs : List (Name × Expr)}
    {es : List Expr} {s₁ : Progress} (hV : S.InForce E V) (hs : S.Sound E V s.versions s.map)
    (hcmds : s₁.cmds = s.cmds) (hmap : s₁.map = s.map.insert x (.symbol n))
    (hnew : ¬ s.versions.Used E n)
    (hused : ∀ y, s₁.versions.Used E y ↔ s.versions.Used E y ∨ y = n) (hx : x ∈ E)
    (hreads : ∀ p ∈ (x, e) :: pairs, ∀ y ∈ (g p.2).names, s.versions.Used E y)
    (h : Stores S E V g s₁ pairs es s') :
    Stores S E V g s ((x, e) :: pairs) (.binary .eq (.symbol n) (g e) :: es) s' where
  cmds := h.cmds.trans hcmds
  sound := h.sound
  grows y hy := h.grows y ((hused y).2 (.inl hy))
  reads e' he' y hy := by
    rcases List.mem_cons.mp he' with rfl | he'
    · rw [Expr.mem_names_binary, Expr.mem_names_symbol] at hy
      refine h.grows y ((hused y).2 ?_)
      exact hy.elim .inr fun hy => .inl (hreads _ List.mem_cons_self y hy)
    · exact h.reads e' he' y hy
  run c ν σ σ' τ Y hvalues hY hrep hassign := by
    obtain ⟨a, ha, hassign⟩ := hassign
    -- The version gets the value, and what is in use keeps its own.
    have hν₁ : Agree (s.versions.Used E) ν (Function.update ν n a) := agree_update hnew a
    have hvalues₁ : ∀ p ∈ (x, e) :: pairs,
        I.value (Interpretation.State.passive (Function.update ν n a)) (g p.2) =
          c.value σ p.2 := fun p hp =>
      (value_passive_congr hν₁ (hreads p hp)).trans (hvalues p hp)
    have hn := value_symbol_update ν n a
    have hrep₁ : S.Represents s₁.map (fun y => Y y ∨ y = x) (Function.update ν n a)
        (Function.update σ' x a) := by
      rw [hmap]
      exact (hrep.of_agree hs hV.outer hY hν₁).insert hn
    obtain ⟨ν', hν', hall, hrep'⟩ := h.run c _ σ _ τ (fun y => Y y ∨ y = x)
      (fun p hp => hvalues₁ p (List.mem_cons_of_mem _ hp))
      (fun y hy => hy.elim (hY y) fun heq => heq ▸ hx) hrep₁ hassign
    have hgrows : ∀ y, s.versions.Used E y → s₁.versions.Used E y := fun y hy =>
      (hused y).2 (.inl hy)
    refine ⟨ν', hν₁.trans hν' hgrows, fun e' he' => ?_, hrep'.of_cons⟩
    -- The first equality is that of the version, the others come after it.
    rcases List.mem_cons.mp he' with rfl | he'
    · refine Interpretation.holds_eq_iff.2 ⟨a, ?_, ?_⟩
      · refine (value_passive_congr hν' fun y hy => ?_).trans hn
        exact (hused y).2 (.inr (Expr.mem_names_symbol.1 hy))
      · refine (value_passive_congr hν' fun y hy => ?_).trans
          ((hvalues₁ _ List.mem_cons_self).trans ha)
        exact hgrows y (hreads _ List.mem_cons_self y hy)
    · exact hall e' he'
  back c ν σ σ' Y hvalues hrep hall := by
    obtain ⟨a, hn, hvalue⟩ := Interpretation.holds_eq_iff.1 (hall _ List.mem_cons_self)
    have hrep₁ : S.Represents s₁.map (fun y => Y y ∨ y = x) ν (Function.update σ' x a) := by
      rw [hmap]
      exact hrep.insert hn
    obtain ⟨τ, hassign, hrep'⟩ := h.back c ν σ _ (fun y => Y y ∨ y = x)
      (fun p hp => hvalues p (List.mem_cons_of_mem _ hp)) hrep₁
      fun e' he' => hall e' (List.mem_cons_of_mem _ he')
    exact ⟨τ, ⟨a, (hvalues _ List.mem_cons_self).symm.trans hvalue, hassign⟩, hrep'.of_cons⟩

/-- The steps of an assignment to names in force succeed, and store its values. -/
theorem assignAll_stores (block : Name) (hV : S.InForce E V) {g : Expr → Expr}
    {pairs : List (Name × Expr)} :
    ∀ {s : Progress}, S.Sound E V s.versions s.map → (∀ p ∈ pairs, p.1 ∈ V) →
      (∀ p ∈ pairs, ∀ y ∈ (g p.2).names, s.versions.Used E y) →
      ∃ es s', (assignAll block s (pairs.map fun p => (p.1, g p.2))).outcome = .ok (es, s') ∧
        Stores S E V g s pairs es s' := by
  induction pairs with
  | nil => exact fun hs _ _ => ⟨[], _, rfl, Stores.nil hs⟩
  | cons p pairs ih =>
    obtain ⟨x, e⟩ := p
    intro s hs htargets hreads
    have hx : x ∈ V := htargets _ List.mem_cons_self
    have hdeclared := hV.declared_of_mem hx
    have hcontains : s.versions.declarations.contains x = true := by
      obtain ⟨v, hv, -⟩ := S.find?_declared x hdeclared
      rw [NameMap.contains, hs.tracks.declarations x hdeclared, hv]
      rfl
    have htargets' : ∀ p ∈ pairs, p.1 ∈ V := fun p hp => htargets p (List.mem_cons_of_mem _ hp)
    have hreads' : ∀ p ∈ pairs, ∀ y ∈ (g p.2).names, s.versions.Used E y := fun p hp =>
      hreads p (List.mem_cons_of_mem _ hp)
    -- The two tests for errors are passed.
    rw [List.map_cons, assignAll, hcontains, hs.tracks.isIncarnation_eq_false hdeclared]
    simp only [Bool.not_true, Bool.false_eq_true, if_false]
    split_ifs with hatomic
    · -- A literal or a single name: no version is made.
      have hs₁ : S.Sound E V (s.stand x (g e)).versions (s.stand x (g e)).map :=
        hs.insert hx hatomic (hreads _ List.mem_cons_self)
      obtain ⟨es, s', hout, hstores⟩ := ih hs₁ htargets' hreads'
      exact ⟨es, s', hout, hstores.stand hatomic (hV.used x hx)⟩
    · -- Any other value is that of a new version.
      obtain ⟨n, s₁, hrenew, hcmds, hmap, hs₁, hnew, hused⟩ :=
        renew_eq_ok hV hs hx (.assignment block)
      obtain ⟨es, s', hout, hstores⟩ := ih hs₁ htargets' fun p hp y hy =>
        (hused y).2 (.inl (hreads' p hp y hy))
      refine ⟨.binary .eq (.symbol n) (g e) :: es, s', ?_,
        Stores.version hV hs hcmds hmap hnew hused (hV.used x hx) hreads hstores⟩
      simp only [Minting.outcome_bind]
      rw [hrenew]
      change (assignAll block s₁ _).outcome >>= _ = _
      rw [hout]
      rfl

/-! ## Arbitrary values -/

/-- The versions made for variables that get arbitrary values. -/
structure Renews (S : Scene I) (E V : List Name) (s : Progress) (xs : List Name) (s' : Progress) :
    Prop where
  /-- No passive command is added. -/
  cmds : s'.cmds = s.cmds
  /-- The map stays sound. -/
  sound : S.Sound E V s'.versions s'.map
  /-- Names in use stay in use. -/
  grows : ∀ x, s.versions.Used E x → s'.versions.Used E x
  /-- Whatever the values, an extension of the valuation represents them. -/
  run : ∀ ν τ Y, (∀ x, Y x → x ∈ E) → S.Represents s.map Y ν τ →
    ∃ ν', Agree (s.versions.Used E) ν ν' ∧ S.Represents s'.map (fun x => Y x ∨ x ∈ xs) ν' τ
  /-- A valuation gives the variables some values. -/
  back : ∀ ν σ Y, S.Represents s.map Y ν σ →
    ∃ τ, (∀ x, x ∉ xs → τ x = σ x) ∧ S.Represents s'.map (fun x => Y x ∨ x ∈ xs) ν τ

/-- Variables in force get versions. -/
theorem renewAll_renews (block : Name) (hV : S.InForce E V) {xs : List Name} :
    ∀ {s : Progress}, S.Sound E V s.versions s.map → (∀ x ∈ xs, x ∈ V) →
      ∃ s', (renewAll block s xs).outcome = .ok s' ∧ Renews S E V s xs s' := by
  induction xs with
  | nil =>
    intro s hs _
    refine ⟨s, rfl, rfl, hs, fun _ hx => hx, fun ν τ Y _ hrep => ?_, fun ν σ Y hrep => ?_⟩
    · exact ⟨ν, Agree.refl, hrep.mono fun x hx => by simpa using hx⟩
    · exact ⟨σ, fun _ _ => rfl, hrep.mono fun x hx => by simpa using hx⟩
  | cons x xs ih =>
    intro s hs hxs
    have hx : x ∈ V := hxs x List.mem_cons_self
    obtain ⟨n, s₁, hrenew, hcmds, hmap, hs₁, hnew, hused⟩ := renew_eq_ok hV hs hx (.havoc block)
    obtain ⟨s', hout, h⟩ := ih hs₁ fun y hy => hxs y (List.mem_cons_of_mem _ hy)
    have hgrows : ∀ y, s.versions.Used E y → s₁.versions.Used E y := fun y hy =>
      (hused y).2 (.inl hy)
    refine ⟨s', ?_, h.cmds.trans hcmds, h.sound, fun y hy => h.grows y (hgrows y hy),
      fun ν τ Y hY hrep => ?_, fun ν σ Y hrep => ?_⟩
    · rw [renewAll, hs.tracks.isIncarnation_eq_false (hV.declared_of_mem hx)]
      simp only [Bool.false_eq_true, if_false, Minting.outcome_bind]
      rw [hrenew]
      exact hout
    · -- The new version gets the value that the variable has.
      have hν₁ : Agree (s.versions.Used E) ν (Function.update ν n (τ x)) := agree_update hnew _
      have hn := value_symbol_update ν n (τ x)
      have hrep₁ : S.Represents s₁.map (fun y => Y y ∨ y = x) (Function.update ν n (τ x)) τ := by
        have hinsert := (hrep.of_agree hs hV.outer hY hν₁).insert (x := x) hn
        rw [Function.update_eq_self, ← hmap] at hinsert
        exact hinsert
      obtain ⟨ν', hν', hrep'⟩ := h.run _ τ (fun y => Y y ∨ y = x)
        (fun y hy => hy.elim (hY y) fun heq => heq ▸ hV.used x hx) hrep₁
      exact ⟨ν', hν₁.trans hν' hgrows, hrep'.of_cons⟩
    · -- The variable gets the value that the valuation gives the new version.
      have hrep₁ : S.Represents s₁.map (fun y => Y y ∨ y = x) ν (Function.update σ x (ν n)) := by
        rw [hmap]
        exact hrep.insert rfl
      obtain ⟨τ, hsame, hrep'⟩ := h.back ν _ _ hrep₁
      refine ⟨τ, fun y hy => ?_, hrep'.of_cons⟩
      rw [List.mem_cons, not_or] at hy
      rw [hsame y hy.2, Function.update_of_ne hy.1]

/-- The conditions on several variables are assumed one after another. -/
theorem foldl_assumeWhere {α : Type} (frame : NameMap Expr) (f : Versions → α → Option Expr)
    (as : List α) (s : Progress) :
    as.foldl (fun s a => s.assumeWhere frame (f s.versions a)) s =
      { s with cmds := s.cmds ++ as.filterMap fun a =>
        (f s.versions a).map fun w => .assume (standIn frame s.map w) } := by
  induction as generalizing s with
  | nil => simp
  | cons a as ih =>
    rw [List.foldl_cons, ih, List.filterMap_cons]
    cases h : f s.versions a with
    | none => simp [Progress.assumeWhere]
    | some w => simp [Progress.assumeWhere, Progress.emit]

end Obligations.Passive
