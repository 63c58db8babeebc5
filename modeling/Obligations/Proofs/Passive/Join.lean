import Obligations.Proofs.Implementation.Outline
import Obligations.Proofs.Passive.Assignment

/-!
# Joins

Where the predecessors of a block disagree about a variable, the variable gets a version, and each
predecessor assumes that the version equals what stands for the variable there. These assumptions
simulate no commands at all (`Passive.Reconciles`): at the end of each predecessor the valuation
extends to the versions, and what stands for the live variables at the start of the block then has
their values (`Passive.startMap_reconciles`).
-/

namespace Obligations.Passive

variable {I : Interpretation} {S : Scene I} {E V : List Name} {incoming : List Incoming}
  {map map' map'' : NameMap Expr} {s s' s'' : Advance} {G G' G'' : Name → Prop}

/-- What is known at the end of the predecessors of a block. -/
structure Scene.Meets (S : Scene I) (E V : List Name) (incoming : List Incoming) (s : Advance) :
    Prop where
  /-- The names in force are in use. -/
  inForce : S.InForce E V
  /-- The versions are those of declared names. -/
  tracks : S.Tracks s.versions
  /-- The maps of the predecessors are sound. -/
  sound : ∀ q ∈ incoming, S.Sound E V s.versions q.2
  /-- Each predecessor has one map. -/
  functional : ∀ q ∈ incoming, ∀ q' ∈ incoming, q'.1 = q.1 → q' = q
  /-- The predecessors exist. -/
  lt_length : ∀ q ∈ incoming, q.1 < s.body.blocks.length

/-- Assumptions at the end of the predecessors extend the valuation to the versions that stand for
some variables, so that these are represented at the start of the block. -/
structure Reconciles (S : Scene I) (E V : List Name) (incoming : List Incoming)
    (G : Name → Prop) (map : NameMap Expr) (s : Advance)
    (G' : Name → Prop) (map' : NameMap Expr) (s' : Advance) : Prop where
  /-- The map stays sound. -/
  sound : S.Sound E V s'.versions map'
  /-- Names in use stay in use. -/
  grows : ∀ x, s.versions.Used E x → s'.versions.Used E x
  /-- The maps at the end of the blocks stay as they are. -/
  exitMaps : s'.exitMaps = s.exitMaps
  /-- The body changes in its commands only. -/
  outline : s'.body.outline = s.body.outline
  /-- Only predecessors get assumptions. -/
  other : ∀ p, p ∉ incoming.map (·.1) → s'.body.cmdsAt p = s.body.cmdsAt p
  /-- The assumptions of a predecessor simulate no commands. -/
  simulates : ∀ q ∈ incoming, ∃ ds, s'.body.cmdsAt q.1 = s.body.cmdsAt q.1 ++ ds ∧
    ∀ X : Name → Prop, (∀ x, X x → x ∈ E) →
      Simulates S (s.versions.Used E)
        (fun ν σ => S.Represents q.2 X ν σ ∧ S.Represents map (fun x => X x ∧ G x) ν σ) [] ds
        (s'.versions.Used E)
        (fun ν σ => S.Represents q.2 X ν σ ∧ S.Represents map' (fun x => X x ∧ G' x) ν σ)

namespace Reconciles

/-- No assumptions are needed for variables that are represented already. -/
theorem keep (hs : S.Sound E V s.versions map')
    (h : ∀ q ∈ incoming, ∀ (X : Name → Prop) ν σ, S.Represents q.2 X ν σ →
      S.Represents map (fun x => X x ∧ G x) ν σ → S.Represents map' (fun x => X x ∧ G' x) ν σ) :
    Reconciles S E V incoming G map s G' map' s where
  sound := hs
  grows _ hx := hx
  exitMaps := rfl
  outline := rfl
  other _ _ := rfl
  simulates q hq := ⟨[], (List.append_nil _).symm, fun X _ =>
    Simulates.nil (fun _ hx => hx) fun ν σ hrep => ⟨hrep.1, h q hq X ν σ hrep.1 hrep.2⟩⟩

/-- Some variables after others. -/
theorem trans (h : Reconciles S E V incoming G map s G' map' s')
    (h' : Reconciles S E V incoming G' map' s' G'' map'' s'') :
    Reconciles S E V incoming G map s G'' map'' s'' where
  sound := h'.sound
  grows x hx := h'.grows x (h.grows x hx)
  exitMaps := h'.exitMaps.trans h.exitMaps
  outline := h'.outline.trans h.outline
  other p hp := (h'.other p hp).trans (h.other p hp)
  simulates q hq := by
    obtain ⟨ds, hds, hsim⟩ := h.simulates q hq
    obtain ⟨es, hes, hsim'⟩ := h'.simulates q hq
    refine ⟨ds ++ es, ?_, fun X hX => (hsim X hX).append (hsim' X hX)⟩
    rw [hes, hds, List.append_assoc]

/-- What is known at the end of the predecessors stays known. -/
theorem meets (h : Reconciles S E V incoming G map s G' map' s') (hin : S.Meets E V incoming s) :
    S.Meets E V incoming s' where
  inForce := hin.inForce
  tracks := h.sound.tracks
  sound q hq := (hin.sound q hq).mono h.sound.tracks h.grows fun _ hx => hx
  functional := hin.functional
  lt_length q hq := by
    rw [Implementation.length_of_outline_eq h.outline]
    exact hin.lt_length q hq

end Reconciles

/-! ## One variable -/

/-- The assumptions of a block about the version of a variable, one for each time that it comes
among the predecessors. -/
def equalities (incoming : List Incoming) (n x : Name) (p : Nat) : List Cmd :=
  (incoming.filter (·.1 = p)).map fun q => .assume (.binary .eq (.symbol n) (standsFor q.2 x))

/-- The assumptions of predecessors about the version of a variable are put at their ends. -/
theorem foldl_pushCmd (n x : Name) : ∀ (incoming : List Incoming) (i : Implementation),
    (∀ q ∈ incoming, q.1 < i.blocks.length) →
    (incoming.foldl (fun i q =>
      i.pushCmd q.1 (.assume (.binary .eq (.symbol n) (standsFor q.2 x)))) i).outline = i.outline ∧
    ∀ p, (incoming.foldl (fun i q =>
      i.pushCmd q.1 (.assume (.binary .eq (.symbol n) (standsFor q.2 x)))) i).cmdsAt p =
        i.cmdsAt p ++ equalities incoming n x p
  | [], i, _ => ⟨rfl, fun p => (List.append_nil _).symm⟩
  | q :: incoming, i, hlt => by
    let d : Cmd := .assume (.binary .eq (.symbol n) (standsFor q.2 x))
    have houtline : (i.pushCmd q.1 d).outline = i.outline :=
      i.outline_modifyBlock q.1 fun cs => cs ++ [d]
    have hcmds : ∀ p, (i.pushCmd q.1 d).cmdsAt p =
        if p = q.1 then i.cmdsAt p ++ [d] else i.cmdsAt p :=
      Implementation.cmdsAt_modifyBlock (hlt q List.mem_cons_self) fun cs => cs ++ [d]
    obtain ⟨houtline', hcmds'⟩ := foldl_pushCmd n x incoming (i.pushCmd q.1 d) fun q' hq' => by
      rw [Implementation.length_of_outline_eq houtline]
      exact hlt q' (List.mem_cons_of_mem _ hq')
    refine ⟨houtline'.trans houtline, fun p => (hcmds' p).trans ?_⟩
    rw [hcmds]
    unfold equalities
    rw [List.filter_cons]
    -- The assumption of this predecessor comes before those of the others.
    by_cases hp : p = q.1
    · simp [hp, d]
    · have hne : q.1 ≠ p := fun h => hp h.symm
      simp [hp, hne]

/-- Nothing but the blocks is changed. -/
theorem exists_foldl_pushCmd (incoming : List Incoming) (f : Incoming → Cmd)
    (i : Implementation) :
    ∃ blocks, incoming.foldl (fun i q => i.pushCmd q.1 (f q)) i = { i with blocks } := by
  refine List.foldlRecOn (motive := fun j : Implementation => ∃ blocks, j = { i with blocks }) _ _
    ⟨i.blocks, rfl⟩ ?_
  rintro _ ⟨blocks, rfl⟩ q -
  exact ⟨_, rfl⟩

/-- A block that is no predecessor assumes nothing. -/
theorem equalities_eq_nil {n x : Name} {p : Nat} (hp : p ∉ incoming.map (·.1)) :
    equalities incoming n x p = [] := by
  unfold equalities
  rw [List.map_eq_nil_iff, List.filter_eq_nil_iff]
  intro q hq heq
  exact hp (List.mem_map.2 ⟨q, hq, of_decide_eq_true heq⟩)

/-- The predecessors assume the equalities exactly if what stands for the variable has the value of
the version. -/
theorem passes_equalities {ν : I.State} {n x : Name} {p : Nat} :
    Passes ν (equalities incoming n x p) ↔ ∀ q ∈ incoming, q.1 = p →
      ∃ a, I.value ν.passive (.symbol n) = some a ∧
        I.value ν.passive (standsFor q.2 x) = some a := by
  unfold equalities
  rw [passes_map_assume]
  simp only [List.mem_filter, decide_eq_true_eq, Interpretation.holds_eq_iff, and_imp]

/-- A version with the value that a variable has where it is in question comes to stand for it. -/
theorem Scene.Represents.insert_version {m : NameMap Expr} {X : Name → Prop} {ν σ : I.State}
    {n x : Name} (hm : S.Represents m X ν σ) (h : S.Represents map (fun y => X y ∧ G y) ν σ)
    (hn : X x → I.value ν.passive (.symbol n) = some (σ x)) :
    S.Represents (map.insert x (.symbol n)) (fun y => X y ∧ (G y ∨ y = x)) ν σ := by
  refine ⟨hm.starts, fun y hy => ?_⟩
  rw [standsFor_insert]
  split_ifs with hyx
  · subst hyx
    exact hn hy.1
  · exact h.stands y ⟨hy.1, hy.2.resolve_right hyx⟩

/-- The assumptions of a predecessor about a new version simulate no commands, and let the version
stand for the variable. -/
theorem equalities_simulates (hin : S.Meets E V incoming s) (hmap : S.Sound E V s.versions map)
    {n x : Name} {versions : Versions} (hx : x ∈ E) (hnew : ¬ s.versions.Used E n)
    (hused : ∀ y, versions.Used E y ↔ s.versions.Used E y ∨ y = n) {q : Incoming}
    (hq : q ∈ incoming) {X : Name → Prop} (hX : ∀ x, X x → x ∈ E) :
    Simulates S (s.versions.Used E)
      (fun ν σ => S.Represents q.2 X ν σ ∧ S.Represents map (fun x => X x ∧ G x) ν σ) []
      (equalities incoming n x q.1) (versions.Used E)
      (fun ν σ => S.Represents q.2 X ν σ ∧
        S.Represents (map.insert x (.symbol n)) (fun y => X y ∧ (G y ∨ y = x)) ν σ) := by
  refine Simulates.of_runs (fun y hy => (hused y).2 (.inl hy))
    (readsOnly_map_assume fun q' hq' y hy => ?_) rfl Cmd.assertionsAll_map_assume ?_ ?_
  · rw [Expr.mem_names_binary, Expr.mem_names_symbol] at hy
    refine (hused y).2 (hy.symm.imp_left fun hy => ?_)
    exact (hin.sound q' (List.mem_filter.mp hq').1).used_standsFor hx y hy
  · -- The version gets the value that what stands for the variable at the predecessor has.
    rintro c hc ν σ τ ⟨hrep, hrep'⟩ rfl
    obtain ⟨a, ha⟩ := (hin.sound q hq).exists_value ν x
    have hν : Agree (s.versions.Used E) ν (Function.update ν n a) := agree_update hnew a
    have hn := value_symbol_update ν n a
    have ha' : I.value (Interpretation.State.passive (Function.update ν n a)) (standsFor q.2 x) =
        some a := (value_passive_congr hν ((hin.sound q hq).used_standsFor hx)).trans ha
    have hrep := hrep.of_agree (hin.sound q hq) hin.inForce.outer hX hν
    have hrep' := hrep'.of_agree hmap hin.inForce.outer (fun y hy => hX y hy.1) hν
    refine ⟨_, hν, passes_equalities.2 fun q' hq' hp => ?_, hrep,
      hrep.insert_version hrep' fun hXx => ?_⟩
    · rw [hin.functional q hq q' hq' hp]
      exact ⟨a, hn, ha'⟩
    · rw [hn, ← ha']
      exact hrep.stands x hXx
  · rintro c hc ν σ ⟨hrep, hrep'⟩ hpass
    -- The assumption says what the version is equal to.
    refine ⟨σ, rfl, hrep, hrep.insert_version hrep' fun hXx => ?_⟩
    obtain ⟨a, hn, ha⟩ := passes_equalities.1 hpass q hq rfl
    rw [hn, ← ha]
    exact hrep.stands x hXx

/-- The predecessors of a block can be reconciled in a variable in force. -/
theorem reconcile_reconciles (hin : S.Meets E V incoming s) (hmap : S.Sound E V s.versions map)
    {x : Name} (hx : x ∈ V) (label : Name) :
    ∃ n s', (reconcile label incoming x s).outcome = .ok (n, s') ∧
      Reconciles S E V incoming G map s (fun y => G y ∨ y = x) (map.insert x (.symbol n)) s' := by
  obtain ⟨n, versions, hnext, htracks, hnew, hused⟩ :=
    hin.tracks.next (hin.inForce.declared_of_mem hx) (.join label)
  have hgrows : ∀ y, s.versions.Used E y → versions.Used E y := fun y hy =>
    (hused E y).2 (.inl hy)
  obtain ⟨houtline, hcmds⟩ := foldl_pushCmd n x incoming s.body hin.lt_length
  have hsymbol : ∀ y ∈ (Expr.symbol n).names, versions.Used E y := fun y hy =>
    (hused E y).2 (.inr (Expr.mem_names_symbol.1 hy))
  -- The equalities are added to the predecessors, and the exit maps stay.
  let s' : Advance := ⟨incoming.foldl (fun i q =>
    i.pushCmd q.1 (.assume (.binary .eq (.symbol n) (standsFor q.2 x)))) s.body, versions,
    s.exitMaps⟩
  have hsound : S.Sound E V s'.versions (map.insert x (.symbol n)) :=
    (hmap.mono htracks hgrows fun _ hy => hy).insert hx rfl hsymbol
  refine ⟨n, s', ?_, hsound, hgrows, rfl, houtline, fun p hp => ?_, fun q hq => ?_⟩
  · unfold reconcile
    rw [Minting.outcome_bind, hnext]
    rfl
  · refine (hcmds p).trans ?_
    rw [equalities_eq_nil hp, List.append_nil]
  · exact ⟨equalities incoming n x q.1, hcmds q.1, fun X hX => equalities_simulates hin hmap
      (hin.inForce.used x hx) (hnew E hin.inForce.declared) (hused E) hq hX⟩

/-! ## All variables -/

/-- The predecessors of a block can be reconciled in all live ones of several variables in force. -/
theorem reconcileAll_reconciles (isLive : Name → Bool) (label : Name) (xs : List Name) :
    ∀ {map : NameMap Expr} {s : Advance} {G : Name → Prop}, S.Meets E V incoming s →
      S.Sound E V s.versions map → (∀ x ∈ xs, x ∈ V) →
      ∃ map' s', (reconcileAll isLive label incoming xs map s).outcome = .ok (map', s') ∧
        Reconciles S E V incoming G map s (fun x => G x ∨ x ∈ xs ∧ isLive x = true) map' s' := by
  induction xs with
  | nil =>
    intro map s G _ hmap _
    refine ⟨map, s, rfl, .keep hmap fun q _ X ν σ _ hrep => hrep.mono fun x hx => ?_⟩
    simpa using hx
  | cons x xs ih =>
    intro map s G hin hmap hxs
    have hxs' : ∀ y ∈ xs, y ∈ V := fun y hy => hxs y (List.mem_cons_of_mem _ hy)
    rw [reconcileAll]
    split_ifs with hlive
    · -- A live variable gets a version.
      obtain ⟨n, s₁, hout, h⟩ :=
        reconcile_reconciles (G := G) hin hmap (hxs x List.mem_cons_self) label
      obtain ⟨map', s', hout', h'⟩ := ih (G := fun y => G y ∨ y = x) (h.meets hin) h.sound hxs'
      refine ⟨map', s', ?_, (h.trans h').trans (.keep h'.sound ?_)⟩
      · rw [Minting.outcome_bind, hout]
        exact hout'
      · refine fun q _ X ν σ _ hrep => hrep.mono fun y hy => ⟨hy.1, ?_⟩
        rcases hy.2 with hG | ⟨hmem, hlive'⟩
        · exact .inl (.inl hG)
        · rcases List.mem_cons.mp hmem with heq | hmem
          · exact .inl (.inr heq)
          · exact .inr ⟨hmem, hlive'⟩
    · -- A variable that is not live is skipped.
      obtain ⟨map', s', hout', h'⟩ := ih (G := G) hin hmap hxs'
      refine ⟨map', s', hout', h'.trans (.keep h'.sound ?_)⟩
      refine fun q _ X ν σ _ hrep => hrep.mono fun y hy => ⟨hy.1, hy.2.imp_right fun hmem => ?_⟩
      rcases List.mem_cons.mp hmem.1 with heq | hmem'
      · exact absurd (heq ▸ hmem.2) hlive
      · exact ⟨hmem', hmem.2⟩

/-- What predecessors agree on for a variable stands for it at each of them. -/
theorem find?_of_agreed? {x : Name} {e : Expr} (h : agreed? incoming x = some e) :
    ∀ q ∈ incoming, q.2.find? x = some e := by
  cases incoming with
  | nil => cases h
  | cons q rest =>
    unfold agreed? at h
    cases hq : q.2.find? x with
    | none => simp [hq] at h
    | some e' =>
      simp only [hq] at h
      split_ifs at h with hall
      cases h
      intro q' hq'
      rcases List.mem_cons.mp hq' with rfl | hq'
      · exact hq
      · simpa using List.all_eq_true.mp hall q' hq'

/-- Predecessors that have the same map agree on everything. -/
theorem agreed?_of_forall {x : Name} {e : Expr} {q : Incoming} (hq : q ∈ incoming)
    (h : ∀ q ∈ incoming, q.2.find? x = some e) : agreed? incoming x = some e := by
  cases incoming with
  | nil => cases hq
  | cons q' rest =>
    have hq' : q'.2.find? x = some e := h q' List.mem_cons_self
    simp only [agreed?, hq']
    refine if_pos (List.all_eq_true.mpr fun q'' hq'' => ?_)
    rw [decide_eq_true_eq]
    exact h q'' (List.mem_cons_of_mem _ hq'')

/-- Whether a variable gets a version at a block where its predecessors disagree about it. -/
def Setting.isLive (c : Setting) (id : Nat) (x : Name) : Bool :=
  (c.liveness.map fun t => decide (x ∈ t.at id)).getD true

/-- The variables for which something stands at a predecessor. For any other a variable stands for
itself at all of them. -/
def mentioned (l : Lexicon) (incoming : List Incoming) : List Name :=
  l.sortedSet (incoming.flatMap fun q => q.2.keys)

/-- What all predecessors agree on. -/
def kept (l : Lexicon) (incoming : List Incoming) : NameMap Expr :=
  .ofList ((mentioned l incoming).filterMap fun x => (agreed? incoming x).map fun e => (x, e))

/-- The variables about which predecessors disagree. -/
def disputed (l : Lexicon) (incoming : List Incoming) : List Name :=
  (mentioned l incoming).filter fun x => (agreed? incoming x).isNone

theorem mem_mentioned {l : Lexicon} {x : Name} :
    x ∈ mentioned l incoming ↔ ∃ q ∈ incoming, ∃ e, q.2.find? x = some e := by
  unfold mentioned
  rw [Lexicon.mem_sortedSet, List.mem_flatMap]
  simp only [NameMap.mem_keys]

theorem mem_disputed {l : Lexicon} {x : Name} :
    x ∈ disputed l incoming ↔ x ∈ mentioned l incoming ∧ agreed? incoming x = none := by
  unfold disputed
  rw [List.mem_filter, Option.isNone_iff_eq_none]

theorem find?_kept (l : Lexicon) (incoming : List Incoming) (x : Name) :
    (kept l incoming).find? x = if x ∈ mentioned l incoming then agreed? incoming x else none :=
  NameMap.find?_ofList_filterMap

/-- What is kept for a variable stands for it at some predecessor. -/
theorem exists_of_find?_kept {l : Lexicon} {x : Name} {e : Expr}
    (h : (kept l incoming).find? x = some e) : ∃ q ∈ incoming, q.2.find? x = some e := by
  rw [find?_kept] at h
  split_ifs at h with hx
  obtain ⟨q, hq, -⟩ := mem_mentioned.1 hx
  exact ⟨q, hq, find?_of_agreed? h q hq⟩

/-- Where predecessors do not disagree, what is kept stands for the variable at each of them. -/
theorem find?_kept_of_not_mem_disputed {l : Lexicon} {x : Name} (hx : x ∉ disputed l incoming)
    {q : Incoming} (hq : q ∈ incoming) : (kept l incoming).find? x = q.2.find? x := by
  rw [find?_kept]
  split_ifs with hmem
  · cases he : agreed? incoming x with
    | none => exact absurd (mem_disputed.2 ⟨hmem, he⟩) hx
    | some e => exact (find?_of_agreed? he q hq).symm
  · symm
    rw [Option.eq_none_iff_forall_ne_some]
    exact fun e he => hmem (mem_mentioned.2 ⟨q, hq, e, he⟩)

/-- A single predecessor is in no dispute. -/
theorem disputed_eq_nil {l : Lexicon} (h : ∀ q ∈ incoming, ∀ q' ∈ incoming, q' = q) :
    disputed l incoming = [] := by
  rw [List.eq_nil_iff_forall_not_mem]
  intro x hx
  obtain ⟨hx, hnone⟩ := mem_disputed.1 hx
  obtain ⟨q, hq, e, he⟩ := mem_mentioned.1 hx
  have hagree : agreed? incoming x = some e := agreed?_of_forall hq fun q' hq' => by
    rw [h q hq q' hq']
    exact he
  rw [hagree] at hnone
  cases hnone

/-- What is kept needs no assumptions. -/
theorem kept_reconciles (hin : S.Meets E V incoming s) (l : Lexicon) :
    Reconciles S E V incoming (fun _ => False) .empty s (fun x => x ∉ disputed l incoming)
      (kept l incoming) s := by
  refine .keep ⟨hin.tracks, fun x e he => ?_, fun x e he => ?_, fun x e he => ?_⟩
    fun q hq X ν σ hrep _ => ⟨hrep.starts, fun x hx => ?_⟩
  · obtain ⟨q, hq, he⟩ := exists_of_find?_kept he
    exact (hin.sound q hq).keys x e he
  · obtain ⟨q, hq, he⟩ := exists_of_find?_kept he
    exact (hin.sound q hq).atomic x e he
  · obtain ⟨q, hq, he⟩ := exists_of_find?_kept he
    exact (hin.sound q hq).used x e he
  · rw [standsFor, find?_kept_of_not_mem_disputed hx.2 hq]
    exact hrep.stands x hx.1

/-- What stands for variables at the start of a block: what the predecessors agree on, and versions
for the variables about which they disagree. -/
theorem startMap_eq (c : Setting) (id : Nat) (label : Name) (incoming : List Incoming)
    (s : Advance) :
    startMap c id label incoming s = reconcileAll (c.isLive id) label incoming
      (disputed c.lexicon incoming) (kept c.lexicon incoming) s := rfl

/-- The predecessors of a block can be reconciled, so that what stands for the live variables at its
start has their values. A single predecessor needs no assumptions, and without predecessors nothing
stands for a variable but itself. -/
theorem startMap_reconciles (c : Setting) (id : Nat) (label : Name) (hin : S.Meets E V incoming s) :
    ∃ map s', (startMap c id label incoming s).outcome = .ok (map, s') ∧
      Reconciles S E V incoming (fun _ => False) .empty s (fun x => c.isLive id x = true) map s' ∧
      ((∀ q ∈ incoming, ∀ q' ∈ incoming, q' = q) → s' = s) ∧ (incoming = [] → map = .empty) := by
  -- What all predecessors agree on is kept. The others are variables of an exit map, and so are in
  -- force.
  have hkeep := kept_reconciles hin c.lexicon
  have hV : ∀ x ∈ disputed c.lexicon incoming, x ∈ V := by
    intro x hx
    obtain ⟨q, hq, e, he⟩ := mem_mentioned.1 (mem_disputed.1 hx).1
    exact (hin.sound q hq).keys x e he
  obtain ⟨map, s', hout, h⟩ := reconcileAll_reconciles (c.isLive id) label
    (disputed c.lexicon incoming) (G := fun x => x ∉ disputed c.lexicon incoming) hin hkeep.sound hV
  rw [startMap_eq]
  refine ⟨map, s', hout, (hkeep.trans h).trans (.keep h.sound ?_), fun hsingle => ?_,
    fun hempty => ?_⟩
  · refine fun q _ X ν σ _ hrep => hrep.mono fun x hx => ⟨hx.1, ?_⟩
    by_cases hmem : x ∈ disputed c.lexicon incoming
    · exact .inr ⟨hmem, hx.2⟩
    · exact .inl hmem
  · rw [disputed_eq_nil hsingle] at hout
    cases hout
    rfl
  · have hnil : mentioned c.lexicon incoming = [] := by
      rw [List.eq_nil_iff_forall_not_mem]
      intro x hx
      obtain ⟨q, hq, -⟩ := mem_mentioned.1 hx
      rw [hempty] at hq
      cases hq
    simp only [disputed, kept, hnil] at hout
    cases hout
    rfl

end Obligations.Passive
