import Mathlib.Data.List.Nodup
import Obligations.Proofs.Outcome
import Obligations.Proofs.Passive.Scope
import Obligations.Proofs.Vocabulary.Basic

/-!
# Where versions get their values

The commands of a block become steps (`Passive.stepsOf`): passive commands, and the places at which
versions get arbitrary values, for which there is no passive command. A version gets its value from
the equality of an assignment or of a join, or arbitrarily; the step at which it does defines it.
Steps define what they read before they read it (`Passive.DefinesFirst`) if names of versions come
into a body by passification only: `Passive.passifyCmds_leads` says so of the steps of a block, and
that they define exactly the versions that are made.
-/

namespace Obligations

/-! ## Steps -/

namespace Passive

/-- A step of a passive body. -/
inductive Step where
  /-- An assertion or an assumption of the body, or the condition on a variable. -/
  | passive (c : Cmd)
  /-- The assumption of equalities, each for the name on its left side. -/
  | equate (es : List Expr)
  /-- A version gets an arbitrary value. -/
  | choose (n : Name)

/-- The name on the left side of an equality. -/
def leftSide? : Expr → Option Name
  | .binary .eq (.symbol n) _ => some n
  | _ => none

namespace Step

/-- The passive command, if there is one. -/
def cmds : Step → List Cmd
  | passive c => [c]
  | equate es => [.assume (.conjAll es)]
  | choose _ => []

/-- The names that get their values. -/
def defines : Step → List Name
  | passive _ => []
  | equate es => es.filterMap leftSide?
  | choose n => [n]

/-- The names that are read, on either side of an equality. -/
def reads (t : Step) : List Name := t.cmds.flatMap fun c => (c.condition?.map Expr.names).getD []

end Step

/-- The versions made between two points. -/
def minted (s s' : Versions) : List Name := (s'.made.map (·.name)).drop s.made.length

/-- The step that assumes some equalities, none if there are no equalities. -/
def equateAll (es : List Expr) : List Step := if es.isEmpty then [] else [.equate es]

/- The steps that a command and several commands become. -/
mutual

/-- The steps that a command becomes. -/
def stepsOf (frame : NameMap Expr) (block : Name) : Cmd → Progress → List Step
  | .assert a, s =>
    [.passive (.assert ⟨standIn frame s.map a.condition, a.kind, some a.condition, some s.map⟩)]
  | .assume e, s => (assumptions frame s.map [e]).map .passive
  | .assign pairs, s =>
    match (assignAll block s (pairs.map fun p => (p.1, standIn frame s.map p.2))).outcome with
    | .ok (es, _) => equateAll es
    | .error _ => []
  | .havoc vars, s =>
    match (renewAll block s vars).outcome with
    | .ok s' => (minted s.versions s'.versions).map .choose ++
      (assumptions frame s'.map (vars.filterMap s'.versions.whereClause?)).map .passive
    | .error _ => []
  | .call _ _ _, _ => []
  | .comment _, _ => []
  | .scope locals cmds, s =>
    let s := { s with versions := s.versions.declare locals }
    (opening frame s.map locals).map .passive ++
      stepsOfAll frame block cmds { s with cmds := s.cmds ++ opening frame s.map locals }

/-- The steps that several commands become. -/
def stepsOfAll (frame : NameMap Expr) (block : Name) : List Cmd → Progress → List Step
  | [], _ => []
  | c :: cs, s =>
    match (passifyCmd frame block c s).outcome with
    | .ok s' => stepsOf frame block c s ++ stepsOfAll frame block cs s'
    | .error _ => []

end

/-- Every name that a step reads is given, or it is defined by that step or by one before it. -/
def DefinesFirst (G : Name → Prop) (ts : List Step) : Prop :=
  ∀ before t after, ts = before ++ t :: after →
    ∀ n ∈ t.reads, G n ∨ n ∈ (before ++ [t]).flatMap Step.defines

/-- The names that are given or defined by some steps. -/
def Given (G : Name → Prop) (ts : List Step) (n : Name) : Prop := G n ∨ n ∈ ts.flatMap Step.defines

variable {G G' : Name → Prop} {ts us : List Step} {n x : Name}

@[simp] theorem given_nil : Given G [] n ↔ G n := by simp [Given]

theorem given_append : Given G (ts ++ us) n ↔ Given (Given G ts) us n := by
  unfold Given
  rw [List.flatMap_append, List.mem_append, or_assoc]

theorem DefinesFirst.of_forall (h : ∀ t ∈ ts, ∀ n ∈ t.reads, G n ∨ n ∈ t.defines) :
    DefinesFirst G ts := by
  rintro before t after rfl n hn
  rw [List.flatMap_append, List.mem_append, List.flatMap_singleton]
  exact (h t (by simp) n hn).imp_right .inr

theorem DefinesFirst.mono (h : DefinesFirst G ts) (hG : ∀ n, G n → G' n) : DefinesFirst G' ts :=
  fun before t after hsplit n hn => (h before t after hsplit n hn).imp_left (hG n)

/-- Steps after others read what is given at first, what the others define and what they define
themselves. -/
theorem DefinesFirst.append (h : DefinesFirst G ts) (h' : DefinesFirst (Given G ts) us) :
    DefinesFirst G (ts ++ us) := by
  intro before t after hsplit n hn
  rcases List.append_eq_append_iff.1 hsplit with ⟨as, rfl, hus⟩ | ⟨as, rfl, hafter⟩
  · rw [List.append_assoc]
    exact given_append.2 (h' as t after hus n hn)
  · cases as with
    | nil =>
      rw [List.append_nil] at h'
      exact given_append.2 (h' [] t after hafter.symm n hn)
    | cons a as =>
      obtain ⟨rfl, -⟩ := List.cons.inj hafter
      exact h before t as rfl n hn

/-! ## Names that stand for variables -/

end Passive

/-- The map gives something for base names only, and what it gives reads names of a set only. -/
def NameMap.Over (G : Name → Prop) (m : NameMap Expr) : Prop :=
  ∀ x e, m.find? x = some e → x.Versionless ∧ ∀ n ∈ e.names, G n

namespace NameMap.Over

variable {G G' : Name → Prop} {m : NameMap Expr} {x : Name} {e : Expr}

theorem mono (h : m.Over G) (hG : ∀ n, G n → G' n) : m.Over G' := fun x e he =>
  ⟨(h x e he).1, fun n hn => hG n ((h x e he).2 n hn)⟩

theorem insert (h : m.Over G) (hx : x.Versionless) (he : ∀ n ∈ e.names, G n) :
    (m.insert x e).Over G := by
  intro y a ha
  rw [NameMap.find?_insert] at ha
  split_ifs at ha with hy
  · cases ha
    exact ⟨hy ▸ hx, he⟩
  · exact h y a ha

theorem eraseAll (h : m.Over G) (locals : List Variable) :
    (locals.foldl (fun m v => m.erase v.name) m).Over G := by
  intro x e he
  rw [NameMap.find?_eraseAll] at he
  split_ifs at he
  exact h x e he

/-- What stands for a base name reads names of the set. -/
theorem standsFor (h : m.Over G) (hG : ∀ n : Name, n.Versionless → G n) (hx : x.Versionless) :
    ∀ n ∈ (Passive.standsFor m x).names, G n := by
  unfold Passive.standsFor
  cases he : m.find? x with
  | none =>
    intro n hn
    rw [Expr.mem_names_symbol.1 hn]
    exact hG x hx
  | some e => exact (h x e he).2

/-- So does an expression over base names with what stands for them in their place. -/
theorem standIn {frame : NameMap Expr} (hframe : frame.Over Name.Versionless) (h : m.Over G)
    (hG : ∀ n : Name, n.Versionless → G n) (he : ∀ n ∈ e.names, n.Versionless) :
    ∀ n ∈ (Obligations.standIn frame m e).names, G n := by
  refine Expr.forall_names_substAt (fun n hn => hG n (he n hn)) fun t x a ha => ?_
  cases t with
  | current => exact (h x a ha).2
  | entry =>
    rcases Option.or_eq_some_iff.1 ha with ha | ⟨-, ha⟩
    · exact fun n hn => hG n ((hframe x a ha).2 n hn)
    · exact (h x a ha).2

end NameMap.Over

/-! ## Versions made so far -/

/-- The versions made so far are numbered, so that no two have one name, and nothing else in force
is a version or reads one. -/
structure Versions.Numbered (s : Versions) : Prop where
  /-- A version made has a number below the count of its variable. -/
  made : ∀ v ∈ s.made, ∃ x n, n < (s.counts.find? x).getD 0 ∧ v.name = x.incarnation n
  /-- No version is made twice. -/
  nodup : (s.made.map (·.name)).Nodup
  /-- Every version with an origin has been made. -/
  origins : ∀ x ∈ s.origins.keys, x ∈ s.made.map (·.name)
  /-- What is declared as a version has the name of one. -/
  isIncarnation : ∀ x, s.isIncarnation x = true → ¬ x.Versionless
  /-- The conditions on variables read no versions. -/
  whereClause : ∀ x w, s.whereClause? x = some w → ∀ n ∈ w.names, n.Versionless

namespace Versions.Numbered

variable {s s' : Versions} {x n : Name} {o : Origin}

theorem versionless_incarnation {k : Nat} : ¬ (x.incarnation k).Versionless := fun h => h x k rfl

/-- The next version of a variable has a new name. -/
theorem next (h : s.Numbered) (hnext : (s.next x o).outcome = .ok (n, s')) :
    s'.Numbered ∧ s'.made.map (·.name) = s.made.map (·.name) ++ [n] := by
  cases hd : s.declarations.find? x with
  | none =>
    rw [Versions.next, hd] at hnext
    cases hnext
  | some d =>
    rw [next_eq_ok hd] at hnext
    cases hnext
    have hmade : ((s.grow x d.ty o).made.map (·.name)) =
        s.made.map (·.name) ++ [x.incarnation ((s.counts.find? x).getD 0)] := List.map_append
    refine ⟨⟨fun v hv => ?_, ?_, fun y hy => ?_, fun y hy => ?_, fun y w hw => ?_⟩, hmade⟩
    · rcases List.mem_append.1 hv with hv | hv
      · obtain ⟨z, k, hk, hz⟩ := h.made v hv
        refine ⟨z, k, ?_, hz⟩
        rw [count_grow]
        split_ifs with heq
        · exact Nat.lt_succ_of_lt (heq ▸ hk)
        · exact hk
      · rw [List.mem_singleton.1 hv]
        refine ⟨x, _, ?_, rfl⟩
        rw [count_grow, if_pos rfl]
        exact Nat.lt_succ_self _
    · rw [hmade, List.nodup_append]
      refine ⟨h.nodup, List.nodup_singleton _, fun a ha b hb heq => ?_⟩
      -- A version with the new name would have a number below the count.
      obtain ⟨v, hv, rfl⟩ := List.mem_map.1 ha
      obtain ⟨z, k, hk, hz⟩ := h.made v hv
      rw [List.mem_singleton.1 hb, hz] at heq
      obtain ⟨rfl, rfl⟩ := Name.incarnation_injective heq
      exact Nat.lt_irrefl _ hk
    · obtain ⟨a, ha⟩ := NameMap.mem_keys.1 hy
      unfold grow at ha
      rw [NameMap.find?_insert] at ha
      rw [hmade, List.mem_append, List.mem_singleton]
      split_ifs at ha with heq
      · exact .inr heq
      · exact .inl (h.origins y (NameMap.mem_keys.2 ⟨a, ha⟩))
    · unfold Versions.isIncarnation grow at hy
      rw [NameMap.find?_insert] at hy
      split_ifs at hy with heq
      · rw [heq]
        exact versionless_incarnation
      · exact h.isIncarnation y hy
    · unfold whereClause? grow at hw
      rw [NameMap.find?_insert] at hw
      split_ifs at hw with heq
      · cases hw
      · exact h.whereClause y w hw

theorem isIncarnation_eq_false {v : Variable} (h : v.Within .versionless) :
    v.isIncarnation = false := by
  unfold Variable.isIncarnation
  split
  · exact absurd ‹_› (h.kind _ _)
  · rfl

/-- Locals that are no versions may be declared. -/
theorem declare (h : s.Numbered) {locals : List Variable}
    (hlocals : ∀ v ∈ locals, v.Within .versionless) : (s.declare locals).Numbered := by
  -- A declaration found afterwards is of a local or was there before.
  have hfind : ∀ y d, (s.declare locals).declarations.find? y = some d →
      d ∈ locals ∨ s.declarations.find? y = some d := by
    intro y d hd
    unfold Versions.declare at hd
    rw [NameMap.find?_insertAll] at hd
    rcases Option.or_eq_some_iff.1 hd with hd | ⟨-, hd⟩
    · obtain ⟨v, hv, heq⟩ := List.mem_map.1 (NameMap.mem_of_find?_ofList hd)
      cases heq
      exact .inl hv
    · exact .inr hd
  refine ⟨h.made, h.nodup, h.origins, fun y hy => ?_, fun y w hw => ?_⟩
  · unfold Versions.isIncarnation at hy
    cases hd : (s.declare locals).declarations.find? y with
    | none =>
      rw [hd] at hy
      cases hy
    | some d =>
      rw [hd] at hy
      rcases hfind y d hd with hmem | hold
      · exact absurd hy (by simp [isIncarnation_eq_false (hlocals d hmem)])
      · refine h.isIncarnation y ?_
        unfold Versions.isIncarnation
        rw [hold]
        exact hy
  · obtain ⟨d, hd, hw⟩ := Option.bind_eq_some_iff.1 hw
    rcases hfind y d hd with hmem | hold
    · exact (hlocals d hmem).whereClause w hw
    · exact h.whereClause y w (Option.bind_eq_some_iff.2 ⟨d, hold, hw⟩)

end Versions.Numbered

/-! ## Commands -/

namespace Passive

/-- Some steps lead from one point of a block to another: they make the passive commands that are
added, define the versions that are made, and define what they read first. Afterwards what stands
for variables reads what is given or defined by them. -/
structure Leads (G : Name → Prop) (s : Progress) (ts : List Step) (s' : Progress) : Prop where
  /-- The versions made so far are numbered. -/
  versions : s'.versions.Numbered
  /-- The steps make the commands that are added. -/
  cmds : s'.cmds = s.cmds ++ ts.flatMap Step.cmds
  /-- They define the versions that are made. -/
  made : s'.versions.made.map (·.name) =
    s.versions.made.map (·.name) ++ ts.flatMap Step.defines
  /-- They define what they read first. -/
  definesFirst : DefinesFirst G ts
  /-- What stands for variables reads what is given or defined. -/
  map : s'.map.Over (Given G ts)

section

variable {G : Name → Prop} {s s' s'' : Progress} {ts us : List Step} {frame : NameMap Expr}
  {block x n : Name}

/-- Steps after others. -/
theorem Leads.append (h : Leads G s ts s') (h' : Leads (Given G ts) s' us s'') :
    Leads G s (ts ++ us) s'' where
  versions := h'.versions
  cmds := by rw [h'.cmds, h.cmds, List.flatMap_append, List.append_assoc]
  made := by rw [h'.made, h.made, List.flatMap_append, List.append_assoc]
  definesFirst := h.definesFirst.append h'.definesFirst
  map := h'.map.mono fun _ hn => given_append.2 hn

/-- Without steps only the versions and what stands for variables may change. -/
theorem Leads.nil (hversions : s'.versions.Numbered) (hcmds : s'.cmds = s.cmds)
    (hmade : s'.versions.made = s.versions.made) (hmap : s'.map.Over G) : Leads G s [] s' where
  versions := hversions
  cmds := by rw [hcmds, List.flatMap_nil, List.append_nil]
  made := by rw [hmade, List.flatMap_nil, List.append_nil]
  definesFirst := .of_forall fun t ht => absurd ht List.not_mem_nil
  map := hmap.mono fun _ hn => given_nil.2 hn

/-- Passive commands that read what is given are added. -/
theorem Leads.passive (hversions : s.versions.Numbered) (hmap : s.map.Over G) {cs : List Cmd}
    (hcs : ReadsOnly G cs) :
    Leads G s (cs.map .passive) { s with cmds := s.cmds ++ cs } where
  versions := hversions
  cmds := by
    rw [List.flatMap_map]
    exact congrArg (s.cmds ++ ·) (List.flatMap_singleton' cs).symm
  made := by
    rw [List.flatMap_map]
    simp [Step.defines]
  definesFirst := by
    refine .of_forall fun t ht n hn => .inl ?_
    obtain ⟨c, hc, rfl⟩ := List.mem_map.1 ht
    unfold Step.reads Step.cmds at hn
    rw [List.flatMap_singleton] at hn
    cases he : c.condition? with
    | none =>
      rw [he] at hn
      cases hn
    | some e =>
      rw [he] at hn
      exact hcs c hc e he n hn
  map := hmap.mono fun _ hn => .inl hn

/-- The assumptions of conditions over base names read what is given. -/
theorem readsOnly_assumptions (hframe : frame.Over Name.Versionless) {map : NameMap Expr}
    (hmap : map.Over G) (hG : ∀ n : Name, n.Versionless → G n) {ws : List Expr}
    (hws : ∀ w ∈ ws, ∀ n ∈ w.names, n.Versionless) : ReadsOnly G (assumptions frame map ws) :=
  readsOnly_map_assume fun w hw => NameMap.Over.standIn hframe hmap hG (hws w hw)

/-! ### Assignments -/

/-- The steps of an assignment make some equalities, each for a version of its own. -/
structure Equates (G : Name → Prop) (s : Progress) (es : List Expr) (s' : Progress) : Prop where
  /-- The versions made so far are numbered. -/
  versions : s'.versions.Numbered
  /-- No passive command is added yet. -/
  cmds : s'.cmds = s.cmds
  /-- The versions made are on the left sides. -/
  made : s'.versions.made.map (·.name) = s.versions.made.map (·.name) ++ es.filterMap leftSide?
  /-- The equalities read what is given or on a left side. -/
  reads : ∀ e ∈ es, ∀ n ∈ e.names, G n ∨ n ∈ es.filterMap leftSide?
  /-- So does what stands for variables afterwards. -/
  map : s'.map.Over fun n => G n ∨ n ∈ es.filterMap leftSide?

theorem assignAll_equates {pairs : List (Name × Expr)} {es : List Expr} {G : Name → Prop}
    {s : Progress} (hs : s.versions.Numbered) (hmap : s.map.Over G)
    (hpairs : ∀ p ∈ pairs, p.1.Versionless ∧ ∀ n ∈ p.2.names, G n)
    (h : (assignAll block s pairs).outcome = .ok (es, s')) : Equates G s es s' := by
  induction pairs generalizing es s G with
  | nil =>
    cases h
    exact ⟨hs, rfl, (List.append_nil _).symm, fun e he => absurd he List.not_mem_nil,
      hmap.mono fun _ hn => .inl hn⟩
  | cons p pairs ih =>
    obtain ⟨x, value⟩ := p
    obtain ⟨⟨hx, hvalue⟩, hpairs⟩ := List.forall_mem_cons.1 hpairs
    unfold assignAll at h
    split_ifs at h with hcontains hincarnation hatomic
    · cases h
    · exact absurd hx (hs.isIncarnation x hincarnation)
    · -- The value comes to stand for the variable.
      have ih := ih (s := s.stand x value) hs (hmap.insert hx hvalue) hpairs h
      exact ⟨ih.versions, ih.cmds, ih.made, ih.reads, ih.map⟩
    · -- The variable gets a version, which is given from then on.
      obtain ⟨⟨n, s₁⟩, hrenew, h⟩ := Minting.bind_eq_ok.1 h
      obtain ⟨⟨n', versions⟩, hnext, hrenew⟩ := Minting.bind_eq_ok.1 hrenew
      cases hrenew
      obtain ⟨⟨es', s₂⟩, hrest, h⟩ := Minting.bind_eq_ok.1 h
      cases h
      obtain ⟨hnumbered, hmade⟩ := hs.next hnext
      have ih := ih (G := fun m => G m ∨ m = n) hnumbered
        ((hmap.mono fun _ => .inl).insert hx fun m hm => .inr (Expr.mem_names_symbol.1 hm))
        (fun p hp => ⟨(hpairs p hp).1, fun m hm => .inl ((hpairs p hp).2 m hm)⟩) hrest
      have hleft : (Expr.binary .eq (.symbol n) value :: es').filterMap leftSide? =
          n :: es'.filterMap leftSide? := rfl
      have hgiven : ∀ m, (G m ∨ m = n) ∨ m ∈ es'.filterMap leftSide? →
          G m ∨ m ∈ n :: es'.filterMap leftSide? := by
        intro m hm
        rw [List.mem_cons]
        exact or_assoc.1 hm
      refine ⟨ih.versions, ih.cmds, ?_, fun e he m hm => ?_, ?_⟩
      · rw [hleft, ih.made]
        exact (congrArg (· ++ _) hmade).trans (List.append_assoc _ _ _)
      · rw [hleft]
        rcases List.mem_cons.1 he with rfl | he
        · rcases Expr.mem_names_binary.1 hm with hm | hm
          · exact .inr (List.mem_cons.2 (.inl (Expr.mem_names_symbol.1 hm)))
          · exact .inl (hvalue m hm)
        · exact hgiven m (ih.reads e he m hm)
      · rw [hleft]
        exact ih.map.mono hgiven

theorem Equates.leads {es : List Expr} (h : Equates G s es s') :
    Leads G s (equateAll es) { s' with cmds := s'.cmds ++ assumeAll es } := by
  -- The equalities are assumed together in one command, and without any there is none.
  have hcmds : (equateAll es).flatMap Step.cmds = assumeAll es := by
    unfold equateAll assumeAll
    split_ifs <;> rfl
  have hdefines : (equateAll es).flatMap Step.defines = es.filterMap leftSide? := by
    unfold equateAll
    split_ifs with hempty
    · rw [List.isEmpty_iff.1 hempty]
      rfl
    · exact List.append_nil _
  refine ⟨h.versions, ?_, ?_, .of_forall fun t ht n hn => ?_, ?_⟩
  · rw [hcmds, ← h.cmds]
  · rw [hdefines]
    exact h.made
  · unfold equateAll at ht
    split_ifs at ht
    · cases ht
    · rw [List.mem_singleton.1 ht] at hn ⊢
      unfold Step.reads Step.cmds at hn
      rw [List.flatMap_singleton] at hn
      obtain ⟨e, he, hn⟩ := Expr.exists_of_mem_names_conjAll hn
      exact h.reads e he n hn
  · unfold Given
    rw [hdefines]
    exact h.map

/-! ### Arbitrary values -/

theorem minted_eq {versions versions' : Versions} {ns : List Name}
    (h : versions'.made.map (·.name) = versions.made.map (·.name) ++ ns) :
    minted versions versions' = ns := by
  unfold minted
  rw [h]
  exact List.drop_left' (List.length_map _)

theorem renewAll_leads {xs : List Name} {G : Name → Prop} {s : Progress}
    (hs : s.versions.Numbered) (hmap : s.map.Over G) (hxs : ∀ x ∈ xs, x.Versionless)
    (h : (renewAll block s xs).outcome = .ok s') :
    Leads G s ((minted s.versions s'.versions).map .choose) s' := by
  -- That some names are chosen is shown first. They are the ones minted, since they are all that is
  -- made.
  have hleads : ∃ ns : List Name, Leads G s (ns.map .choose) s' := by
    induction xs generalizing s G with
    | nil =>
      cases h
      exact ⟨[], .nil hs rfl rfl hmap⟩
    | cons x xs ih =>
      obtain ⟨hx, hxs⟩ := List.forall_mem_cons.1 hxs
      unfold renewAll at h
      split_ifs at h with hincarnation
      · exact absurd hx (hs.isIncarnation x hincarnation)
      · obtain ⟨⟨n, s₁⟩, hrenew, h⟩ := Minting.bind_eq_ok.1 h
        obtain ⟨⟨n', versions⟩, hnext, hrenew⟩ := Minting.bind_eq_ok.1 hrenew
        cases hrenew
        obtain ⟨hnumbered, hmade⟩ := hs.next hnext
        have hfirst : Leads G s [.choose n] ⟨versions, s.map.insert x (.symbol n), s.cmds⟩ :=
          { versions := hnumbered
            cmds := (List.append_nil _).symm
            made := hmade
            definesFirst := .of_forall fun t ht m hm => by
              rw [List.mem_singleton.1 ht] at hm
              cases hm
            map := (hmap.mono fun _ => .inl).insert hx fun m hm => .inr (by
              rw [Expr.mem_names_symbol.1 hm]
              exact List.mem_singleton_self n) }
        obtain ⟨ns, hns⟩ := ih hnumbered hfirst.map hxs h
        exact ⟨n :: ns, hfirst.append hns⟩
  obtain ⟨ns, hns⟩ := hleads
  have hdefines : (ns.map Step.choose).flatMap Step.defines = ns := by
    rw [List.flatMap_map]
    exact List.flatMap_singleton' ns
  rw [minted_eq (hdefines ▸ hns.made)]
  exact hns

/-! ### All commands -/

mutual

/-- The steps of a command lead from before it to after it. -/
theorem passifyCmd_leads (hframe : frame.Over Name.Versionless) :
    ∀ {c : Cmd} {G : Name → Prop} {s s' : Progress}, (∀ n : Name, n.Versionless → G n) →
      c.Within .versionless → s.versions.Numbered → s.map.Over G →
      (passifyCmd frame block c s).outcome = .ok s' → Leads G s (stepsOf frame block c s) s'
  | .assert a, G, s, s', hG, hc, hs, hmap, h => by
    rw [passifyCmd] at h
    cases h
    rw [stepsOf]
    have hreads : ReadsOnly G [.assert
        ⟨standIn frame s.map a.condition, a.kind, some a.condition, some s.map⟩] := by
      intro d hd e he
      rw [List.mem_singleton.1 hd] at he
      cases he
      exact NameMap.Over.standIn hframe hmap hG hc
    exact Leads.passive hs hmap hreads
  | .assume e, G, s, s', hG, hc, hs, hmap, h => by
    rw [passifyCmd] at h
    cases h
    rw [stepsOf]
    exact Leads.passive hs hmap
      (readsOnly_assumptions hframe hmap hG (List.forall_mem_singleton.2 hc))
  | .assign pairs, G, s, s', hG, hc, hs, hmap, h => by
    obtain ⟨⟨es, s₁⟩, hassign, -⟩ := Minting.bind_eq_ok.1 h
    rw [passifyCmd_assign_eq_ok hassign] at h
    cases h
    rw [stepsOf, hassign]
    refine (assignAll_equates hs hmap (fun p hp => ?_) hassign).leads
    obtain ⟨q, hq, rfl⟩ := List.mem_map.1 hp
    exact ⟨(hc q hq).1, NameMap.Over.standIn hframe hmap hG (hc q hq).2⟩
  | .havoc vars, G, s, s', hG, hc, hs, hmap, h => by
    obtain ⟨s₁, hrenew, -⟩ := Minting.bind_eq_ok.1 h
    rw [passifyCmd_havoc_eq_ok hrenew] at h
    cases h
    rw [stepsOf, hrenew]
    have hchosen := renewAll_leads hs hmap hc hrenew
    refine hchosen.append (Leads.passive hchosen.versions hchosen.map ?_)
    refine readsOnly_assumptions hframe hchosen.map (fun n hn => .inl (hG n hn)) fun w hw => ?_
    obtain ⟨x, -, hw⟩ := List.mem_filterMap.1 hw
    exact hchosen.versions.whereClause x w hw
  | .call _ _ _, _, _, _, _, _, _, _, h => by
    rw [passifyCmd] at h
    cases h
  | .comment _, G, s, s', _, _, hs, hmap, h => by
    rw [passifyCmd] at h
    cases h
    rw [stepsOf]
    exact .nil hs rfl rfl hmap
  | .scope locals cmds, G, s, s', hG, hc, hs, hmap, h => by
    rw [passifyCmd] at h
    obtain ⟨s₁, hcmds, h⟩ := Minting.bind_eq_ok.1 h
    rw [foldl_opening] at hcmds
    cases h
    rw [stepsOf]
    -- The locals are declared, the conditions on them assumed, and the commands follow.
    have hdeclared := hs.declare hc.1
    have hopening : Leads G { s with versions := s.versions.declare locals }
        ((opening frame s.map locals).map .passive)
        { s with versions := s.versions.declare locals
                 cmds := s.cmds ++ opening frame s.map locals } :=
      Leads.passive (s := { s with versions := s.versions.declare locals }) hdeclared hmap
        (readsOnly_assumptions hframe hmap hG fun w hw => by
          obtain ⟨v, hv, hw⟩ := List.mem_filterMap.1 hw
          exact (hc.1 v hv).whereClause w hw)
    have hinner := passifyCmds_leads hframe (fun n hn => .inl (hG n hn)) hc.2 hdeclared hopening.map
      hcmds
    have hall := hopening.append hinner
    exact ⟨hall.versions, hall.cmds, hall.made, hall.definesFirst, hall.map.eraseAll locals⟩

/-- The same for several commands. -/
theorem passifyCmds_leads (hframe : frame.Over Name.Versionless) :
    ∀ {cs : List Cmd} {G : Name → Prop} {s s' : Progress}, (∀ n : Name, n.Versionless → G n) →
      Cmd.WithinAll .versionless cs → s.versions.Numbered → s.map.Over G →
      (passifyCmds frame block cs s).outcome = .ok s' → Leads G s (stepsOfAll frame block cs s) s'
  | [], G, s, s', _, _, hs, hmap, h => by
    rw [passifyCmds] at h
    cases h
    rw [stepsOfAll]
    exact .nil hs rfl rfl hmap
  | c :: cs, G, s, s', hG, hcs, hs, hmap, h => by
    rw [passifyCmds] at h
    obtain ⟨s₁, hc, h⟩ := Minting.bind_eq_ok.1 h
    rw [stepsOfAll, hc]
    have hfirst := passifyCmd_leads hframe hG hcs.1 hs hmap hc
    exact hfirst.append
      (passifyCmds_leads hframe (fun n hn => .inl (hG n hn)) hcs.2 hfirst.versions hfirst.map h)

end

end

end Passive

end Obligations
