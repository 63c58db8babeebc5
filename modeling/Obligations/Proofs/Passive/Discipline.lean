import Obligations.Proofs.Expr.Substitution
import Obligations.Proofs.Passive.Body

/-!
# What passive commands state

Passification puts literals and names in the place of names, drops `old`, and assumes equalities
between names and values. A discipline (`Passive.Discipline`) is a choice of the conditions that may
be asserted, that may be assumed and that may be assigned, which this respects. Where the commands of
a body keep to a discipline, so do the passive commands that each block becomes, and none of them
asks for a value on entry (`Passive.passify_obeys`).
-/

namespace Obligations

/-- Only literals and single names stand for the names of a map. -/
def NameMap.Atomic (m : NameMap Expr) : Prop :=
  ∀ x e, m.find? x = some e → Passive.isAtomic e = true

namespace NameMap.Atomic

variable {m : NameMap Expr} {x : Name} {e : Expr}

theorem insert (h : m.Atomic) (he : Passive.isAtomic e = true) : (m.insert x e).Atomic := by
  intro y a ha
  rw [find?_insert] at ha
  split_ifs at ha
  · cases ha
    exact he
  · exact h y a ha

theorem erase (h : m.Atomic) : (m.erase x).Atomic := by
  intro y a ha
  rw [find?_erase] at ha
  split_ifs at ha
  exact h y a ha

end NameMap.Atomic

namespace Passive

theorem isAtomic_iff {e : Expr} :
    isAtomic e = true ↔ (∃ a, e = .literal a) ∨ ∃ n, e = .symbol n := by
  cases e <;> simp [isAtomic, Expr.isLiteral, Expr.asSymbol?]

theorem isAtomic_symbol (n : Name) : isAtomic (.symbol n) = true := rfl

theorem oldFree_of_isAtomic {e : Expr} (h : isAtomic e = true) : e.OldFree := by
  rcases isAtomic_iff.1 h with ⟨a, rfl⟩ | ⟨n, rfl⟩
  · exact Expr.oldFree_literal a
  · exact Expr.oldFree_symbol n

/-- What stands for an expression asks for no value on entry. -/
theorem oldFree_standIn {frame map : NameMap Expr} (hframe : frame.Atomic) (hmap : map.Atomic)
    (e : Expr) : (standIn frame map e).OldFree :=
  Expr.oldFree_substituteOld (fun n a ha => oldFree_of_isAtomic (hmap n a ha))
    (fun n a ha => oldFree_of_isAtomic (hframe n a ha)) e

/-- The expression is an equality between a name and a value. -/
def IsEquality (value : Expr → Prop) (e : Expr) : Prop :=
  ∃ n a, value a ∧ e = .binary .eq (.symbol n) a

/-- A choice of the conditions that may be asserted and assumed and of the values that may be
assigned. -/
structure Discipline where
  /-- What may be asserted. -/
  asserted : Expr → Prop
  /-- What may be assumed. -/
  assumed : Expr → Prop
  /-- What may be assigned. -/
  value : Expr → Prop
  /-- Literals and names may be assigned. -/
  value_of_isAtomic : ∀ {e}, isAtomic e = true → value e
  /-- Literals and names may be put in the place of names. -/
  value_standIn : ∀ {frame map e}, frame.Atomic → map.Atomic → value e → value (standIn frame map e)
  /-- The same in an assertion. -/
  asserted_standIn : ∀ {frame map e}, frame.Atomic → map.Atomic → asserted e →
    asserted (standIn frame map e)
  /-- The same in an assumption. -/
  assumed_standIn : ∀ {frame map e}, frame.Atomic → map.Atomic → assumed e →
    assumed (standIn frame map e)
  /-- That names have values may be assumed. -/
  assumed_conjAll : ∀ {es}, (∀ e ∈ es, IsEquality value e) → assumed (.conjAll es)

/-- A discipline allows as much as another one. -/
structure Discipline.Le (D D' : Discipline) : Prop where
  /-- Of what may be asserted. -/
  asserted : ∀ {e}, D.asserted e → D'.asserted e
  /-- Of what may be assumed. -/
  assumed : ∀ {e}, D.assumed e → D'.assumed e
  /-- Of what may be assigned. -/
  value : ∀ {e}, D.value e → D'.value e

/-- That a name has a value may be assumed. -/
theorem Discipline.assumed_of_isEquality (D : Discipline) {e : Expr} (he : IsEquality D.value e) :
    D.assumed e :=
  show D.assumed (.conjAll [e]) from D.assumed_conjAll (List.forall_mem_singleton.2 he)

end Passive

open Passive (Discipline IsEquality)

variable {D : Discipline}

/- Commands that keep to a discipline. -/
mutual

/-- A command keeps to the discipline. -/
def Cmd.Obeys (D : Discipline) : Cmd → Prop
  | assert a => D.asserted a.condition
  | assume e => D.assumed e
  | assign pairs => ∀ p ∈ pairs, D.value p.2
  | havoc _ | call _ _ _ | comment _ => True
  | scope locals cmds =>
    (∀ v ∈ locals, ∀ w, v.whereClause = some w → D.assumed w) ∧ Cmd.ObeysAll D cmds

/-- Several commands keep to the discipline. -/
def Cmd.ObeysAll (D : Discipline) : List Cmd → Prop
  | [] => True
  | c :: cs => c.Obeys D ∧ Cmd.ObeysAll D cs

end

/-- A command asserts or assumes what the discipline allows and asks for no value on entry. -/
def Cmd.StatesOnly (D : Discipline) : Cmd → Prop
  | assert a => D.asserted a.condition ∧ a.condition.OldFree
  | assume e => D.assumed e ∧ e.OldFree
  | _ => False

theorem Cmd.obeysAll_iff {cs : List Cmd} : Cmd.ObeysAll D cs ↔ ∀ c ∈ cs, c.Obeys D := by
  induction cs with
  | nil => simp [ObeysAll]
  | cons c cs ih => simp [ObeysAll, ih]

@[simp] theorem Cmd.obeysAll_append {cs ds : List Cmd} :
    Cmd.ObeysAll D (cs ++ ds) ↔ Cmd.ObeysAll D cs ∧ Cmd.ObeysAll D ds := by
  simp only [obeysAll_iff, List.forall_mem_append]

mutual

/-- A command keeps to every discipline that allows as much. -/
theorem Cmd.Obeys.mono {D' : Discipline} (hD : D.Le D') : ∀ {c : Cmd}, c.Obeys D → c.Obeys D'
  | .assert _, h => hD.asserted h
  | .assume _, h => hD.assumed h
  | .assign _, h => fun p hp => hD.value (h p hp)
  | .havoc _, _ | .call _ _ _, _ | .comment _, _ => trivial
  | .scope _ _, h =>
    ⟨fun v hv w hw => hD.assumed (h.1 v hv w hw), Cmd.ObeysAll.mono hD h.2⟩

/-- The same for several commands. -/
theorem Cmd.ObeysAll.mono {D' : Discipline} (hD : D.Le D') : ∀ {cs : List Cmd},
    Cmd.ObeysAll D cs → Cmd.ObeysAll D' cs
  | [], _ => trivial
  | _ :: _, h => ⟨h.1.mono hD, h.2.mono hD⟩

end

/-- The conditions on variables in force may be assumed. -/
def Versions.Obeys (D : Discipline) (s : Versions) : Prop :=
  ∀ x w, s.whereClause? x = some w → D.assumed w

section

variable {s s' : Versions} {x n : Name}

theorem Versions.Obeys.next (h : s.Obeys D) {o : Origin}
    (hnext : (s.next x o).outcome = .ok (n, s')) : s'.Obeys D := by
  unfold Versions.next at hnext
  cases hd : s.declarations.find? x with
  | none =>
    rw [hd] at hnext
    cases hnext
  | some d =>
    simp only [hd] at hnext
    obtain ⟨name, -, hnext⟩ := Minting.bind_eq_ok.1 hnext
    cases hnext
    intro y w hw
    unfold Versions.whereClause? at hw
    dsimp only at hw
    rw [NameMap.find?_insert] at hw
    -- A version comes without a condition.
    split_ifs at hw
    · cases hw
    · exact h y w hw

theorem Versions.Obeys.declare (h : s.Obeys D) {locals : List Variable}
    (hlocals : ∀ v ∈ locals, ∀ w, v.whereClause = some w → D.assumed w) :
    (s.declare locals).Obeys D := by
  intro y w hw
  obtain ⟨d, hd, hd'⟩ := Option.bind_eq_some_iff.1 hw
  unfold Versions.declare at hd
  dsimp only at hd
  rw [NameMap.find?_insertAll] at hd
  rcases Option.or_eq_some_iff.1 hd with hd | ⟨-, hd⟩
  · obtain ⟨v, hv, heq⟩ := List.mem_map.1 (NameMap.mem_of_find?_ofList hd)
    cases heq
    exact hlocals _ hv w hd'
  · exact h y w (Option.bind_eq_some_iff.2 ⟨d, hd, hd'⟩)

end

namespace Passive

/-! ## Commands -/

/-- The passive commands that follow some given ones keep to the discipline, and so will those made
of what stands for variables and holds of them. -/
structure Progress.Obeys (D : Discipline) (given : List Cmd) (s : Progress) : Prop where
  /-- The conditions on variables. -/
  versions : s.versions.Obeys D
  /-- What stands for each variable. -/
  map : s.map.Atomic
  /-- The passive commands that follow. -/
  cmds : ∃ ds, s.cmds = given ++ ds ∧ ∀ d ∈ ds, d.StatesOnly D

section

variable {frame : NameMap Expr} {s s' : Progress} {block x n : Name} {e : Expr} {given : List Cmd}

theorem Progress.Obeys.emit (h : s.Obeys D given) {c : Cmd} (hc : c.StatesOnly D) :
    (s.emit c).Obeys D given where
  versions := h.versions
  map := h.map
  cmds := by
    obtain ⟨ds, hds, hall⟩ := h.cmds
    refine ⟨ds ++ [c], ?_, List.forall_mem_append.2 ⟨hall, List.forall_mem_singleton.2 hc⟩⟩
    rw [Progress.emit, hds, List.append_assoc]

theorem Progress.Obeys.renew (h : s.Obeys D given) {o : Origin}
    (hs : (s.renew x o).outcome = .ok (n, s')) : s'.Obeys D given := by
  obtain ⟨⟨name, versions⟩, hnext, hs⟩ := Minting.bind_eq_ok.1 hs
  cases hs
  exact ⟨h.versions.next hnext, h.map.insert (isAtomic_symbol _), h.cmds⟩

theorem Progress.Obeys.assumeWhere (hframe : frame.Atomic) (h : s.Obeys D given) {w : Option Expr}
    (hw : ∀ e, w = some e → D.assumed e) : (s.assumeWhere frame w).Obeys D given := by
  cases w with
  | none => exact h
  | some e => exact h.emit ⟨D.assumed_standIn hframe h.map (hw e rfl),
      oldFree_standIn hframe h.map e⟩

/-- An assignment gives equalities that may be assumed. -/
theorem assignAll_obeys {P : Expr → Prop} : ∀ {pairs : List (Name × Expr)} {es : List Expr}
    {s s' : Progress}, s.Obeys D given → (∀ p ∈ pairs, P p.2) →
    (assignAll block s pairs).outcome = .ok (es, s') →
    s'.Obeys D given ∧ ∀ e ∈ es, IsEquality P e
  | [], _, _, _, h, _, hs => by
    cases hs
    exact ⟨h, fun e he => by cases he⟩
  | (x, value) :: rest, es, s, s', h, hpairs, hs => by
    obtain ⟨hvalue, hrest⟩ := List.forall_mem_cons.1 hpairs
    unfold assignAll at hs
    -- A pair is an equality on what is a version already, is put in the map, or makes a version.
    split_ifs at hs with _ _ hatomic
    · cases hs
    · obtain ⟨⟨es', s₁⟩, hs₁, hs⟩ := Minting.bind_eq_ok.1 hs
      cases hs
      obtain ⟨h', hes⟩ := assignAll_obeys h hrest hs₁
      exact ⟨h', List.forall_mem_cons.2 ⟨⟨x, value, hvalue, rfl⟩, hes⟩⟩
    · have hstand : (s.stand x value).Obeys D given := ⟨h.versions, h.map.insert hatomic, h.cmds⟩
      exact assignAll_obeys hstand hrest hs
    · obtain ⟨⟨name, s₁⟩, hs₁, hs⟩ := Minting.bind_eq_ok.1 hs
      obtain ⟨⟨es', s₂⟩, hs₂, hs⟩ := Minting.bind_eq_ok.1 hs
      cases hs
      obtain ⟨h', hes⟩ := assignAll_obeys (h.renew hs₁) hrest hs₂
      exact ⟨h', List.forall_mem_cons.2 ⟨⟨name, value, hvalue, rfl⟩, hes⟩⟩

theorem renewAll_obeys : ∀ {xs : List Name} {s s' : Progress}, s.Obeys D given →
    (renewAll block s xs).outcome = .ok s' → s'.Obeys D given
  | [], _, _, h, hs => by
    cases hs
    exact h
  | x :: xs, _, _, h, hs => by
    unfold renewAll at hs
    split_ifs at hs
    · exact renewAll_obeys h hs
    · obtain ⟨⟨name, s₁⟩, hs₁, hs⟩ := Minting.bind_eq_ok.1 hs
      exact renewAll_obeys (h.renew hs₁) hs

theorem IsEquality.mono {P Q : Expr → Prop} (hPQ : ∀ a, P a → Q a) (h : IsEquality P e) :
    IsEquality Q e := by
  obtain ⟨n, a, ha, rfl⟩ := h
  exact ⟨n, a, hPQ a ha, rfl⟩

theorem IsEquality.oldFree (h : IsEquality Expr.OldFree e) : e.OldFree := by
  obtain ⟨n, a, ha, rfl⟩ := h
  exact Expr.oldFree_binary.2 ⟨Expr.oldFree_symbol n, ha⟩

mutual

/-- Passification of a command keeps to the discipline. -/
theorem passifyCmd_obeys (hframe : frame.Atomic) : ∀ {c : Cmd} {s s' : Progress},
    c.Obeys D → s.Obeys D given → (passifyCmd frame block c s).outcome = .ok s' →
    s'.Obeys D given
  | .assert a, s, _, hc, h, hs => by
    cases hs
    exact h.emit ⟨D.asserted_standIn hframe h.map hc, oldFree_standIn hframe h.map _⟩
  | .assume e, s, _, hc, h, hs => by
    cases hs
    exact h.emit ⟨D.assumed_standIn hframe h.map hc, oldFree_standIn hframe h.map _⟩
  | .assign pairs, s, _, hc, h, hs => by
    rw [passifyCmd] at hs
    obtain ⟨⟨es, s₁⟩, hs₁, hs⟩ := Minting.bind_eq_ok.1 hs
    cases hs
    obtain ⟨h', hes⟩ := assignAll_obeys (P := fun a => D.value a ∧ a.OldFree) h (fun p hp => by
      obtain ⟨q, hq, rfl⟩ := List.mem_map.1 hp
      exact ⟨D.value_standIn hframe h.map (hc q hq), oldFree_standIn hframe h.map _⟩) hs₁
    split_ifs
    · exact h'
    · exact h'.emit ⟨D.assumed_conjAll fun e he => (hes e he).mono fun _ ha => ha.1,
        Expr.oldFree_conjAll fun e he => ((hes e he).mono fun _ ha => ha.2).oldFree⟩
  | .havoc vars, s, _, hc, h, hs => by
    rw [passifyCmd] at hs
    obtain ⟨s₁, hs₁, hs⟩ := Minting.bind_eq_ok.1 hs
    cases hs
    exact List.foldlRecOn (motive := Progress.Obeys D given) vars _ (renewAll_obeys h hs₁)
      fun s h x _ => h.assumeWhere hframe fun e he => h.versions x e he
  | .call _ _ _, _, _, _, _, hs => by cases hs
  | .comment _, s, _, _, h, hs => by
    cases hs
    exact h
  | .scope locals cmds, s, _, hc, h, hs => by
    rw [passifyCmd] at hs
    obtain ⟨s₁, hs₁, hs⟩ := Minting.bind_eq_ok.1 hs
    cases hs
    have hopened := List.foldlRecOn (motive := Progress.Obeys D given) locals
      (fun s v => s.assumeWhere frame v.whereClause)
      (⟨h.versions.declare hc.1, h.map, h.cmds⟩ : Progress.Obeys D given
        { s with versions := s.versions.declare locals })
      fun s h v hv => h.assumeWhere hframe (hc.1 v hv)
    -- After the scope its locals are struck from the map, and the rest is what the commands inside
    -- leave.
    have hdone := passifyCmds_obeys hframe hc.2 hopened hs₁
    refine ⟨hdone.versions, ?_, hdone.cmds⟩
    exact List.foldlRecOn (motive := NameMap.Atomic) locals _ hdone.map fun m h v _ => h.erase

/-- Passification of several commands keeps to the discipline. -/
theorem passifyCmds_obeys (hframe : frame.Atomic) : ∀ {cs : List Cmd} {s s' : Progress},
    Cmd.ObeysAll D cs → s.Obeys D given → (passifyCmds frame block cs s).outcome = .ok s' →
    s'.Obeys D given
  | [], _, _, _, h, hs => by
    cases hs
    exact h
  | c :: cs, _, _, hc, h, hs => by
    rw [passifyCmds] at hs
    obtain ⟨s₁, hs₁, hs⟩ := Minting.bind_eq_ok.1 hs
    exact passifyCmds_obeys hframe hc.2 (passifyCmd_obeys hframe hc.1 h hs₁) hs

end

end

/-! ## Blocks -/

/-- What passification makes of the commands of a block: passive commands, and behind them
equalities between the versions of a later join and what stands for variables. -/
def TurnsInto (D : Discipline) (frame : NameMap Expr) (cs ds : List Cmd) : Prop :=
  ∃ (block : Name) (start r : Progress) (es : List Expr), start.Obeys D [] ∧ start.cmds = [] ∧
    (passifyCmds frame block cs start).outcome = .ok r ∧
    (∀ e ∈ es, IsEquality (isAtomic · = true) e) ∧ ds = r.cmds ++ es.map .assume

section

variable {frame : NameMap Expr} {cs ds : List Cmd}

theorem TurnsInto.append {es : List Expr} (h : TurnsInto D frame cs ds)
    (hes : ∀ e ∈ es, IsEquality (isAtomic · = true) e) :
    TurnsInto D frame cs (ds ++ es.map .assume) := by
  obtain ⟨block, start, r, es', hstart, hnil, hr, hes', rfl⟩ := h
  refine ⟨block, start, r, es' ++ es, hstart, hnil, hr, List.forall_mem_append.2 ⟨hes', hes⟩, ?_⟩
  rw [List.map_append, List.append_assoc]

/-- An equality between a name and a literal or a name keeps to every discipline. -/
theorem statesOnly_of_isEquality {e : Expr} (he : IsEquality (isAtomic · = true) e) :
    (Cmd.assume e).StatesOnly D :=
  ⟨D.assumed_of_isEquality (he.mono fun _ => D.value_of_isAtomic),
    (he.mono fun _ => oldFree_of_isAtomic).oldFree⟩

/-- What commands that keep to a discipline become keeps to it. -/
theorem TurnsInto.statesOnly (hframe : frame.Atomic) (h : TurnsInto D frame cs ds)
    (hcs : Cmd.ObeysAll D cs) : ∀ d ∈ ds, d.StatesOnly D := by
  obtain ⟨block, start, r, es, hstart, -, hr, hes, rfl⟩ := h
  obtain ⟨ds, hds, hall⟩ := (passifyCmds_obeys hframe hcs hstart hr).cmds
  rw [hds, List.nil_append]
  refine List.forall_mem_append.2 ⟨hall, ?_⟩
  exact List.forall_mem_map.2 fun e he => statesOnly_of_isEquality (hes e he)

/-- The same commands turn into the same under a discipline that allows the same assumptions. -/
theorem TurnsInto.of_assumed (D' : Discipline) (hD : ∀ e, D.assumed e → D'.assumed e)
    (h : TurnsInto D frame cs ds) : TurnsInto D' frame cs ds := by
  obtain ⟨block, start, r, es, hstart, hnil, hr⟩ := h
  refine ⟨block, start, r, es, ⟨fun x w hw => hD w (hstart.versions x w hw), hstart.map, [], hnil,
    fun _ h => nomatch h⟩, hnil, hr⟩

theorem passifyCmds_append {block : Name} : ∀ {cs ds : List Cmd} {s r : Progress},
    (passifyCmds frame block (cs ++ ds) s).outcome = .ok r ↔
      ∃ s', (passifyCmds frame block cs s).outcome = .ok s' ∧
        (passifyCmds frame block ds s').outcome = .ok r
  | [], ds, s, r => by
    constructor
    · exact fun h => ⟨s, rfl, h⟩
    · rintro ⟨s', hs', h⟩
      cases hs'
      exact h
  | c :: cs, ds, s, r => by
    rw [List.cons_append, passifyCmds, passifyCmds, Minting.bind_eq_ok]
    simp only [Minting.bind_eq_ok, passifyCmds_append]
    constructor
    · rintro ⟨s₁, hs₁, s₂, hs₂, h⟩
      exact ⟨s₂, ⟨s₁, hs₁, hs₂⟩, h⟩
    · rintro ⟨s₂, ⟨s₁, hs₁, hs₂⟩, h⟩
      exact ⟨s₁, hs₁, s₂, hs₂, h⟩

/-- Commands that keep to a discipline, but for an assertion among them, become commands that keep
to it, but for one assertion of what stands for the condition there. -/
theorem TurnsInto.statesOnly_around (hframe : frame.Atomic) {before after : List Cmd}
    {a : Assertion} (h : TurnsInto D frame (before ++ .assert a :: after) ds)
    (hbefore : Cmd.ObeysAll D before) (hafter : Cmd.ObeysAll D after) :
    ∃ map a' before' after', map.Atomic ∧ a'.condition = standIn frame map a.condition ∧
      ds = before' ++ .assert a' :: after' ∧ (∀ d ∈ before', d.StatesOnly D) ∧
        ∀ d ∈ after', d.StatesOnly D := by
  obtain ⟨block, start, r, es, hstart, -, hr, hes, rfl⟩ := h
  obtain ⟨s₁, hs₁, hr⟩ := passifyCmds_append.1 hr
  have h₁ := passifyCmds_obeys hframe hbefore hstart hs₁
  obtain ⟨s₂, hs₂, hr⟩ := Minting.bind_eq_ok.1 hr
  cases hs₂
  obtain ⟨before', hcmds, hbefore'⟩ := h₁.cmds
  -- What follows the assertion keeps to the discipline whatever stands before.
  have h₂ := passifyCmds_obeys hframe hafter
    (⟨h₁.versions, h₁.map, [], (List.append_nil _).symm, fun _ h => nomatch h⟩ :
      Progress.Obeys D _ (s₁.emit (.assert ⟨standIn frame s₁.map a.condition, a.kind,
        some a.condition, some s₁.map⟩))) hr
  obtain ⟨after', hcmds', hafter'⟩ := h₂.cmds
  refine ⟨s₁.map, ⟨standIn frame s₁.map a.condition, a.kind, some a.condition, some s₁.map⟩,
    before', after' ++ es.map .assume, h₁.map, rfl, ?_, hbefore',
    List.forall_mem_append.2 ⟨hafter', List.forall_mem_map.2 fun e he =>
      statesOnly_of_isEquality (hes e he)⟩⟩
  rw [hcmds', Progress.emit, hcmds]
  simp

end

/-- What some blocks of a body have become. -/
structure Advance.Obeys (D : Discipline) (frame : NameMap Expr) (i : Implementation)
    (done : List Nat) (s : Advance) : Prop where
  /-- The body has changed in its commands only. -/
  outline : s.body.outline = i.outline
  /-- Nothing but its blocks has changed. -/
  body : ∃ blocks, s.body = { i with blocks }
  /-- The commands of the other blocks are as they were. -/
  rest : ∀ id, id ∉ done → s.body.cmdsAt id = i.cmdsAt id
  /-- The commands of these blocks have become passive. -/
  cmds : ∀ id ∈ done, TurnsInto D frame (i.cmdsAt id) (s.body.cmdsAt id)
  /-- The conditions on variables may be assumed. -/
  versions : s.versions.Obeys D
  /-- Only these blocks have maps. -/
  mem_done : ∀ id m, s.exitMaps.lookup id = some m → id ∈ done
  /-- Their maps are atomic. -/
  exitMaps : ∀ id m, s.exitMaps.lookup id = some m → m.Atomic

/-- At the start no block has become passive. -/
theorem Advance.Obeys.start {frame : NameMap Expr} {i : Implementation} {versions : Versions}
    (h : versions.Obeys D) : Advance.Obeys D frame i [] ⟨i, versions, []⟩ :=
  ⟨rfl, ⟨i.blocks, rfl⟩, fun _ _ => rfl, fun _ h => absurd h List.not_mem_nil, h,
    fun _ _ h => (by cases h), fun _ _ h => (by cases h)⟩

section

variable {c : Setting} {i : Implementation} {done : List Nat} {s s' : Advance}
  {incoming : List Incoming} {label x : Name}

theorem isAtomic_standsFor {m : NameMap Expr} (h : m.Atomic) (x : Name) :
    isAtomic (standsFor m x) = true := by
  unfold standsFor
  cases ha : m.find? x with
  | none => exact isAtomic_symbol x
  | some a => exact h x a ha

/-- To reconcile predecessors that have become passive adds equalities to them. -/
theorem reconcile_obeys (h : s.Obeys D c.frame i done)
    (hincoming : ∀ q ∈ incoming, s.exitMaps.lookup q.1 = some q.2)
    (hlt : ∀ q ∈ incoming, q.1 < s.body.blocks.length) {n : Name}
    (hs : (reconcile label incoming x s).outcome = .ok (n, s')) :
    s'.Obeys D c.frame i done ∧ s'.exitMaps = s.exitMaps ∧
      s'.body.blocks.length = s.body.blocks.length := by
  obtain ⟨⟨name, versions⟩, hnext, hs⟩ := Minting.bind_eq_ok.1 hs
  cases hs
  obtain ⟨houtline, hcmds⟩ := foldl_pushCmd n x incoming s.body hlt
  have hbody : ∃ blocks, incoming.foldl (fun b q => b.pushCmd q.1
      (.assume (.binary .eq (.symbol n) (standsFor q.2 x)))) s.body = { i with blocks } := by
    obtain ⟨blocks, hbefore⟩ := h.body
    obtain ⟨blocks', hafter⟩ := exists_foldl_pushCmd incoming
      (fun q => .assume (.binary .eq (.symbol n) (standsFor q.2 x))) s.body
    exact ⟨blocks', by rw [hafter, hbefore]⟩
  refine ⟨⟨houtline.trans h.outline, hbody, fun p hp => ?_, fun p hp => ?_,
    h.versions.next hnext, h.mem_done, h.exitMaps⟩, rfl, Implementation.length_of_outline_eq houtline⟩
  · -- A block without a map is no predecessor.
    have hnone : equalities incoming n x p = [] := equalities_eq_nil fun hmem => by
      obtain ⟨q, hq, rfl⟩ := List.mem_map.1 hmem
      exact hp (h.mem_done q.1 q.2 (hincoming q hq))
    rw [← h.rest p hp]
    exact (hcmds p).trans (by rw [hnone, List.append_nil])
  · have hes : equalities incoming n x p = ((incoming.filter (·.1 = p)).map fun q =>
        .binary .eq (.symbol n) (standsFor q.2 x)).map Cmd.assume := by
      unfold equalities
      rw [List.map_map]
      rfl
    have hpush := hcmds p
    rw [hes] at hpush
    refine hpush ▸ (h.cmds p hp).append (List.forall_mem_map.2 fun q hq => ?_)
    have hmap := h.exitMaps q.1 q.2 (hincoming q (List.mem_filter.1 hq).1)
    exact ⟨n, _, isAtomic_standsFor hmap x, rfl⟩

theorem reconcileAll_obeys {isLive : Name → Bool} : ∀ {xs : List Name} {map map' : NameMap Expr}
    {s s' : Advance}, map.Atomic → s.Obeys D c.frame i done →
    (∀ q ∈ incoming, s.exitMaps.lookup q.1 = some q.2) →
    (∀ q ∈ incoming, q.1 < s.body.blocks.length) →
    (reconcileAll isLive label incoming xs map s).outcome = .ok (map', s') →
    map'.Atomic ∧ s'.Obeys D c.frame i done ∧ s'.exitMaps = s.exitMaps
  | [], _, _, _, _, hmap, h, _, _, hs => by
    cases hs
    exact ⟨hmap, h, rfl⟩
  | x :: xs, _, _, _, _, hmap, h, hincoming, hlt, hs => by
    unfold reconcileAll at hs
    split_ifs at hs
    · obtain ⟨⟨name, s₁⟩, hs₁, hs⟩ := Minting.bind_eq_ok.1 hs
      obtain ⟨h₁, hmaps, hlength⟩ := reconcile_obeys h hincoming hlt hs₁
      obtain ⟨hmap', h', hmaps'⟩ := reconcileAll_obeys (hmap.insert (isAtomic_symbol name)) h₁
        (hmaps ▸ hincoming) (hlength ▸ hlt) hs
      exact ⟨hmap', h', hmaps'.trans hmaps⟩
    · exact reconcileAll_obeys hmap h hincoming hlt hs

theorem kept_atomic {l : Lexicon} (hincoming : ∀ q ∈ incoming, q.2.Atomic) :
    (kept l incoming).Atomic := by
  intro x e he
  obtain ⟨q, hq, hfind⟩ := exists_of_find?_kept he
  exact hincoming q hq x e hfind

/-- One more block becomes passive. -/
theorem passifyBlock_obeys (hlt : ∀ id ∈ done, id < i.blocks.length) {id : Nat} {b : Block}
    (hb : i.blocks[id]? = some b) (hid : id ∉ done) (h : s.Obeys D c.frame i done)
    (hframe : c.frame.Atomic) (hcmds : Cmd.ObeysAll D (i.cmdsAt id))
    (hs : (passifyBlock c id s).outcome = .ok s') : s'.Obeys D c.frame i (done ++ [id]) := by
  have hblock : s.body.blocks[id]? = some b := by
    rw [Implementation.getElem?_of_outline_eq h.outline hb, h.rest id hid, Implementation.cmdsAt, hb]
    rfl
  obtain ⟨map, s₁, r, hstart, hpass, rfl⟩ := passifyBlock_cases hblock hs
  have hlookup : ∀ q ∈ incomingOf b s, s.exitMaps.lookup q.1 = some q.2 := fun q hq =>
    (mem_incomingOf.1 hq).2
  obtain ⟨hmap, h₁, hmaps⟩ := reconcileAll_obeys
    (kept_atomic fun q hq => h.exitMaps q.1 q.2 (hlookup q hq)) h hlookup (fun q hq => by
      rw [Implementation.length_of_outline_eq h.outline]
      exact hlt q.1 (h.mem_done q.1 q.2 (hlookup q hq))) (startMap_eq .. ▸ hstart)
  -- The commands of the block itself are passified from the map at its start, without commands
  -- before them.
  have hcmds' : i.cmdsAt id = b.cmds := by
    rw [Implementation.cmdsAt, hb]
    rfl
  have hobeys : (⟨s₁.versions, map, []⟩ : Progress).Obeys D [] :=
    ⟨h₁.versions, hmap, [], rfl, fun _ hc => absurd hc List.not_mem_nil⟩
  have hr := passifyCmds_obeys hframe (hcmds' ▸ hcmds) hobeys hpass
  have hlt₁ : id < s₁.body.blocks.length := by
    rw [Implementation.length_of_outline_eq h₁.outline]
    exact (List.getElem?_eq_some_iff.1 hb).1
  have hbody : ∃ blocks, (s₁.finish id r).body = { i with blocks } := by
    obtain ⟨blocks, hbefore⟩ := h₁.body
    exact ⟨_, by rw [Advance.finish, hbefore]; rfl⟩
  refine ⟨(outline_finish s₁ id r).trans h₁.outline, hbody, fun p hp => ?_, fun p hp => ?_,
    hr.versions, fun p m hm => ?_, fun p m hm => ?_⟩
  · rw [List.mem_append, not_or, List.mem_singleton] at hp
    rw [cmdsAt_finish hlt₁, if_neg hp.2, h₁.rest p hp.1]
  · rw [cmdsAt_finish hlt₁]
    split_ifs with heq
    · subst heq
      exact ⟨b.label, _, r, [], hobeys, rfl, hcmds' ▸ hpass, fun _ he => absurd he List.not_mem_nil,
        (List.append_nil _).symm⟩
    · exact h₁.cmds p ((List.mem_append.1 hp).resolve_right fun hmem =>
        heq (List.mem_singleton.1 hmem))
  · rw [lookup_finish] at hm
    split_ifs at hm with heq
    · exact List.mem_append_right _ (List.mem_singleton.2 heq)
    · exact List.mem_append_left _ (h₁.mem_done p m hm)
  · rw [lookup_finish] at hm
    split_ifs at hm
    · cases hm
      exact hr.map
    · exact h₁.exitMaps p m hm

/-- All blocks of a list become passive. -/
theorem passifyBlocks_obeys (hframe : c.frame.Atomic) (hcmds : ∀ id, Cmd.ObeysAll D (i.cmdsAt id)) :
    ∀ {ids done : List Nat} {s s' : Advance}, (done ++ ids).Nodup →
      (∀ id ∈ done ++ ids, id < i.blocks.length) → s.Obeys D c.frame i done →
      (passifyBlocks c ids s).outcome = .ok s' → s'.Obeys D c.frame i (done ++ ids)
  | [], done, _, _, _, _, h, hs => by
    cases hs
    rwa [List.append_nil]
  | id :: ids, done, _, _, hnodup, hlt, h, hs => by
    rw [passifyBlocks] at hs
    obtain ⟨s₁, hs₁, hs⟩ := Minting.bind_eq_ok.1 hs
    have hlt_id : id < i.blocks.length := hlt id (by simp)
    have hid : id ∉ done := fun hmem =>
      (List.nodup_append.1 hnodup).2.2 id hmem id List.mem_cons_self rfl
    have h₁ := passifyBlock_obeys (fun p hp => hlt p (List.mem_append_left _ hp))
      (List.getElem?_eq_getElem hlt_id) hid h hframe (hcmds id) hs₁
    have hsplit : done ++ id :: ids = done ++ [id] ++ ids := by simp
    rw [hsplit] at hnodup hlt ⊢
    exact passifyBlocks_obeys hframe hcmds hnodup hlt h₁ hs

end

/-! ## Bodies -/

mutual

/-- The conditions on the locals of the scopes in a command may be assumed. -/
theorem assumed_of_mem_scopeLocals {v : Variable} : ∀ {c : Cmd}, c.Obeys D → v ∈ scopeLocals c →
    ∀ w, v.whereClause = some w → D.assumed w
  | .scope _ _, h, hv => by
    rcases List.mem_append.1 hv with hv | hv
    · exact h.1 v hv
    · exact assumed_of_mem_scopeLocalsAll h.2 hv
  | .assert _, _, hv | .assume _, _, hv | .assign _, _, hv | .havoc _, _, hv | .call _ _ _, _, hv
  | .comment _, _, hv => by cases hv

/-- The same for several commands. -/
theorem assumed_of_mem_scopeLocalsAll {v : Variable} : ∀ {cs : List Cmd}, Cmd.ObeysAll D cs →
    v ∈ scopeLocalsAll cs → ∀ w, v.whereClause = some w → D.assumed w
  | _ :: _, h, hv => by
    rcases List.mem_append.1 hv with hv | hv
    · exact assumed_of_mem_scopeLocals h.1 hv
    · exact assumed_of_mem_scopeLocalsAll h.2 hv

end

/-- At the start the conditions in force are those on globals, on the variables of the body and on
the locals of its scopes. -/
theorem initialVersions_obeys {p : Program} {i : Implementation}
    (hdeclared : ∀ v ∈ p.globals ++ i.inputs ++ i.outputs ++ i.locals, ∀ w,
      v.whereClause = some w → D.assumed w)
    (hcmds : ∀ id, Cmd.ObeysAll D (i.cmdsAt id)) : (initialVersions p i).Obeys D := by
  intro x w hw
  obtain ⟨v, hv, hw⟩ := Option.bind_eq_some_iff.1 hw
  obtain ⟨v, hmem, heq⟩ := List.mem_map.1 (NameMap.mem_of_find?_ofList hv)
  obtain ⟨-, rfl⟩ := Prod.ext_iff.1 heq
  rcases List.mem_append.1 hmem with hmem | hmem
  · exact hdeclared _ hmem w hw
  · obtain ⟨b, hb, hmem⟩ := List.mem_flatMap.1 hmem
    obtain ⟨id, hid⟩ := List.mem_iff_getElem?.1 hb
    have hat := hcmds id
    rw [Implementation.cmdsAt, hid] at hat
    exact assumed_of_mem_scopeLocalsAll hat hmem w hw

/-- The values on entry that stand for globals. -/
theorem atomic_frame (xs : List Name) :
    NameMap.Atomic (.ofList (xs.map fun g => (g, .symbol g))) := by
  intro x a ha
  obtain ⟨g, -, heq⟩ := List.mem_map.1 (NameMap.mem_of_find?_ofList ha)
  cases heq
  exact isAtomic_symbol x

/-- What a body becomes whose commands, and the conditions on variables, keep to a discipline. -/
theorem passify_obeys {l : Lexicon} {prune : Bool} {p : Program} {q : Procedure} {e : SingleExit}
    {b : PassiveImplementation} (hversions : (initialVersions p e.body).Obeys D)
    (hcmds : ∀ id, Cmd.ObeysAll D (e.body.cmdsAt id))
    (hb : (passify l prune p q e).outcome = .ok b) :
    b.body.outline = e.body.outline ∧ (b.body.entry = e.body.entry ∧ b.body.name = e.body.name) ∧
      e.body.IsTopologicalOrder b.order ∧
      (∀ id, id ∉ b.order → b.body.cmdsAt id = e.body.cmdsAt id) ∧
      ∀ id ∈ b.order, TurnsInto D (.ofList (q.modifies.map fun g => (g, .symbol g)))
        (e.body.cmdsAt id) (b.body.cmdsAt id) := by
  obtain ⟨order, s, horder, hblocks, hreturn, rfl⟩ := passify_eq_ok.1 hb
  have htopological := Implementation.isTopologicalOrder horder
    (Implementation.entry_lt_length horder (mem_of_filter_isReturn_eq hreturn))
  have hnodup : ([] ++ order).Nodup := htopological.nodup
  have hdone := passifyBlocks_obeys (atomic_frame q.modifies) hcmds hnodup htopological.lt_length
    (.start hversions) hblocks
  refine ⟨?_, ?_, htopological, fun id hid => ?_, fun id hid => ?_⟩
  · unfold Implementation.outline
    rw [blocks_declareVersions]
    exact hdone.outline
  · rw [entry_declareVersions, name_declareVersions]
    obtain ⟨blocks, hbody⟩ := hdone.body
    rw [hbody]
    exact ⟨rfl, rfl⟩
  · rw [cmdsAt_declareVersions]
    exact hdone.rest id hid
  · rw [cmdsAt_declareVersions]
    exact hdone.cmds id hid

end Passive

end Obligations
