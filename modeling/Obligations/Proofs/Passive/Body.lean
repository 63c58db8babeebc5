import Obligations.Proofs.Implementation.Order
import Obligations.Proofs.Outcome
import Obligations.Proofs.Passive.Liveness
import Obligations.Proofs.Passive.Scope

/-!
# Passive bodies

Blocks are passified one after another in a topological order. The invariant
(`Passive.Scene.Reached`) is about all paths from the entry through the blocks passified so far: the
passive commands along such a path simulate the commands along it, up to what is live at its end. A
block that follows adds assumptions at the ends of its predecessors and then its own passive
commands (`Passive.passifyBlock_reached`). The assumptions do not disturb other paths, since a predecessor
that gets any leads to no other block.
-/

namespace Obligations.Passive

variable {I : Interpretation} {S : Scene I} {c : Setting} {i : Implementation}
  {order done rest : List Nat} {live : Nat → List Name} {s s₁ s' : Advance}

/-- The names of the locals that the scopes in some blocks declare. -/
def localsOf (i : Implementation) (ids : List Nat) : List Name :=
  ids.flatMap fun id => (scopeLocalsAll (i.cmdsAt id)).map (·.name)

/-- A body that can be passified in a scene. -/
structure Scene.Hosts (S : Scene I) (c : Setting) (i : Implementation) (order : List Nat)
    (live : Nat → List Name) : Prop where
  /-- The order is topological. -/
  topological : i.IsTopologicalOrder order
  /-- The predecessors that blocks list are the blocks that lead to them. -/
  preds : ∀ id b, i.blocks[id]? = some b → ∀ p, p ∈ b.preds ↔ id ∈ i.successors p
  /-- An edge leads from a block with one successor or to a block with one predecessor. -/
  edges : ∀ p id, id ∈ i.successors p →
    (∀ next ∈ i.successors p, next = id) ∨ ∀ q, id ∈ i.successors q → q = p
  /-- The commands read and write names in force only. -/
  cmds : ∀ id, Cmd.ScopedAll S.declarations S.outer (i.cmdsAt id)
  /-- There are no calls. -/
  callees : ∀ id, Cmd.calleesAll (i.cmdsAt id) = []
  /-- The locals of scopes are declared as they stand. -/
  fresh : ∀ id, S.Fresh S.outer (scopeLocalsAll (i.cmdsAt id))
  /-- The scopes of different blocks have different locals. -/
  disjoint : ∀ id id', id ≠ id' → ∀ v ∈ scopeLocalsAll (i.cmdsAt id),
    ∀ v' ∈ scopeLocalsAll (i.cmdsAt id'), v.name ≠ v'.name
  /-- What stands for the values on entry is what the scene says. -/
  frame : c.frame = S.frame
  /-- What is live covers what can still be read. -/
  live : c.Covers S.declarations i order S.outer live

namespace Scene.Hosts

/-- The names in force outside of all scopes are in use, whatever blocks have been passified. -/
theorem inForce (h : S.Hosts c i order live) (done : List Nat) :
    S.InForce (S.outer ++ localsOf i done) S.outer where
  declared x hx := by
    rcases List.mem_append.mp hx with hx | hx
    · exact S.declared_of_outer x hx
    · obtain ⟨id, -, hx⟩ := List.mem_flatMap.mp hx
      obtain ⟨v, hv, rfl⟩ := List.mem_map.mp hx
      exact (h.fresh id).declared v hv
  used _ hx := List.mem_append_left _ hx
  outer _ hx := List.mem_append_left _ hx

/-- The locals of the scopes of a block can come into force after those of other blocks. -/
theorem fresh_of_not_mem (h : S.Hosts c i order live) {id : Nat} (hid : id ∉ done) :
    S.Fresh (S.outer ++ localsOf i done) (scopeLocalsAll (i.cmdsAt id)) where
  nodup := (h.fresh id).nodup
  new v hv hmem := by
    rcases List.mem_append.mp hmem with hmem | hmem
    · exact (h.fresh id).new v hv hmem
    · obtain ⟨id', hid', hmem⟩ := List.mem_flatMap.mp hmem
      obtain ⟨v', hv', heq⟩ := List.mem_map.mp hmem
      exact h.disjoint id' id (fun heq => hid (heq ▸ hid')) v' hv' v hv heq
  declared := (h.fresh id).declared
  find?_eq := (h.fresh id).find?_eq

end Scene.Hosts

/-- What holds after some blocks have been passified. -/
structure Scene.Reached (S : Scene I) (i : Implementation) (live : Nat → List Name)
    (done : List Nat) (s : Advance) : Prop where
  /-- The body has changed in its commands only. -/
  outline : s.body.outline = i.outline
  /-- The commands of the other blocks are as they were. -/
  rest : ∀ id, id ∉ done → s.body.cmdsAt id = i.cmdsAt id
  /-- The versions are those of declared names. -/
  tracks : S.Tracks s.versions
  /-- The blocks that have been passified have maps. -/
  mem_iff : ∀ id, id ∈ done ↔ ∃ m, s.exitMaps.lookup id = some m
  /-- Their maps are sound. -/
  sound : ∀ id m, s.exitMaps.lookup id = some m →
    S.Sound (S.outer ++ localsOf i done) S.outer s.versions m
  /-- The passive commands along a path to a block that has been passified simulate the commands
  along it. -/
  simulates : ∀ ids last m, i.Path i.entry ids last → s.exitMaps.lookup last = some m →
    Simulates S (· ∈ S.outer) (S.Represents .empty (· ∈ S.outer)) (i.cmdsAlong ids)
      (s.body.cmdsAlong ids) (s.versions.Used (S.outer ++ localsOf i done))
      (S.Represents m fun x => x ∈ live last ∧ x ∈ S.outer)

/-- At the start no block has been passified. -/
theorem Scene.Reached.start {versions : Versions} (htracks : S.Tracks versions) :
    S.Reached i live [] ⟨i, versions, []⟩ where
  outline := rfl
  rest _ _ := rfl
  tracks := htracks
  mem_iff id := ⟨fun h => (by cases h), fun ⟨_, h⟩ => (by cases h)⟩
  sound _ _ h := by cases h
  simulates _ _ _ _ h := by cases h

/-! ## One block -/

/-- The predecessors of a block that have been passified, with their maps. -/
def incomingOf (b : Block) (s : Advance) : List Incoming :=
  b.preds.filterMap fun p => (s.exitMaps.lookup p).map fun m => (p, m)

theorem mem_incomingOf {b : Block} {q : Incoming} :
    q ∈ incomingOf b s ↔ q.1 ∈ b.preds ∧ s.exitMaps.lookup q.1 = some q.2 := by
  unfold incomingOf
  rw [List.mem_filterMap]
  constructor
  · rintro ⟨p, hp, heq⟩
    obtain ⟨m, hm, rfl⟩ := Option.map_eq_some_iff.mp heq
    exact ⟨hp, hm⟩
  · rintro ⟨hp, hm⟩
    refine ⟨q.1, hp, ?_⟩
    rw [hm]
    rfl

/-- A block gets its passive commands, and what stands for each variable at its end is kept. -/
def Advance.finish (s : Advance) (id : Nat) (p : Progress) : Advance :=
  ⟨s.body.modifyBlock id fun b => { b with cmds := p.cmds }, p.versions, (id, p.map) :: s.exitMaps⟩

/-- A block is passified in two steps: its predecessors are reconciled, and then its commands become
passive. -/
theorem passifyBlock_eq_ok {id : Nat} {b : Block} {map : NameMap Expr} {p : Progress}
    (hb : s.body.blocks[id]? = some b)
    (hstart : (startMap c id b.label (incomingOf b s) s).outcome = .ok (map, s₁))
    (hpass : (passifyCmds c.frame b.label b.cmds ⟨s₁.versions, map, []⟩).outcome = .ok p) :
    (passifyBlock c id s).outcome = .ok (s₁.finish id p) := by
  unfold passifyBlock
  rw [hb]
  simp only [Minting.outcome_bind]
  change (startMap c id b.label (incomingOf b s) s).outcome >>= _ = _
  rw [hstart]
  change (passifyCmds c.frame b.label b.cmds ⟨s₁.versions, map, []⟩).outcome >>= _ = _
  rw [hpass]
  rfl

/-- What a block is passified to is made of what its predecessors agree on and its commands. -/
theorem passifyBlock_cases {id : Nat} {b : Block} (hb : s.body.blocks[id]? = some b)
    (h : (passifyBlock c id s).outcome = .ok s') : ∃ map s₁ r,
      (startMap c id b.label (incomingOf b s) s).outcome = .ok (map, s₁) ∧
      (passifyCmds c.frame b.label b.cmds ⟨s₁.versions, map, []⟩).outcome = .ok r ∧
      s' = s₁.finish id r := by
  unfold passifyBlock at h
  rw [hb] at h
  obtain ⟨⟨map, s₁⟩, hstart, h⟩ := Minting.bind_eq_ok.1 h
  obtain ⟨r, hcmds, h⟩ := Minting.bind_eq_ok.1 h
  cases h
  exact ⟨map, s₁, r, hstart, hcmds, rfl⟩

theorem outline_finish (s : Advance) (id : Nat) (p : Progress) :
    (s.finish id p).body.outline = s.body.outline :=
  s.body.outline_modifyBlock id fun _ => p.cmds

theorem cmdsAt_finish {id : Nat} {p : Progress} (hlt : id < s.body.blocks.length) (q : Nat) :
    (s.finish id p).body.cmdsAt q = if q = id then p.cmds else s.body.cmdsAt q :=
  Implementation.cmdsAt_modifyBlock hlt (fun _ => p.cmds) q

/-- The commands along a path that does not come to the block stay the same. -/
theorem cmdsAlong_finish {id : Nat} {p : Progress} (hlt : id < s.body.blocks.length)
    {ids : List Nat} (hids : id ∉ ids) :
    (s.finish id p).body.cmdsAlong ids = s.body.cmdsAlong ids := by
  refine Implementation.cmdsAlong_congr fun q hq => ?_
  rw [cmdsAt_finish hlt, if_neg]
  rintro rfl
  exact hids hq

theorem lookup_finish (s : Advance) (id : Nat) (p : Progress) (q : Nat) :
    (s.finish id p).exitMaps.lookup q = if q = id then some p.map else s.exitMaps.lookup q := by
  unfold Advance.finish
  rw [List.lookup_cons]
  by_cases hq : q = id
  · simp [hq]
  · have hbeq : (q == id) = false := by simpa using hq
    rw [hbeq, if_neg hq]

section

variable {id : Nat} {b : Block} (h : S.Hosts c i order live) (horder : order = done ++ id :: rest)
  (hs : S.Reached i live done s) (hb : i.blocks[id]? = some b)

include h horder in
/-- The next block of an order has not been passified. -/
theorem Scene.Hosts.not_mem : id ∉ done := by
  intro hmem
  have hnodup := h.topological.nodup
  rw [horder, List.nodup_append] at hnodup
  exact hnodup.2.2 id hmem id List.mem_cons_self rfl

include h horder hs

/-- A block that has been passified exists. -/
theorem Scene.Reached.lt_length {p : Nat} {m : NameMap Expr} (hm : s.exitMaps.lookup p = some m) :
    p < i.blocks.length := by
  refine h.topological.lt_length p ?_
  rw [horder]
  exact List.mem_append_left _ ((hs.mem_iff p).2 ⟨m, hm⟩)

/-- What is known at the ends of the predecessors that have been passified. -/
theorem Scene.Reached.meets :
    S.Meets (S.outer ++ localsOf i done) S.outer (incomingOf b s) s where
  inForce := h.inForce done
  tracks := hs.tracks
  sound q hq := hs.sound q.1 q.2 (mem_incomingOf.1 hq).2
  functional q hq q' hq' heq := by
    have hm := (mem_incomingOf.1 hq).2
    have hm' := (mem_incomingOf.1 hq').2
    rw [heq, hm] at hm'
    exact Prod.ext heq (Option.some.inj hm').symm
  lt_length q hq := by
    rw [Implementation.length_of_outline_eq hs.outline]
    exact hs.lt_length h horder (mem_incomingOf.1 hq).2

/-- A path that ends in a block that has been passified does not come to the next block. -/
theorem Scene.Reached.not_mem_of_path {ids : List Nat} {last : Nat} {m : NameMap Expr}
    (hp : i.Path i.entry ids last) (hm : s.exitMaps.lookup last = some m) : id ∉ ids := by
  intro hid
  have hlast : last ∈ done := (hs.mem_iff last).2 ⟨m, hm⟩
  exact h.not_mem horder (h.topological.mem_done_of_path horder hp hlast id hid)

include hb

/-- The assumptions that are added for a block stand at the ends of paths only. -/
theorem Scene.Reached.cmdsAt_eq {map : NameMap Expr} {G : Name → Prop}
    (hjoin : Reconciles S (S.outer ++ localsOf i done) S.outer (incomingOf b s) (fun _ => False)
      .empty s G map s₁)
    (hsingle : (∀ q ∈ incomingOf b s, ∀ q' ∈ incomingOf b s, q' = q) → s₁ = s)
    {ids before : List Nat} {last : Nat} {m : NameMap Expr} (hp : i.Path i.entry ids last)
    (hm : s.exitMaps.lookup last = some m) (hids : ids = before ++ [last]) :
    ∀ p ∈ before, s₁.body.cmdsAt p = s.body.cmdsAt p := by
  intro p hmem
  by_cases hin : p ∈ (incomingOf b s).map (·.1)
  · obtain ⟨q, hq, rfl⟩ := List.mem_map.mp hin
    have edge : id ∈ i.successors q.1 := (h.preds id b hb q.1).1 (mem_incomingOf.1 hq).1
    obtain ⟨next, hnext, hmem'⟩ := hp.exists_next hids q.1 hmem
    have hne : next ≠ id := by
      rintro rfl
      exact hs.not_mem_of_path h horder hp hm hmem'
    -- The predecessor leads to another block too, so it is the only predecessor of this one.
    have honly : ∀ p, id ∈ i.successors p → p = q.1 :=
      (h.edges q.1 id edge).resolve_left fun hall => hne (hall next hnext)
    have heq : ∀ q' ∈ incomingOf b s, q' = q := by
      intro q' hq'
      refine (hs.meets h horder).functional q hq q' hq' (honly q'.1 ?_)
      exact (h.preds id b hb q'.1).1 (mem_incomingOf.1 hq').1
    rw [hsingle fun q₁ hq₁ q₂ hq₂ => (heq q₂ hq₂).trans (heq q₁ hq₁).symm]
  · exact hjoin.other p hin

/-- After the assumptions for a block are added, the paths to the blocks before it are still
simulated, and at the end of a predecessor the maps at its end and at the start of the block
represent the same state. -/
theorem Scene.Reached.simulates_join {map : NameMap Expr} {G : Name → Prop}
    (hjoin : Reconciles S (S.outer ++ localsOf i done) S.outer (incomingOf b s) (fun _ => False)
      .empty s G map s₁)
    (hsingle : (∀ q ∈ incomingOf b s, ∀ q' ∈ incomingOf b s, q' = q) → s₁ = s)
    {ids : List Nat} {last : Nat} {m : NameMap Expr} (hp : i.Path i.entry ids last)
    (hm : s.exitMaps.lookup last = some m) :
    Simulates S (· ∈ S.outer) (S.Represents .empty (· ∈ S.outer)) (i.cmdsAlong ids)
      (s₁.body.cmdsAlong ids) (s₁.versions.Used (S.outer ++ localsOf i done))
      (fun ν σ => S.Represents m (fun x => x ∈ live last ∧ x ∈ S.outer) ν σ ∧
        ((last, m) ∈ incomingOf b s →
          S.Represents map (fun x => (x ∈ live last ∧ x ∈ S.outer) ∧ G x) ν σ)) := by
  have hold := hs.simulates ids last m hp hm
  have hids : ∃ before, ids = before ++ [last] := by
    rcases hp.eq_single_or_concat with ⟨hids, hlast⟩ | ⟨before, p, hids, -, -⟩
    · exact ⟨[], by rw [hids, hlast, List.nil_append]⟩
    · exact ⟨before, hids⟩
  -- Only the last block of the path can get assumptions.
  obtain ⟨before, hids⟩ := hids
  have hcmds : ∀ j : Implementation,
      j.cmdsAlong ids = j.cmdsAlong before ++ j.cmdsAt last := by
    intro j
    rw [hids, Implementation.cmdsAlong_append, Implementation.cmdsAlong_singleton]
  have hbefore : s₁.body.cmdsAlong before = s.body.cmdsAlong before :=
    Implementation.cmdsAlong_congr (hs.cmdsAt_eq h horder hb hjoin hsingle hp hm hids)
  by_cases hin : (last, m) ∈ incomingOf b s
  · -- The path ends at a predecessor.
    obtain ⟨ds, hds, hsim⟩ := hjoin.simulates (last, m) hin
    have hadded : s₁.body.cmdsAlong ids = s.body.cmdsAlong ids ++ ds := by
      rw [hcmds s₁.body, hcmds s.body, hbefore, hds, List.append_assoc]
    have hX : ∀ x, x ∈ live last ∧ x ∈ S.outer → x ∈ S.outer ++ localsOf i done := fun x hx =>
      List.mem_append_left _ hx.2
    rw [hadded, ← List.append_nil (i.cmdsAlong ids)]
    refine hold.append ((hsim _ hX).mono (fun ν σ hrep => ⟨hrep, hrep.starts, ?_⟩)
      (fun _ hx => hx) fun ν σ hrep => ⟨hrep.1, fun _ => hrep.2⟩)
    exact fun x hx => hx.2.elim
  · -- The path ends elsewhere, and no block on it changes.
    have hlast : last ∉ (incomingOf b s).map (·.1) := by
      intro hmem
      obtain ⟨⟨p, m'⟩, hq, rfl⟩ := List.mem_map.mp hmem
      have hm' := (mem_incomingOf.1 hq).2
      rw [hm] at hm'
      cases hm'
      exact hin hq
    have hsame : s₁.body.cmdsAlong ids = s.body.cmdsAlong ids := by
      rw [hcmds s₁.body, hcmds s.body, hbefore, hjoin.other last hlast]
    rw [hsame]
    exact hold.mono (fun _ _ hrep => hrep) hjoin.grows fun ν σ hrep =>
      ⟨hrep, fun hmem => absurd hmem hin⟩

/-- Up to the start of a block the paths to it are simulated: what stands for the variables that the
block can still read has their values. -/
theorem Scene.Reached.simulates_start {map : NameMap Expr}
    (hjoin : Reconciles S (S.outer ++ localsOf i done) S.outer (incomingOf b s) (fun _ => False)
      .empty s (fun x => c.isLive id x = true) map s₁)
    (hsingle : (∀ q ∈ incomingOf b s, ∀ q' ∈ incomingOf b s, q' = q) → s₁ = s)
    (hempty : incomingOf b s = [] → map = .empty) {ids : List Nat}
    (hp : i.Path i.entry ids id) :
    ∃ before, ids = before ++ [id] ∧ id ∉ before ∧
      Simulates S (· ∈ S.outer) (S.Represents .empty (· ∈ S.outer)) (i.cmdsAlong before)
        (s₁.body.cmdsAlong before) (s₁.versions.Used (S.outer ++ localsOf i done))
        (S.Represents map fun x =>
          x ∈ Liveness.beforeAll S.declarations (i.cmdsAt id) (live id) ∧ x ∈ S.outer) := by
  have hid : id ∈ order := by
    rw [horder]
    exact List.mem_append_right _ List.mem_cons_self
  rcases hp.eq_single_or_concat with ⟨hids, hentry⟩ | ⟨before, p, hids, hp', edge⟩
  · -- The entry has no predecessors that control reaches.
    have hnone : incomingOf b s = [] := by
      rw [List.eq_nil_iff_forall_not_mem]
      intro q hq
      have hm := (mem_incomingOf.1 hq).2
      have hdone : q.1 ∈ done := (hs.mem_iff q.1).2 ⟨q.2, hm⟩
      have hreach : i.Reachable q.1 := (h.topological.mem_iff q.1).1 (by
        rw [horder]
        exact List.mem_append_left _ hdone)
      obtain ⟨ids', hp'⟩ := Implementation.reachable_iff_path.1 hreach
      exact hs.not_mem_of_path h horder hp' hm (hentry ▸ hp'.first_mem)
    refine ⟨[], by rw [hids, hentry, List.nil_append], fun hmem => (by cases hmem), ?_⟩
    rw [hempty hnone]
    exact Simulates.nil (fun x hx => .inl (List.mem_append_left _ hx)) fun ν σ hrep =>
      hrep.mono fun x hx => hx.2
  · have hp_order : p ∈ order := h.topological.mem_of_path hp' p hp'.last_mem
    -- Before the block the path comes to one of its predecessors.
    obtain ⟨m, hm⟩ := (hs.mem_iff p).1 (h.topological.mem_done_of_edge horder hp_order edge)
    have hq : (p, m) ∈ incomingOf b s := mem_incomingOf.2 ⟨(h.preds id b hb p).2 edge, hm⟩
    refine ⟨before, hids, hs.not_mem_of_path h horder hp' hm, ?_⟩
    refine (hs.simulates_join h horder hb hjoin hsingle hp' hm).mono (fun _ _ hrep => hrep)
      (fun _ hx => hx) fun ν σ hrep => (hrep.2 hq).mono fun x hx => ?_
    have hlive : c.isLive id x = true := h.live.before id hid x hx.2 hx.1
    exact ⟨⟨h.live.after p hp_order id edge x hx.2 hlive, hx.2⟩, hlive⟩

omit hb

/-- The next block of the order can be passified, and then what holds of the blocks before it holds
of it too. -/
theorem passifyBlock_reached :
    ∃ s', (passifyBlock c id s).outcome = .ok s' ∧ S.Reached i live (done ++ [id]) s' := by
  have hid : id ∉ done := h.not_mem horder
  have hid' : id ∈ order := by
    rw [horder]
    exact List.mem_append_right _ List.mem_cons_self
  obtain ⟨b, hb⟩ := h.topological.exists_block hid'
  have hcmds : b.cmds = i.cmdsAt id := by
    rw [Implementation.cmdsAt, hb]
    rfl
  have hblock : s.body.blocks[id]? = some b := by
    rw [Implementation.getElem?_of_outline_eq hs.outline hb, hs.rest id hid, ← hcmds]
  obtain ⟨map, s₁, hstart, hjoin, hsingle, hempty⟩ :=
    startMap_reconciles c id b.label (hs.meets h horder (b := b))
  -- The commands of the block become passive after the assumptions at its predecessors are added.
  obtain ⟨p, hpass, hbecomes⟩ := passifyCmds_becomes b.label (i.cmdsAt id)
    (L := live id) (s := ⟨s₁.versions, map, []⟩) (h.inForce done) hjoin.sound (h.cmds id)
    (h.fresh_of_not_mem hid) (h.callees id)
  obtain ⟨ds, hds, hsim⟩ := hbecomes.simulates
  rw [List.nil_append] at hds
  have hlocals : S.outer ++ localsOf i done ++ (scopeLocalsAll (i.cmdsAt id)).map (·.name) =
      S.outer ++ localsOf i (done ++ [id]) := by
    rw [localsOf, localsOf, List.flatMap_append, List.flatMap_singleton, List.append_assoc]
  rw [hlocals] at hbecomes hsim
  have hlt₁ : id < s₁.body.blocks.length := by
    rw [Implementation.length_of_outline_eq (hjoin.outline.trans hs.outline)]
    exact (List.getElem?_eq_some_iff.mp hb).1
  have hgrows : ∀ x, s.versions.Used (S.outer ++ localsOf i done) x →
      p.versions.Used (S.outer ++ localsOf i (done ++ [id])) x := fun x hx =>
    hsim.grows x (hjoin.grows x hx)
  refine ⟨s₁.finish id p, ?_, ?_, ?_, hbecomes.sound.tracks, ?_, ?_, ?_⟩
  · rw [← h.frame, ← hcmds] at hpass
    exact passifyBlock_eq_ok hblock hstart hpass
  · exact (outline_finish s₁ id p).trans (hjoin.outline.trans hs.outline)
  · -- Blocks that are still to come are as they were.
    intro q hq
    rw [List.mem_append, not_or, List.mem_singleton] at hq
    rw [cmdsAt_finish hlt₁, if_neg hq.2, hjoin.other q, hs.rest q hq.1]
    intro hmem
    obtain ⟨q', hq', rfl⟩ := List.mem_map.mp hmem
    exact hq.1 ((hs.mem_iff q'.1).2 ⟨q'.2, (mem_incomingOf.1 hq').2⟩)
  · intro q
    rw [lookup_finish, hjoin.exitMaps, List.mem_append, List.mem_singleton, hs.mem_iff]
    split_ifs with hq
    · exact iff_of_true (.inr hq) ⟨p.map, rfl⟩
    · exact or_iff_left hq
  · intro q m hm
    rw [lookup_finish, hjoin.exitMaps] at hm
    split_ifs at hm with hq
    · cases hm
      exact hbecomes.sound
    · exact (hs.sound q m hm).mono hbecomes.sound.tracks hgrows fun _ hx => hx
  · intro ids last m hp hm
    rw [lookup_finish, hjoin.exitMaps] at hm
    split_ifs at hm with hlast
    · cases hm
      subst hlast
      -- A path to the block comes to its start and then goes through its commands.
      obtain ⟨before, rfl, hbefore, hsim'⟩ :=
        hs.simulates_start h horder hb hjoin hsingle hempty hp
      rw [Implementation.cmdsAlong_append, Implementation.cmdsAlong_append,
        cmdsAlong_finish hlt₁ hbefore, Implementation.cmdsAlong_singleton,
        Implementation.cmdsAlong_singleton, cmdsAt_finish hlt₁, if_pos rfl, hds]
      exact hsim'.append hsim
    · -- Other paths do not come to the block.
      rw [cmdsAlong_finish hlt₁ (hs.not_mem_of_path h horder hp hm)]
      exact (hs.simulates_join h horder hb hjoin hsingle hp hm).mono (fun _ _ hrep => hrep)
        hsim.grows fun _ _ hrep => hrep.1

end

/-- All blocks of an order can be passified in turn. -/
theorem passifyBlocks_reached (h : S.Hosts c i order live) :
    ∀ (rest : List Nat) {done : List Nat} {s : Advance}, order = done ++ rest →
      S.Reached i live done s →
      ∃ s', (passifyBlocks c rest s).outcome = .ok s' ∧ S.Reached i live order s'
  | [], done, s, horder, hs => by
    rw [List.append_nil] at horder
    exact ⟨s, rfl, horder ▸ hs⟩
  | id :: rest, done, s, horder, hs => by
    obtain ⟨s₁, hout, hs₁⟩ := passifyBlock_reached h horder hs
    have horder' : order = done ++ [id] ++ rest := by
      rw [horder, List.append_assoc, List.singleton_append]
    obtain ⟨s', hout', hs'⟩ := passifyBlocks_reached h rest horder' hs₁
    refine ⟨s', ?_, hs'⟩
    rw [passifyBlocks, Minting.outcome_bind, hout]
    exact hout'

/-! ## Bodies -/

/-- What stays the same while a body is passified. -/
def settingOf (l : Lexicon) (prune : Bool) (p : Program) (q : Procedure) (i : Implementation)
    (order : List Nat) : Setting where
  lexicon := l
  frame := .ofList (q.modifies.map fun g => (g, .symbol g))
  liveness := if prune then some (Liveness.ofOrder (declarations p i) i order) else none

/-- Declaring versions changes the locals only. -/
theorem exists_declareVersions (i : Implementation) (s : Versions) :
    ∃ locals, declareVersions i s = { i with locals } := by
  have hfold : ∃ locals, s.scopeLocals.foldl (fun i v =>
      if (i.lookup? v.name).isSome then i else { i with locals := i.locals ++ [v] }) i =
        { i with locals } := by
    refine List.foldlRecOn (motive := fun j : Implementation => ∃ locals, j = { i with locals }) _ _
      ⟨i.locals, rfl⟩ ?_
    rintro _ ⟨locals, rfl⟩ v -
    split_ifs
    · exact ⟨locals, rfl⟩
    · exact ⟨_, rfl⟩
  obtain ⟨locals, h⟩ := hfold
  unfold declareVersions
  rw [h]
  exact ⟨_, rfl⟩

theorem blocks_declareVersions (i : Implementation) (s : Versions) :
    (declareVersions i s).blocks = i.blocks := by
  obtain ⟨locals, h⟩ := exists_declareVersions i s
  rw [h]

theorem cmdsAt_declareVersions (i : Implementation) (s : Versions) (id : Nat) :
    (declareVersions i s).cmdsAt id = i.cmdsAt id := by
  rw [Implementation.cmdsAt, blocks_declareVersions]
  rfl

theorem entry_declareVersions (i : Implementation) (s : Versions) :
    (declareVersions i s).entry = i.entry := by
  obtain ⟨locals, h⟩ := exists_declareVersions i s
  rw [h]

theorem name_declareVersions (i : Implementation) (s : Versions) :
    (declareVersions i s).name = i.name := by
  obtain ⟨locals, h⟩ := exists_declareVersions i s
  rw [h]

/-- A body is passified if its blocks have an order and can be passified, and if control leaves it at
the exit only. -/
theorem passify_eq_ok {l : Lexicon} {prune : Bool} {p : Program} {q : Procedure} {e : SingleExit}
    {b : PassiveImplementation} : (passify l prune p q e).outcome = .ok b ↔
      ∃ order s, e.body.topologicalOrder = .ok order ∧
        (passifyBlocks (settingOf l prune p q e.body order) order
          ⟨e.body, initialVersions p e.body, []⟩).outcome = .ok s ∧
        order.filter (fun id =>
          (s.body.blocks[id]?.map (·.transfer.isReturn)).getD false) = [e.exit] ∧
        b = ⟨declareVersions s.body s.versions, order, e.exit,
          (s.exitMaps.lookup e.exit).getD .empty, s.versions.origins, e.replaced⟩ := by
  constructor
  · intro h
    obtain ⟨order, horder, h⟩ := Minting.bind_eq_ok.1 h
    obtain ⟨s, hblocks, h⟩ := Minting.bind_eq_ok.1 h
    refine ⟨order, s, mapError_eq_ok.1 horder, hblocks, ?_⟩
    -- The blocks of the order that return are compared with the exit given.
    split at h
    case h_2 => cases h
    case h_1 exit hexit =>
      split_ifs at h with heq
      · cases h
        exact ⟨heq ▸ hexit, by rw [heq]⟩
      · cases h
  · rintro ⟨order, s, horder, hblocks, hreturn, rfl⟩
    refine Minting.bind_eq_ok.2 ⟨order, mapError_eq_ok.2 horder,
      Minting.bind_eq_ok.2 ⟨s, hblocks, ?_⟩⟩
    rw [hreturn]
    exact congrArg Minting.outcome (if_pos rfl)

/-- The exit of a passified body is one of its blocks in the order. -/
theorem mem_of_filter_isReturn_eq {i : Implementation} {order : List Nat} {exit : Nat}
    (h : order.filter (fun id => (i.blocks[id]?.map (·.transfer.isReturn)).getD false) = [exit]) :
    exit ∈ order :=
  (List.mem_filter.1 (h ▸ List.mem_singleton_self exit)).1

end Obligations.Passive
