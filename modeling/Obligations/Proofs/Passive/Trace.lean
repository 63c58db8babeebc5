import Mathlib.Data.List.Flatten
import Obligations.Proofs.Implementation.Edges
import Obligations.Proofs.Passive.Body
import Obligations.Proofs.Passive.Step

/-!
# The steps along the paths of a passive body

The steps of a block are those of its own commands and, at its end, the equalities for the versions
that a join makes (`Passive.stepsAt`). What becomes of a block where it is passified is its trace
(`Passive.traceBlock`), and `Passive.Charted` says of the blocks passified so far what their traces
have to do with one another and with the body: the versions made are those of the traces, each one
once; what stands for variables at the start of a block stands for them at the end of each
predecessor, or is a version that the block makes and each predecessor defines at its end. Since a
path through the body visits blocks in their order, the versions defined along it are among the
versions made, in the order in which they are made (`Passive.Charted.sublist_made`).
-/

namespace Obligations.Passive

/-- What becomes of a block. -/
structure BlockTrace where
  /-- What stands for each variable where control comes into the block. -/
  start : NameMap Expr
  /-- The versions that are made there, one for each dispute of its predecessors. -/
  joined : List Name
  /-- The steps of its commands. -/
  own : List Step

/-- The versions that are made for a block. -/
def BlockTrace.made (t : BlockTrace) : List Name := t.joined ++ t.own.flatMap Step.defines

/-- What becomes of a block that is passified after others. -/
def traceBlock (c : Setting) (id : Nat) (s : Advance) : BlockTrace :=
  match s.body.blocks[id]? with
  | none => ⟨.empty, [], []⟩
  | some b =>
    match (startMap c id b.label (incomingOf b s) s).outcome with
    | .error _ => ⟨.empty, [], []⟩
    | .ok (map, s') => ⟨map, minted s.versions s'.versions,
      stepsOfAll c.frame b.label b.cmds ⟨s'.versions, map, []⟩⟩

/-- What becomes of several blocks that are passified in turn. -/
def traceBlocks (c : Setting) : List Nat → Advance → List (Nat × BlockTrace)
  | [], _ => []
  | id :: ids, s =>
    match (passifyBlock c id s).outcome with
    | .ok s' => (id, traceBlock c id s) :: traceBlocks c ids s'
    | .error _ => []

/-- The steps of a block of a passive body: those of its own commands, and the equalities that come
after these for the versions that a successor makes. -/
def stepsAt (j : Implementation) (own : List Step) (id : Nat) : List Step :=
  own ++ (((j.cmdsAt id).drop (own.flatMap Step.cmds).length).filterMap Cmd.condition?).map
    fun e => .equate [e]

/-! ## Joins -/

section

variable {incoming : List Incoming} {map map' : NameMap Expr} {s s' s₁ : Advance} {label x n : Name}
  {xs : List Name} {G : Name → Prop}

/-- What reconciling predecessors does: it makes some versions, each for one of the variables, and
each predecessor assumes at its end what they are equal to. -/
structure Joins (incoming : List Incoming) (xs : List Name) (map : NameMap Expr) (s : Advance)
    (pairs : List (Name × Name)) (map' : NameMap Expr) (s' : Advance) : Prop where
  /-- The versions made so far are numbered. -/
  versions : s'.versions.Numbered
  /-- The versions are made in order. -/
  made : s'.versions.made.map (·.name) = s.versions.made.map (·.name) ++ pairs.map (·.1)
  /-- Each is a version of one of the variables. -/
  disputed : ∀ q ∈ pairs, q.2 ∈ xs
  /-- The maps at the end of the blocks stay as they are. -/
  exitMaps : s'.exitMaps = s.exitMaps
  /-- The body changes in its commands only. -/
  outline : s'.body.outline = s.body.outline
  /-- It is entered at the same block. -/
  entry : s'.body.entry = s.body.entry
  /-- The predecessors get the equalities. -/
  cmds : ∀ p, s'.body.cmdsAt p =
    s.body.cmdsAt p ++ pairs.flatMap fun q => equalities incoming q.1 q.2 p
  /-- Besides what stood for variables the versions stand for them. -/
  map : ∀ G, map.Over G → map'.Over fun n => G n ∨ n ∈ pairs.map (·.1)

theorem reconcileAll_joins {isLive : Name → Bool} (hs : s.versions.Numbered)
    (hlt : ∀ q ∈ incoming, q.1 < s.body.blocks.length) (hxs : ∀ x ∈ xs, x.Versionless)
    (h : (reconcileAll isLive label incoming xs map s).outcome = .ok (map', s')) :
    ∃ pairs, Joins incoming xs map s pairs map' s' := by
  induction xs generalizing map s with
  | nil =>
    cases h
    exact ⟨[], hs, (List.append_nil _).symm, fun q hq => absurd hq List.not_mem_nil, rfl, rfl, rfl,
      fun p => (List.append_nil _).symm, fun G hmap => hmap.mono fun _ => .inl⟩
  | cons x xs ih =>
    obtain ⟨hx, hxs⟩ := List.forall_mem_cons.1 hxs
    unfold reconcileAll at h
    split_ifs at h with hlive
    · obtain ⟨⟨n, s₁⟩, hreconcile, h⟩ := Minting.bind_eq_ok.1 h
      obtain ⟨⟨n', versions⟩, hnext, hreconcile⟩ := Minting.bind_eq_ok.1 hreconcile
      cases hreconcile
      obtain ⟨hnumbered, hmade⟩ := hs.next hnext
      obtain ⟨houtline, hcmds⟩ := foldl_pushCmd n x incoming s.body hlt
      obtain ⟨blocks, hblocks⟩ := exists_foldl_pushCmd incoming
        (fun q => .assume (.binary .eq (.symbol n) (standsFor q.2 x))) s.body
      obtain ⟨pairs, hpairs⟩ := ih (s := ⟨incoming.foldl (fun i q =>
        i.pushCmd q.1 (.assume (.binary .eq (.symbol n) (standsFor q.2 x)))) s.body, versions,
        s.exitMaps⟩) hnumbered (fun q hq => by
          rw [Implementation.length_of_outline_eq houtline]
          exact hlt q hq) hxs h
      -- The equalities on this variable come before those on the later ones, in every predecessor.
      refine ⟨(n, x) :: pairs, hpairs.versions, ?_, ?_, hpairs.exitMaps,
        hpairs.outline.trans houtline, hpairs.entry.trans (congrArg (·.entry) hblocks), fun p => ?_,
        fun G hmap => ?_⟩
      · rw [hpairs.made, List.map_cons]
        exact (congrArg (· ++ _) hmade).trans (List.append_assoc _ _ _)
      · refine List.forall_mem_cons.2 ⟨List.mem_cons_self, fun q hq => ?_⟩
        exact List.mem_cons_of_mem _ (hpairs.disputed q hq)
      · rw [hpairs.cmds, List.flatMap_cons, ← List.append_assoc]
        exact congrArg (· ++ _) (hcmds p)
      · -- The version stands for the variable from then on.
        have hinsert : (map.insert x (.symbol n)).Over fun m => G m ∨ m = n :=
          (hmap.mono fun _ => .inl).insert hx fun m hm => .inr (Expr.mem_names_symbol.1 hm)
        refine (hpairs.map _ hinsert).mono fun m hm => ?_
        rw [List.map_cons, List.mem_cons]
        exact or_assoc.1 hm
    · obtain ⟨pairs, hpairs⟩ := ih hs hlt hxs h
      exact ⟨pairs, { hpairs with
        disputed := fun q hq => List.mem_cons_of_mem _ (hpairs.disputed q hq) }⟩

/-- What is kept at a join stands for the variable at each predecessor. -/
theorem kept_over {l : Lexicon} {q : Incoming} (hq : q ∈ incoming) (h : q.2.Over G) :
    (kept l incoming).Over G := by
  intro x e he
  rw [find?_kept] at he
  split_ifs at he
  exact h x e (find?_of_agreed? he q hq)

theorem kept_over_of_nil {l : Lexicon} (h : incoming = []) : (kept l incoming).Over G := by
  intro x e he
  obtain ⟨q, hq, -⟩ := exists_of_find?_kept he
  rw [h] at hq
  cases hq

/-- A predecessor that is listed once assumes one equality for a version. -/
theorem equalities_eq_singleton (hnodup : (incoming.map (·.1)).Nodup) {q : Incoming}
    (hq : q ∈ incoming) :
    equalities incoming n x q.1 = [.assume (.binary .eq (.symbol n) (standsFor q.2 x))] := by
  unfold equalities
  rw [filter_eq_singleton Prod.fst hnodup hq, List.map_singleton]

theorem Joins.cmdsAt_eq {pairs : List (Name × Name)} {p : Nat}
    (h : Joins incoming xs map s pairs map' s') (hp : p ∉ incoming.map (·.1)) :
    s'.body.cmdsAt p = s.body.cmdsAt p := by
  have hnil : (pairs.flatMap fun q => equalities incoming q.1 q.2 p) = [] :=
    List.flatMap_eq_nil_iff.2 fun _ _ => equalities_eq_nil hp
  rw [h.cmds, hnil, List.append_nil]

theorem nodup_incomingOf {b : Block} (h : b.preds.Nodup) : ((incomingOf b s).map (·.1)).Nodup := by
  refine h.sublist ?_
  unfold incomingOf
  rw [List.map_filterMap]
  have hself : ∀ p, ((s.exitMaps.lookup p).map fun m => (p, m)).map (·.1) = some p ∨
      ((s.exitMaps.lookup p).map fun m => (p, m)).map (·.1) = none := by
    intro p
    cases s.exitMaps.lookup p with
    | none => exact .inr rfl
    | some m => exact .inl rfl
  induction b.preds with
  | nil => exact .slnil
  | cons p ps ih =>
    rw [List.filterMap_cons]
    rcases hself p with hp | hp
    · rw [hp]
      exact ih.cons_cons p
    · rw [hp]
      exact ih.cons p

end

/-! ## Blocks -/

/-- A body that can be passified block by block: its blocks have an order, no edge is critical, and
its commands read and write base names only. -/
structure Layout (c : Setting) (i : Implementation) (order : List Nat) : Prop where
  /-- The order is topological. -/
  topological : i.IsTopologicalOrder order
  /-- The predecessors that blocks list are those that lead to them. -/
  consistent : i.inconsistentBlock? = none
  /-- No edge is critical. -/
  uncritical : ∀ id, i.Uncritical id
  /-- The commands read and write base names. -/
  cmds : ∀ id, Cmd.WithinAll .versionless (i.cmdsAt id)
  /-- So does what stands for the values on entry. -/
  frame : c.frame.Over Name.Versionless

/-- The equalities at the end of a block whose map is `m`: they define the versions that are made
for a successor, and read what stands for variables at the end of the block. -/
structure Closing (i : Implementation) (T : Nat → BlockTrace) (done : List Nat) (id : Nat)
    (m : NameMap Expr) (es : List Expr) : Prop where
  /-- They read what stands for variables, and the version that they are for. -/
  reads : ∀ G : Name → Prop, (∀ n : Name, n.Versionless → G n) → m.Over G →
    ∀ e ∈ es, ∀ n ∈ e.names, G n ∨ leftSide? e = some n
  /-- They define the versions that are made for a successor. -/
  defines : ∀ next ∈ done, next ∈ i.successors id → es.filterMap leftSide? = (T next).joined
  /-- There are none before a successor is passified. -/
  eq_nil : (∀ next ∈ i.successors id, next ∉ done) → es = []

/-- What the traces of the blocks passified so far have to do with one another and with the body. -/
structure Charted (i : Implementation) (T : Nat → BlockTrace) (done : List Nat) (s : Advance) :
    Prop where
  /-- The body has changed in its commands only. -/
  outline : s.body.outline = i.outline
  /-- It is entered at the same block. -/
  entry : s.body.entry = i.entry
  /-- The commands of the other blocks are as they were. -/
  rest : ∀ id, id ∉ done → s.body.cmdsAt id = i.cmdsAt id
  /-- The blocks that have been passified have maps. -/
  mem_iff : ∀ id, id ∈ done ↔ ∃ m, s.exitMaps.lookup id = some m
  /-- Their maps are for base names. -/
  keys : ∀ id m, s.exitMaps.lookup id = some m → m.Over fun _ => True
  /-- The versions made so far are numbered. -/
  versions : s.versions.Numbered
  /-- They are those of the traces. -/
  made : s.versions.made.map (·.name) = done.flatMap fun id => (T id).made
  /-- Versions are made for a block only if its predecessors lead nowhere else. -/
  joined : ∀ id ∈ done, (T id).joined = [] ∨ ∀ p, id ∈ i.successors p → i.successors p = [id]
  /-- What stands for variables at the start of a block stands for them at the end of every
  predecessor, or is a version that is made for the block. -/
  start : ∀ id ∈ done, ∀ p m, s.exitMaps.lookup p = some m → id ∈ i.successors p →
    ∀ G, m.Over G → (T id).start.Over fun n => G n ∨ n ∈ (T id).joined
  /-- Nothing stands for variables at the entry. -/
  start_entry : i.entry ∈ done → ∀ G, (T i.entry).start.Over G
  /-- The steps of a block define what they read first. -/
  own : ∀ id m, s.exitMaps.lookup id = some m → ∀ G : Name → Prop,
    (∀ n : Name, n.Versionless → G n) → (T id).start.Over G →
    DefinesFirst G (T id).own ∧ m.Over (Given G (T id).own)
  /-- The commands of a block are those of its own steps and equalities. -/
  cmds : ∀ id m, s.exitMaps.lookup id = some m → ∃ es : List Expr,
    s.body.cmdsAt id = (T id).own.flatMap Step.cmds ++ es.map .assume ∧ Closing i T done id m es

/-- At the start no block has been passified. -/
theorem Charted.start_nil {i : Implementation} {T : Nat → BlockTrace} {versions : Versions}
    (hversions : versions.Numbered) (hmade : versions.made = []) :
    Charted i T [] ⟨i, versions, []⟩ where
  outline := rfl
  entry := rfl
  rest _ _ := rfl
  mem_iff id := ⟨fun h => (by cases h), fun ⟨_, h⟩ => (by cases h)⟩
  keys _ _ h := by cases h
  versions := hversions
  made := by
    rw [hmade]
    rfl
  joined _ h := by cases h
  start _ h := by cases h
  start_entry h := by cases h
  own _ _ h := by cases h
  cmds _ _ h := by cases h

section

variable {c : Setting} {i : Implementation} {T : Nat → BlockTrace} {order done rest : List Nat}
  {s s' s₁ : Advance} {id p : Nat} {b : Block} {m map : NameMap Expr} {pairs : List (Name × Name)}

/-- The equalities of a predecessor for some versions. -/
def equalitiesOf (m : NameMap Expr) (pairs : List (Name × Name)) : List Expr :=
  pairs.map fun q => .binary .eq (.symbol q.1) (standsFor m q.2)

theorem leftSides_equalitiesOf :
    (equalitiesOf m pairs).filterMap leftSide? = pairs.map (·.1) := by
  induction pairs with
  | nil => rfl
  | cons q pairs ih => exact congrArg (q.1 :: ·) ih

theorem reads_equalitiesOf {G : Name → Prop} (hG : ∀ n : Name, n.Versionless → G n)
    (hm : m.Over G) (hpairs : ∀ q ∈ pairs, q.2.Versionless) :
    ∀ e ∈ equalitiesOf m pairs, ∀ n ∈ e.names, G n ∨ leftSide? e = some n := by
  intro e he n hn
  obtain ⟨q, hq, rfl⟩ := List.mem_map.1 he
  rcases Expr.mem_names_binary.1 hn with hn | hn
  · rw [Expr.mem_names_symbol.1 hn]
    exact .inr rfl
  · exact .inl (hm.standsFor hG (hpairs q hq) n hn)

variable (hi : Layout c i order) (horder : order = done ++ id :: rest) (hs : Charted i T done s)
  (hb : i.blocks[id]? = some b)

include hi hb in
/-- The predecessors that count are the blocks passified before that lead to the block. -/
theorem Layout.mem_incomingOf {q : Incoming} : q ∈ incomingOf b s ↔
    id ∈ i.successors q.1 ∧ s.exitMaps.lookup q.1 = some q.2 := by
  rw [Passive.mem_incomingOf, Implementation.mem_preds_iff hi.consistent hb]

include hi hb in
/-- Where no edge is critical, a join makes no version, or its predecessors lead nowhere else. -/
theorem Layout.eq_nil_or
    (hj : Joins (incomingOf b s) (disputed c.lexicon (incomingOf b s))
      (kept c.lexicon (incomingOf b s)) s pairs map s₁) :
    pairs = [] ∨ ∀ p, id ∈ i.successors p → i.successors p = [id] := by
  refine (hi.uncritical id).imp_left fun hone => List.eq_nil_iff_forall_not_mem.2 fun r hr => ?_
  -- A single predecessor is in no dispute.
  have hdisputed := hj.disputed r hr
  rw [disputed_eq_nil fun q hq q' hq' => ?_] at hdisputed
  · cases hdisputed
  · obtain ⟨edge, hm⟩ := (hi.mem_incomingOf hb).1 hq
    obtain ⟨edge', hm'⟩ := (hi.mem_incomingOf hb).1 hq'
    have heq := hone q'.1 q.1 edge' edge
    rw [heq, hm] at hm'
    exact Prod.ext heq (Option.some.inj hm').symm

include hi hb in
/-- Each predecessor gets an equality for each version, and other blocks get none. -/
theorem Layout.cmdsAt_eq
    (hj : Joins (incomingOf b s) (disputed c.lexicon (incomingOf b s))
      (kept c.lexicon (incomingOf b s)) s pairs map s₁) (hm : s.exitMaps.lookup p = some m) :
    s₁.body.cmdsAt p = s.body.cmdsAt p ++
      (if id ∈ i.successors p then equalitiesOf m pairs else []).map .assume := by
  split_ifs with edge
  · have hq : (p, m) ∈ incomingOf b s := (hi.mem_incomingOf hb).2 ⟨edge, hm⟩
    rw [hj.cmds]
    refine congrArg (s.body.cmdsAt p ++ ·) ?_
    rcases hi.eq_nil_or hb hj with rfl | hall
    · rfl
    · have hnodup := nodup_incomingOf (s := s) (Implementation.nodup_preds hi.consistent hb hall)
      unfold equalitiesOf
      rw [List.map_map, List.map_eq_flatMap]
      refine List.flatMap_congr fun q' _ => ?_
      exact equalities_eq_singleton hnodup hq
  · rw [List.map_nil, List.append_nil, hj.cmdsAt_eq]
    intro hmem
    obtain ⟨q', hq', rfl⟩ := List.mem_map.1 hmem
    exact edge ((hi.mem_incomingOf hb).1 hq').1

include hi horder

theorem Layout.not_mem : id ∉ done := by
  intro hmem
  have hnodup := hi.topological.nodup
  rw [horder, List.nodup_append] at hnodup
  exact hnodup.2.2 id hmem id List.mem_cons_self rfl

/-- The next block of an order leads to no block before it, and not to itself. -/
theorem Layout.not_mem_successors {next : Nat} (hnext : next ∈ done ++ [id]) :
    next ∉ i.successors id := by
  intro edge
  have hrest := hi.topological.successors_after done id rest horder next edge
  have hnodup := hi.topological.nodup
  rw [horder, ← List.singleton_append, ← List.append_assoc, List.nodup_append] at hnodup
  exact hnodup.2.2 next hnext next hrest rfl

include hs

theorem Charted.lt_length (hp : p ∈ done) : p < s.body.blocks.length := by
  rw [Implementation.length_of_outline_eq hs.outline]
  refine hi.topological.lt_length p ?_
  rw [horder]
  exact List.mem_append_left _ hp

include hb

/-- No block before it leads to the entry. -/
theorem Charted.incomingOf_eq_nil (hentry : id = i.entry) : incomingOf b s = [] := by
  rw [List.eq_nil_iff_forall_not_mem]
  intro q hq
  obtain ⟨-, hm⟩ := (hi.mem_incomingOf hb).1 hq
  have hdone : q.1 ∈ done := (hs.mem_iff q.1).2 ⟨q.2, hm⟩
  have hreach : i.Reachable q.1 := (hi.topological.mem_iff q.1).1 (by
    rw [horder]
    exact List.mem_append_left _ hdone)
  obtain ⟨ids, hp⟩ := Implementation.reachable_iff_path.1 hreach
  have hmem := hi.topological.mem_done_of_path horder hp hdone i.entry hp.first_mem
  exact hi.not_mem horder (hentry ▸ hmem)

/-- Nothing stands for variables at the entry. -/
theorem Charted.start_over_entry (hentry : i.entry = id)
    (hj : Joins (incomingOf b s) (disputed c.lexicon (incomingOf b s))
      (kept c.lexicon (incomingOf b s)) s pairs map s₁) (G : Name → Prop) : map.Over G := by
  have hnone := hs.incomingOf_eq_nil hi horder hb hentry.symm
  have hpairs : pairs = [] := List.eq_nil_iff_forall_not_mem.2 fun q hq => by
    obtain ⟨q', hq', -⟩ := mem_mentioned.1 (mem_disputed.1 (hj.disputed q hq)).1
    rw [hnone] at hq'
    cases hq'
  refine (hj.map G (kept_over_of_nil hnone)).mono fun n hn => hn.resolve_right ?_
  rw [hpairs]
  exact List.not_mem_nil

omit hb in
/-- A block that leads to the next one defines nothing at its end yet. -/
theorem Charted.leftSides_eq_nil (edge : id ∈ i.successors p) {es : List Expr}
    (hes : Closing i T done p m es) : es.filterMap leftSide? = [] := by
  by_cases hnext : ∃ next ∈ done, next ∈ i.successors p
  · obtain ⟨next, hdone, hnext⟩ := hnext
    rw [hes.defines next hdone hnext]
    refine (hs.joined next hdone).resolve_right fun hall => ?_
    rw [hall p hnext, List.mem_singleton] at edge
    exact hi.not_mem horder (edge ▸ hdone)
  · rw [hes.eq_nil fun next hnext' hdone => hnext ⟨next, hdone, hnext'⟩]
    rfl

omit hb in
/-- The equalities at the end of a block that was passified before. -/
theorem Charted.closing (hjoined : (T id).joined = pairs.map (·.1))
    (hpairs : ∀ q ∈ pairs, q.2.Versionless)
    (honly : pairs = [] ∨ ∀ p, id ∈ i.successors p → i.successors p = [id]) {es : List Expr}
    (hes : Closing i T done p m es) : Closing i T (done ++ [id]) p m
      (es ++ if id ∈ i.successors p then equalitiesOf m pairs else []) where
  reads G hG hm e he n hn := by
    rcases List.mem_append.1 he with he | he
    · exact hes.reads G hG hm e he n hn
    · split_ifs at he
      · exact reads_equalitiesOf hG hm hpairs e he n hn
      · cases he
  defines next hnext edge := by
    rw [List.filterMap_append]
    by_cases hid : id ∈ i.successors p
    · have hnil := hs.leftSides_eq_nil hi horder hid hes
      rw [if_pos hid, leftSides_equalitiesOf, hnil, List.nil_append]
      rcases List.mem_append.1 hnext with hdone | hnext
      · -- The block leads to two blocks, so that no version is made for either of them.
        rw [← hes.defines next hdone edge, hnil, List.map_eq_nil_iff]
        refine honly.resolve_right fun hall => ?_
        rw [hall p hid, List.mem_singleton] at edge
        exact hi.not_mem horder (edge ▸ hdone)
      · rw [List.mem_singleton.1 hnext, hjoined]
    · rw [if_neg hid, List.filterMap_nil, List.append_nil]
      rcases List.mem_append.1 hnext with hdone | hnext
      · exact hes.defines next hdone edge
      · exact absurd (List.mem_singleton.1 hnext ▸ edge) hid
  eq_nil hnone := by
    rw [if_neg fun hid => hnone id hid (by simp), List.append_nil]
    exact hes.eq_nil fun next hnext hdone => hnone next hnext (List.mem_append_left _ hdone)

/-- The next block of an order is passified in two steps: joins make versions, and then the steps of
its trace lead to its end. -/
theorem Charted.exists_joins (hT : T id = traceBlock c id s)
    (h : (Passive.passifyBlock c id s).outcome = .ok s') : ∃ pairs s₁ r,
      Joins (incomingOf b s) (disputed c.lexicon (incomingOf b s))
        (kept c.lexicon (incomingOf b s)) s pairs (T id).start s₁ ∧
      (T id).joined = pairs.map (·.1) ∧ (∀ q ∈ pairs, q.2.Versionless) ∧
      (∀ G : Name → Prop, (∀ n : Name, n.Versionless → G n) → (T id).start.Over G →
        Leads G ⟨s₁.versions, (T id).start, []⟩ (T id).own r) ∧
      (T id).start.Over (fun _ => True) ∧ s' = s₁.finish id r := by
  have hcmds : b.cmds = i.cmdsAt id := by
    rw [Implementation.cmdsAt, hb]
    rfl
  have hblock : s.body.blocks[id]? = some b := by
    rw [Implementation.getElem?_of_outline_eq hs.outline hb, hs.rest id (hi.not_mem horder), ← hcmds]
  obtain ⟨map, s₁, r, hstart, hpass, rfl⟩ := passifyBlock_cases hblock h
  have hkeys : ∀ q ∈ incomingOf b s, q.2.Over fun _ => True := fun q hq =>
    hs.keys q.1 q.2 ((hi.mem_incomingOf hb).1 hq).2
  have hlt : ∀ q ∈ incomingOf b s, q.1 < s.body.blocks.length := fun q hq =>
    hs.lt_length hi horder ((hs.mem_iff q.1).2 ⟨q.2, ((hi.mem_incomingOf hb).1 hq).2⟩)
  -- The disputed variables are base names.
  have hbase : ∀ x ∈ disputed c.lexicon (incomingOf b s), x.Versionless := by
    intro x hx
    obtain ⟨q, hq, e, he⟩ := mem_mentioned.1 (mem_disputed.1 hx).1
    exact (hkeys q hq x e he).1
  have hkept : (kept c.lexicon (incomingOf b s)).Over fun _ => True := by
    intro x e he
    obtain ⟨q, hq, he⟩ := exists_of_find?_kept he
    exact hkeys q hq x e he
  obtain ⟨pairs, hj⟩ := reconcileAll_joins hs.versions hlt hbase (startMap_eq .. ▸ hstart)
  have htrace : T id = ⟨map, pairs.map (·.1),
      stepsOfAll c.frame b.label b.cmds ⟨s₁.versions, map, []⟩⟩ := by
    unfold traceBlock at hT
    rw [hblock] at hT
    simp only [hstart] at hT
    rw [hT, minted_eq hj.made]
  rw [htrace]
  exact ⟨pairs, s₁, r, hj, rfl, fun q hq => hbase q.2 (hj.disputed q hq),
    fun G hG hmap => passifyCmds_leads hi.frame hG (hcmds ▸ hi.cmds id) hj.versions hmap hpass,
    (hj.map _ hkept).mono fun _ _ => trivial, rfl⟩

/-- The next block of an order is charted when it is passified. -/
theorem Charted.passifyBlock (hT : T id = traceBlock c id s)
    (h : (Passive.passifyBlock c id s).outcome = .ok s') : Charted i T (done ++ [id]) s' := by
  obtain ⟨pairs, s₁, r, hj, hjoined, hpairs, hleads, hkeys, rfl⟩ :=
    hs.exists_joins hi horder hb hT h
  have honly := hi.eq_nil_or hb hj
  have hleads_true := hleads _ (fun _ _ => trivial) hkeys
  have hlt : id < s₁.body.blocks.length := by
    rw [Implementation.length_of_outline_eq (hj.outline.trans hs.outline)]
    exact (List.getElem?_eq_some_iff.1 hb).1
  -- The map at the end of a block is that of this block or one from before.
  have hlookup : ∀ q m, (s₁.finish id r).exitMaps.lookup q = some m →
      q = id ∧ m = r.map ∨ q ≠ id ∧ s.exitMaps.lookup q = some m := by
    intro q m hm
    rw [lookup_finish, hj.exitMaps] at hm
    split_ifs at hm with hq
    · exact .inl ⟨hq, (Option.some.inj hm).symm⟩
    · exact .inr ⟨hq, hm⟩
  refine ⟨(outline_finish s₁ id r).trans (hj.outline.trans hs.outline), hj.entry.trans hs.entry,
    fun q hq => ?_, fun q => ?_, fun q m hm => ?_, hleads_true.versions, ?_, fun next hnext => ?_,
    fun next hnext q m hm edge G hG => ?_, fun hentry G => ?_, fun q m hm G hG hstart => ?_,
    fun q m hm => ?_⟩
  · -- Blocks that are still to come are as they were.
    rw [List.mem_append, not_or, List.mem_singleton] at hq
    rw [cmdsAt_finish hlt, if_neg hq.2, hj.cmdsAt_eq, hs.rest q hq.1]
    intro hmem
    obtain ⟨q', hq', rfl⟩ := List.mem_map.1 hmem
    exact hq.1 ((hs.mem_iff q'.1).2 ⟨q'.2, ((hi.mem_incomingOf hb).1 hq').2⟩)
  · rw [lookup_finish, hj.exitMaps, List.mem_append, List.mem_singleton, hs.mem_iff]
    split_ifs with hq
    · exact iff_of_true (.inr hq) ⟨r.map, rfl⟩
    · exact or_iff_left hq
  · rcases hlookup q m hm with ⟨-, rfl⟩ | ⟨-, hm⟩
    · exact hleads_true.map.mono fun _ _ => trivial
    · exact hs.keys q m hm
  · rw [List.flatMap_append, List.flatMap_singleton, ← hs.made, BlockTrace.made, hjoined,
      ← List.append_assoc, ← hj.made]
    exact hleads_true.made
  · rcases List.mem_append.1 hnext with hdone | hnext
    · exact hs.joined next hdone
    · rw [List.mem_singleton.1 hnext, hjoined]
      exact honly.imp_left fun hnil => by rw [hnil, List.map_nil]
  · rcases hlookup q m hm with ⟨rfl, -⟩ | ⟨-, hm⟩
    · exact absurd edge (hi.not_mem_successors horder hnext)
    · rcases List.mem_append.1 hnext with hdone | hnext
      · exact hs.start next hdone q m hm edge G hG
      · have heq := List.mem_singleton.1 hnext
        have hq : (q, m) ∈ incomingOf b s := (hi.mem_incomingOf hb).2 ⟨heq ▸ edge, hm⟩
        rw [heq, hjoined]
        exact hj.map G (kept_over hq hG)
  · rcases List.mem_append.1 hentry with hdone | hentry
    · exact hs.start_entry hdone G
    · rw [List.mem_singleton] at hentry
      exact hentry ▸ hs.start_over_entry hi horder hb hentry hj G
  · rcases hlookup q m hm with ⟨rfl, rfl⟩ | ⟨-, hm⟩
    · have hleads := hleads G hG hstart
      exact ⟨hleads.definesFirst, hleads.map⟩
    · exact hs.own q m hm G hG hstart
  · rcases hlookup q m hm with ⟨rfl, rfl⟩ | ⟨hq, hm⟩
    · refine ⟨[], ?_, fun _ _ _ e he => absurd he List.not_mem_nil,
        fun next hnext edge => absurd edge (hi.not_mem_successors horder hnext), fun _ => rfl⟩
      rw [cmdsAt_finish hlt, if_pos rfl, hleads_true.cmds, List.nil_append, List.map_nil,
        List.append_nil]
    · obtain ⟨es, hes, hclosing⟩ := hs.cmds q m hm
      refine ⟨_, ?_, hs.closing hi horder hjoined hpairs honly hclosing⟩
      rw [cmdsAt_finish hlt, if_neg hq, hi.cmdsAt_eq hb hj hm, hes, List.map_append,
        List.append_assoc]

end

/-- All blocks of an order are charted when they are passified. -/
theorem charted_passifyBlocks {c : Setting} {i : Implementation} {T : Nat → BlockTrace}
    {order : List Nat} {s' : Advance} (hi : Layout c i order) : ∀ (rest : List Nat)
    {done : List Nat} {s : Advance}, order = done ++ rest → Charted i T done s →
    (∀ x ∈ traceBlocks c rest s, T x.1 = x.2) → (passifyBlocks c rest s).outcome = .ok s' →
    Charted i T order s'
  | [], done, s, horder, hs, _, h => by
    cases h
    rw [List.append_nil] at horder
    exact horder ▸ hs
  | id :: rest, done, s, horder, hs, hT, h => by
    obtain ⟨s₁, hblock, h⟩ := Minting.bind_eq_ok.1 h
    have hid : id ∈ order := by
      rw [horder]
      exact List.mem_append_right _ List.mem_cons_self
    obtain ⟨b, hb⟩ := hi.topological.exists_block hid
    -- The trace of a list of blocks begins with that of its first block.
    have htraces : traceBlocks c (id :: rest) s =
        (id, traceBlock c id s) :: traceBlocks c rest s₁ := by
      rw [traceBlocks, hblock]
    rw [htraces] at hT
    obtain ⟨hT, hrest⟩ := List.forall_mem_cons.1 hT
    have horder' : order = done ++ [id] ++ rest := by
      rw [horder, List.append_assoc, List.singleton_append]
    exact charted_passifyBlocks hi rest horder' (hs.passifyBlock hi horder hb hT hblock) hrest h

end Obligations.Passive
