import Obligations.Proofs.Expr.Literals
import Obligations.Proofs.Passive.Discipline

/-!
# What stands for variables, point by point

While a body becomes passive, the map of what stands for each variable changes with every command,
and the maps of several predecessors are merged where they meet. `Passive.Arises` is about the maps
of all points on the way, those of a passification that fails in the end included: the maps in the
making while predecessors are merged, the maps before, after and in the middle of commands, the maps
at the ends of blocks, and those that assertions keep. All of them have literals and names only for
values, and the literals are among those that the body assigns (`Passive.Arises.atoms`). An
assertion of a passive block is made of one of the block by such a map
(`Passive.assertion_of_passify`).
-/

namespace Obligations

/- The assertions of a command and of several commands, those in scopes included. -/
mutual

/-- The assertions of a command. -/
def Cmd.asserted : Cmd → List Assertion
  | assert a => [a]
  | scope _ cmds => Cmd.assertedAll cmds
  | _ => []

/-- The assertions of several commands. -/
def Cmd.assertedAll : List Cmd → List Assertion
  | [] => []
  | c :: cs => c.asserted ++ Cmd.assertedAll cs

end

/- The values that a command and several commands assign, those in scopes included. -/
mutual

/-- The values that a command assigns. -/
def Cmd.values : Cmd → List Expr
  | assign pairs => pairs.map (·.2)
  | scope _ cmds => Cmd.valuesAll cmds
  | _ => []

/-- The values that several commands assign. -/
def Cmd.valuesAll : List Cmd → List Expr
  | [] => []
  | c :: cs => c.values ++ Cmd.valuesAll cs

end

namespace Passive

/-- The expression is a name, or a literal of a kind. -/
structure IsAtom (L : Literal → Prop) (e : Expr) : Prop where
  isAtomic : isAtomic e = true
  literals : e.LiteralsIn L

/-- Only names, and literals of a kind, stand for the names of a map. -/
def Atoms (L : Literal → Prop) (m : NameMap Expr) : Prop :=
  ∀ x e, m.find? x = some e → IsAtom L e

section

variable {L : Literal → Prop} {frame m : NameMap Expr} {x : Name} {e : Expr}

theorem isAtom_symbol (n : Name) : IsAtom L (.symbol n) :=
  ⟨isAtomic_symbol n, Expr.literalsIn_symbol n⟩

theorem Atoms.atomic (h : Atoms L m) : m.Atomic := fun x e he => (h x e he).isAtomic

theorem Atoms.insert (h : Atoms L m) (he : IsAtom L e) : Atoms L (m.insert x e) := by
  intro y a ha
  rw [NameMap.find?_insert] at ha
  split_ifs at ha
  · cases ha
    exact he
  · exact h y a ha

theorem Atoms.erase (h : Atoms L m) : Atoms L (m.erase x) := by
  intro y a ha
  rw [NameMap.find?_erase] at ha
  split_ifs at ha
  exact h y a ha

theorem Atoms.eraseAll (h : Atoms L m) (locals : List Variable) :
    Atoms L (locals.foldl (fun m v => m.erase v.name) m) :=
  List.foldlRecOn locals _ h fun _ h _ _ => h.erase

/-- The values on entry that stand for globals are names. -/
theorem atoms_frame (xs : List Name) :
    Atoms L (.ofList (xs.map fun g => (g, .symbol g))) := by
  intro x a ha
  obtain ⟨g, -, heq⟩ := List.mem_map.1 (NameMap.mem_of_find?_ofList ha)
  cases heq
  exact isAtom_symbol x

theorem literalsIn_standIn (hframe : Atoms L frame) (hm : Atoms L m) (he : e.LiteralsIn L) :
    (standIn frame m e).LiteralsIn L :=
  he.substituteOld (fun n a ha => (hm n a ha).literals) fun n a ha => (hframe n a ha).literals

end

/-! ## Points of commands -/

/-- The locals of a scope come into force, and the conditions on them are assumed. -/
def Progress.enterScope (frame : NameMap Expr) (locals : List Variable) (s : Progress) : Progress :=
  locals.foldl (fun s v => s.assumeWhere frame v.whereClause)
    { s with versions := s.versions.declare locals }

/-- The points that passification of commands passes: before each command, after the last one, in
the middle of an assignment and of a havoc, inside of scopes and on the way out of them. -/
inductive PassesThrough (frame : NameMap Expr) (block : Name) :
    List Cmd → Progress → Progress → Prop
  /-- Before the first command. -/
  | here {cs : List Cmd} {s : Progress} : PassesThrough frame block cs s s
  /-- Behind the first command. -/
  | next {c : Cmd} {cs : List Cmd} {s s' t : Progress} :
    (passifyCmd frame block c s).outcome = .ok s' → PassesThrough frame block cs s' t →
      PassesThrough frame block (c :: cs) s t
  /-- When some variables of an assignment have got their values. -/
  | assigning {pairs done : List (Name × Expr)} {cs : List Cmd} {s t : Progress} {es : List Expr} :
    done <+: pairs →
      (assignAll block s (done.map fun p => (p.1, standIn frame s.map p.2))).outcome = .ok (es, t) →
        PassesThrough frame block (.assign pairs :: cs) s t
  /-- When some variables of a havoc have got their versions. -/
  | renewing {vars done : List Name} {cs : List Cmd} {s t : Progress} :
    done <+: vars → (renewAll block s done).outcome = .ok t →
      PassesThrough frame block (.havoc vars :: cs) s t
  /-- Inside of a scope. -/
  | inside {locals : List Variable} {cmds cs : List Cmd} {s t : Progress} :
    PassesThrough frame block cmds (s.enterScope frame locals) t →
      PassesThrough frame block (.scope locals cmds :: cs) s t
  /-- When some locals of a scope have been removed. -/
  | leaving {locals done : List Variable} {cmds cs : List Cmd} {s t : Progress} :
    done <+: locals → (passifyCmds frame block cmds (s.enterScope frame locals)).outcome = .ok t →
      PassesThrough frame block (.scope locals cmds :: cs) s
        { t with map := done.foldl (fun m v => m.erase v.name) t.map }

/-- The assertion is one of some assertions, stated about what stands for the variables, and keeps
the map. -/
def IsStated (L : Literal → Prop) (frame : NameMap Expr) (sources : List Assertion)
    (a : Assertion) : Prop :=
  ∃ m, Atoms L m ∧ ∃ src ∈ sources,
    a = ⟨standIn frame m src.condition, src.kind, some src.condition, some m⟩

/-- Names and literals of a kind stand for the variables, and the assertions so far are some
assertions stated about such. -/
structure Progress.Sound (L : Literal → Prop) (frame : NameMap Expr) (sources : List Assertion)
    (s : Progress) : Prop where
  map : Atoms L s.map
  asserts : ∀ a, .assert a ∈ s.cmds → IsStated L frame sources a

section

variable {L : Literal → Prop} {frame : NameMap Expr} {block x n : Name}
  {sources : List Assertion} {s t : Progress}

theorem Progress.Sound.assume (h : s.Sound L frame sources) (e : Expr) :
    (s.emit (.assume e)).Sound L frame sources where
  map := h.map
  asserts a ha := by
    rcases List.mem_append.1 ha with ha | ha
    · exact h.asserts a ha
    · cases List.mem_singleton.1 ha

theorem Progress.Sound.assert (h : s.Sound L frame sources) {a : Assertion} (ha : a ∈ sources) :
    (s.emit (.assert
      ⟨standIn frame s.map a.condition, a.kind, some a.condition, some s.map⟩)).Sound
        L frame sources where
  map := h.map
  asserts a' ha' := by
    rcases List.mem_append.1 ha' with ha' | ha'
    · exact h.asserts a' ha'
    · cases List.mem_singleton.1 ha'
      exact ⟨s.map, h.map, a, ha, rfl⟩

theorem Progress.Sound.assumeWhere (h : s.Sound L frame sources) (w : Option Expr) :
    (s.assumeWhere frame w).Sound L frame sources := by
  cases w with
  | none => exact h
  | some e => exact h.assume _

theorem Progress.Sound.enterScope (h : s.Sound L frame sources) (locals : List Variable) :
    (s.enterScope frame locals).Sound L frame sources :=
  List.foldlRecOn (motive := Progress.Sound L frame sources) locals _ ⟨h.map, h.asserts⟩
    fun _ h v _ => h.assumeWhere v.whereClause

theorem Progress.Sound.renew (h : s.Sound L frame sources) {o : Origin}
    (hs : (s.renew x o).outcome = .ok (n, t)) : t.Sound L frame sources := by
  obtain ⟨⟨name, versions⟩, -, hs⟩ := Minting.bind_eq_ok.1 hs
  cases hs
  exact ⟨h.map.insert (isAtom_symbol _), h.asserts⟩

theorem Progress.Sound.assignAll : ∀ {pairs : List (Name × Expr)} {es : List Expr}
    {s t : Progress}, s.Sound L frame sources → (∀ p ∈ pairs, p.2.LiteralsIn L) →
    (assignAll block s pairs).outcome = .ok (es, t) → t.Sound L frame sources
  | [], _, _, _, h, _, hs => by
    cases hs
    exact h
  | (x, value) :: rest, es, s, t, h, hpairs, hs => by
    obtain ⟨hvalue, hrest⟩ := List.forall_mem_cons.1 hpairs
    unfold Passive.assignAll at hs
    -- A pair is an equality on what is a version already, is put in the map, or makes a version.
    split_ifs at hs with _ _ hatomic
    · cases hs
    · obtain ⟨⟨es', s₁⟩, hs₁, hs⟩ := Minting.bind_eq_ok.1 hs
      cases hs
      exact h.assignAll hrest hs₁
    · have hstand : (s.stand x value).Sound L frame sources :=
        ⟨h.map.insert ⟨hatomic, hvalue⟩, h.asserts⟩
      exact hstand.assignAll hrest hs
    · obtain ⟨⟨name, s₁⟩, hs₁, hs⟩ := Minting.bind_eq_ok.1 hs
      obtain ⟨⟨es', s₂⟩, hs₂, hs⟩ := Minting.bind_eq_ok.1 hs
      cases hs
      exact (h.renew hs₁).assignAll hrest hs₂

theorem Progress.Sound.renewAll : ∀ {xs : List Name} {s t : Progress},
    s.Sound L frame sources → (renewAll block s xs).outcome = .ok t → t.Sound L frame sources
  | [], _, _, h, hs => by
    cases hs
    exact h
  | x :: xs, _, _, h, hs => by
    unfold Passive.renewAll at hs
    split_ifs at hs
    · exact h.renewAll hs
    · obtain ⟨⟨name, s₁⟩, hs₁, hs⟩ := Minting.bind_eq_ok.1 hs
      exact (h.renew hs₁).renewAll hs

/-- What is assigned are literals and names of the kind, if the values have no other literals. -/
theorem literalsIn_of_mem_pairs (hframe : Atoms L frame) (h : Atoms L s.map)
    {pairs : List (Name × Expr)} (hpairs : ∀ e ∈ pairs.map (·.2), e.LiteralsIn L) :
    ∀ p ∈ pairs.map fun p => (p.1, standIn frame s.map p.2), p.2.LiteralsIn L := by
  intro p hp
  obtain ⟨q, hq, rfl⟩ := List.mem_map.1 hp
  exact literalsIn_standIn hframe h (hpairs _ (List.mem_map_of_mem hq))

mutual

/-- Passification of a command keeps to literals and names. -/
theorem passifyCmd_sound (hframe : Atoms L frame) : ∀ {c : Cmd} {s t : Progress},
    (∀ e ∈ c.values, e.LiteralsIn L) → c.asserted ⊆ sources → s.Sound L frame sources →
    (passifyCmd frame block c s).outcome = .ok t → t.Sound L frame sources
  | .assert a, s, _, _, hsources, h, hs => by
    cases hs
    exact h.assert (hsources (List.mem_singleton_self a))
  | .assume e, s, _, _, _, h, hs => by
    cases hs
    exact h.assume _
  | .assign pairs, s, _, hvalues, _, h, hs => by
    rw [passifyCmd] at hs
    obtain ⟨⟨es, s₁⟩, hs₁, hs⟩ := Minting.bind_eq_ok.1 hs
    cases hs
    have h₁ := h.assignAll (literalsIn_of_mem_pairs hframe h.map hvalues) hs₁
    split_ifs
    · exact h₁
    · exact h₁.assume _
  | .havoc vars, s, _, _, _, h, hs => by
    rw [passifyCmd] at hs
    obtain ⟨s₁, hs₁, hs⟩ := Minting.bind_eq_ok.1 hs
    cases hs
    exact List.foldlRecOn (motive := Progress.Sound L frame sources) vars _ (h.renewAll hs₁)
      fun s h x _ => h.assumeWhere _
  | .call _ _ _, _, _, _, _, _, hs => by cases hs
  | .comment _, s, _, _, _, h, hs => by
    cases hs
    exact h
  | .scope locals cmds, s, _, hvalues, hsources, h, hs => by
    rw [passifyCmd] at hs
    obtain ⟨s₁, hs₁, hs⟩ := Minting.bind_eq_ok.1 hs
    cases hs
    have h₁ := passifyCmds_sound hframe hvalues hsources (h.enterScope locals) hs₁
    exact ⟨h₁.map.eraseAll locals, h₁.asserts⟩

/-- The same for several commands. -/
theorem passifyCmds_sound (hframe : Atoms L frame) : ∀ {cs : List Cmd} {s t : Progress},
    (∀ e ∈ Cmd.valuesAll cs, e.LiteralsIn L) → Cmd.assertedAll cs ⊆ sources →
    s.Sound L frame sources → (passifyCmds frame block cs s).outcome = .ok t →
    t.Sound L frame sources
  | [], _, _, _, _, h, hs => by
    cases hs
    exact h
  | c :: cs, _, _, hvalues, hsources, h, hs => by
    rw [passifyCmds] at hs
    obtain ⟨s₁, hs₁, hs⟩ := Minting.bind_eq_ok.1 hs
    obtain ⟨hvalue, hrest⟩ := List.forall_mem_append.1 hvalues
    have h₁ := passifyCmd_sound hframe hvalue
      (List.Subset.trans (List.subset_append_left _ _) hsources) h hs₁
    exact passifyCmds_sound hframe hrest
      (List.Subset.trans (List.subset_append_right _ _) hsources) h₁ hs

end

/-- Literals and names stand for the variables at all points of commands. -/
theorem PassesThrough.sound {cs : List Cmd} (hframe : Atoms L frame)
    (hp : PassesThrough frame block cs s t) :
    (∀ e ∈ Cmd.valuesAll cs, e.LiteralsIn L) → Cmd.assertedAll cs ⊆ sources →
      s.Sound L frame sources → t.Sound L frame sources := by
  -- A point lies before a command, inside an assignment, after new versions, or inside or at the
  -- end of a scope.
  induction hp with
  | here => exact fun _ _ h => h
  | next hs _ ih =>
    intro hvalues hsources h
    obtain ⟨hvalue, hrest⟩ := List.forall_mem_append.1 hvalues
    have h₁ := passifyCmd_sound hframe hvalue
      (List.Subset.trans (List.subset_append_left _ _) hsources) h hs
    exact ih hrest (List.Subset.trans (List.subset_append_right _ _) hsources) h₁
  | assigning hdone hs =>
    intro hvalues _ h
    have hpairs := (List.forall_mem_append.1 hvalues).1
    refine h.assignAll (literalsIn_of_mem_pairs hframe h.map fun e he => hpairs e ?_) hs
    exact (hdone.map _).subset he
  | renewing _ hs => exact fun _ _ h => h.renewAll hs
  | inside _ ih =>
    intro hvalues hsources h
    exact ih (List.forall_mem_append.1 hvalues).1
      (List.Subset.trans (List.subset_append_left _ _) hsources) (h.enterScope _)
  | leaving _ hs =>
    intro hvalues hsources h
    have h₁ := passifyCmds_sound hframe (List.forall_mem_append.1 hvalues).1
      (List.Subset.trans (List.subset_append_left _ _) hsources) (h.enterScope _) hs
    exact ⟨h₁.map.eraseAll _, h₁.asserts⟩

end

/-! ## Points of bodies -/

/-- How far a body has been passified when a block is next. -/
def Reaches (c : Setting) (start : Advance) (order : List Nat) (id : Nat) (s : Advance) : Prop :=
  ∃ done, done ++ [id] <+: order ∧ (passifyBlocks c done start).outcome = .ok s

/-- The map says what stands for each variable at a point of the passification of a body. -/
inductive Arises (c : Setting) (start : Advance) (order : List Nat) : NameMap Expr → Prop
  /-- At the end of a block. -/
  | exit {done : List Nat} {s : Advance} {id : Nat} {m : NameMap Expr} : done <+: order →
    (passifyBlocks c done start).outcome = .ok s → s.exitMaps.lookup id = some m →
      Arises c start order m
  /-- While the predecessors of a block are merged, when they have been reconciled in some of the
  variables about which they disagree; with all of these it is the map at the start of the block. -/
  | merging {id : Nat} {s s' : Advance} {b : Block} {xs : List Name} {m : NameMap Expr} :
    Reaches c start order id s → s.body.blocks[id]? = some b →
      xs <+: disputed c.lexicon (incomingOf b s) →
      (reconcileAll (c.isLive id) b.label (incomingOf b s) xs (kept c.lexicon (incomingOf b s))
        s).outcome = .ok (m, s') → Arises c start order m
  /-- At a point of the commands of a block. -/
  | running {id : Nat} {s s' : Advance} {b : Block} {m : NameMap Expr} {t : Progress} :
    Reaches c start order id s → s.body.blocks[id]? = some b →
      (startMap c id b.label (incomingOf b s) s).outcome = .ok (m, s') →
      PassesThrough c.frame b.label b.cmds ⟨s'.versions, m, []⟩ t → Arises c start order t.map
  /-- In an assertion made by then. -/
  | snapshot {id : Nat} {s s' : Advance} {b : Block} {m m' : NameMap Expr} {t : Progress}
      {a : Assertion} : Reaches c start order id s → s.body.blocks[id]? = some b →
      (startMap c id b.label (incomingOf b s) s).outcome = .ok (m, s') →
      PassesThrough c.frame b.label b.cmds ⟨s'.versions, m, []⟩ t → .assert a ∈ t.cmds →
      a.incarnations = some m' → Arises c start order m'

/-- Names and literals of a kind stand for the variables at the ends of some blocks, and the
assertions of these are their assertions stated about such. -/
structure Advance.Sound (L : Literal → Prop) (frame : NameMap Expr) (i : Implementation)
    (done : List Nat) (s : Advance) : Prop where
  outline : s.body.outline = i.outline
  rest : ∀ id, id ∉ done → s.body.cmdsAt id = i.cmdsAt id
  mem_done : ∀ id m, s.exitMaps.lookup id = some m → id ∈ done
  exitMaps : ∀ id m, s.exitMaps.lookup id = some m → Atoms L m
  asserts : ∀ id ∈ done, ∀ a, .assert a ∈ s.body.cmdsAt id →
    IsStated L frame (Cmd.assertedAll (i.cmdsAt id)) a

section

variable {L : Literal → Prop} {c : Setting} {i : Implementation} {order done : List Nat}
  {s s' : Advance} {incoming : List Incoming} {label x : Name}

theorem Advance.Sound.start {frame : NameMap Expr} {versions : Versions} :
    Advance.Sound L frame i [] ⟨i, versions, []⟩ :=
  ⟨rfl, fun _ _ => rfl, fun _ _ h => (by cases h), fun _ _ h => (by cases h),
    fun _ h => absurd h List.not_mem_nil⟩

/-- To reconcile predecessors adds assumptions to them. -/
theorem Advance.Sound.reconcile (h : s.Sound L c.frame i done)
    (hincoming : ∀ q ∈ incoming, s.exitMaps.lookup q.1 = some q.2)
    (hlt : ∀ q ∈ incoming, q.1 < s.body.blocks.length) {n : Name}
    (hs : (reconcile label incoming x s).outcome = .ok (n, s')) :
    s'.Sound L c.frame i done ∧ s'.exitMaps = s.exitMaps ∧
      s'.body.blocks.length = s.body.blocks.length := by
  obtain ⟨⟨name, versions⟩, -, hs⟩ := Minting.bind_eq_ok.1 hs
  cases hs
  obtain ⟨houtline, hcmds⟩ := foldl_pushCmd n x incoming s.body hlt
  refine ⟨⟨houtline.trans h.outline, fun p hp => ?_, h.mem_done, h.exitMaps, fun p hp a ha => ?_⟩,
    rfl, Implementation.length_of_outline_eq houtline⟩
  · -- A block without a map is no predecessor.
    have hnone : equalities incoming n x p = [] := equalities_eq_nil fun hmem => by
      obtain ⟨q, hq, rfl⟩ := List.mem_map.1 hmem
      exact hp (h.mem_done q.1 q.2 (hincoming q hq))
    rw [← h.rest p hp]
    exact (hcmds p).trans (by rw [hnone, List.append_nil])
  · have ha : .assert a ∈ s.body.cmdsAt p ++ equalities incoming n x p := hcmds p ▸ ha
    rcases List.mem_append.1 ha with ha | ha
    · exact h.asserts p hp a ha
    · obtain ⟨q, -, heq⟩ := List.mem_map.1 ha
      cases heq

theorem Advance.Sound.reconcileAll {isLive : Name → Bool} : ∀ {xs : List Name}
    {map map' : NameMap Expr} {s s' : Advance}, s.Sound L c.frame i done → Atoms L map →
    (∀ q ∈ incoming, s.exitMaps.lookup q.1 = some q.2) →
    (∀ q ∈ incoming, q.1 < s.body.blocks.length) →
    (reconcileAll isLive label incoming xs map s).outcome = .ok (map', s') →
    Atoms L map' ∧ s'.Sound L c.frame i done ∧ s'.exitMaps = s.exitMaps
  | [], _, _, _, _, h, hmap, _, _, hs => by
    cases hs
    exact ⟨hmap, h, rfl⟩
  | x :: xs, _, _, _, _, h, hmap, hincoming, hlt, hs => by
    unfold Passive.reconcileAll at hs
    split_ifs at hs
    · obtain ⟨⟨name, s₁⟩, hs₁, hs⟩ := Minting.bind_eq_ok.1 hs
      obtain ⟨h₁, hmaps, hlength⟩ := h.reconcile hincoming hlt hs₁
      obtain ⟨hmap', h', hmaps'⟩ := h₁.reconcileAll (hmap.insert (isAtom_symbol name))
        (hmaps ▸ hincoming) (hlength ▸ hlt) hs
      exact ⟨hmap', h', hmaps'.trans hmaps⟩
    · exact h.reconcileAll hmap hincoming hlt hs

theorem atoms_kept {l : Lexicon} (hincoming : ∀ q ∈ incoming, Atoms L q.2) :
    Atoms L (kept l incoming) := by
  intro x e he
  obtain ⟨q, hq, hfind⟩ := exists_of_find?_kept he
  exact hincoming q hq x e hfind

/-- Some merging of the predecessors of a block keeps to literals and names. -/
theorem Advance.Sound.merge (h : s.Sound L c.frame i done)
    (hlt : ∀ id ∈ done, id < i.blocks.length) {b : Block} {isLive : Name → Bool} {xs : List Name}
    {m : NameMap Expr} (hs : (Passive.reconcileAll isLive label (incomingOf b s) xs
      (kept c.lexicon (incomingOf b s)) s).outcome = .ok (m, s')) :
    Atoms L m ∧ s'.Sound L c.frame i done ∧ s'.exitMaps = s.exitMaps := by
  have hlookup : ∀ q ∈ incomingOf b s, s.exitMaps.lookup q.1 = some q.2 := fun q hq =>
    (mem_incomingOf.1 hq).2
  refine h.reconcileAll (atoms_kept fun q hq => h.exitMaps q.1 q.2 (hlookup q hq)) hlookup
    (fun q hq => ?_) hs
  rw [Implementation.length_of_outline_eq h.outline]
  exact hlt q.1 (h.mem_done q.1 q.2 (hlookup q hq))

/-- One more block becomes passive. -/
theorem Advance.Sound.passifyBlock (h : s.Sound L c.frame i done)
    (hlt : ∀ id ∈ done, id < i.blocks.length) (hframe : Atoms L c.frame)
    (hvalues : ∀ id, ∀ e ∈ Cmd.valuesAll (i.cmdsAt id), e.LiteralsIn L) {id : Nat}
    (hid : id ∉ done) (hlt_id : id < i.blocks.length)
    (hs : (passifyBlock c id s).outcome = .ok s') : s'.Sound L c.frame i (done ++ [id]) := by
  obtain ⟨b, hb⟩ : ∃ b, i.blocks[id]? = some b := ⟨_, List.getElem?_eq_getElem hlt_id⟩
  have hcmds : i.cmdsAt id = b.cmds := by
    rw [Implementation.cmdsAt, hb]
    rfl
  have hblock : s.body.blocks[id]? = some b := by
    rw [Implementation.getElem?_of_outline_eq h.outline hb, h.rest id hid, hcmds]
  obtain ⟨map, s₁, r, hstart, hpass, rfl⟩ := passifyBlock_cases hblock hs
  obtain ⟨hmap, h₁, hmaps⟩ := h.merge hlt (startMap_eq .. ▸ hstart)
  -- At the start of the block nothing has been asserted, and the map is the one that its
  -- predecessors agree on.
  have hentry : Progress.Sound L c.frame (Cmd.assertedAll b.cmds) ⟨s₁.versions, map, []⟩ :=
    ⟨hmap, fun _ ha => absurd ha List.not_mem_nil⟩
  have hr := passifyCmds_sound hframe (hcmds ▸ hvalues id) (List.Subset.refl _) hentry hpass
  have hlt₁ : id < s₁.body.blocks.length := by
    rwa [Implementation.length_of_outline_eq h₁.outline]
  refine ⟨(outline_finish s₁ id r).trans h₁.outline, fun p hp => ?_, fun p m hm => ?_,
    fun p m hm => ?_, fun p hp a ha => ?_⟩
  · rw [List.mem_append, not_or, List.mem_singleton] at hp
    rw [cmdsAt_finish hlt₁, if_neg hp.2, h₁.rest p hp.1]
  · rw [lookup_finish] at hm
    split_ifs at hm with heq
    · exact List.mem_append_right _ (List.mem_singleton.2 heq)
    · exact List.mem_append_left _ (h₁.mem_done p m hm)
  · rw [lookup_finish] at hm
    split_ifs at hm
    · cases hm
      exact hr.map
    · exact h₁.exitMaps p m hm
  · rw [cmdsAt_finish hlt₁] at ha
    split_ifs at ha with heq
    · rw [heq, hcmds]
      exact hr.asserts a ha
    · exact h₁.asserts p ((List.mem_append.1 hp).resolve_right fun hmem =>
        heq (List.mem_singleton.1 hmem)) a ha

/-- Some blocks of a body become passive. -/
theorem Advance.Sound.passifyBlocks (hframe : Atoms L c.frame)
    (hvalues : ∀ id, ∀ e ∈ Cmd.valuesAll (i.cmdsAt id), e.LiteralsIn L) :
    ∀ {ids done : List Nat} {s s' : Advance}, s.Sound L c.frame i done → (done ++ ids).Nodup →
      (∀ id ∈ done ++ ids, id < i.blocks.length) →
      (passifyBlocks c ids s).outcome = .ok s' → s'.Sound L c.frame i (done ++ ids)
  | [], done, _, _, h, _, _, hs => by
    cases hs
    rwa [List.append_nil]
  | id :: ids, done, _, _, h, hnodup, hlt, hs => by
    rw [Passive.passifyBlocks] at hs
    obtain ⟨s₁, hs₁, hs⟩ := Minting.bind_eq_ok.1 hs
    have hid : id ∉ done := fun hmem =>
      (List.nodup_append.1 hnodup).2.2 id hmem id List.mem_cons_self rfl
    have h₁ := h.passifyBlock (fun p hp => hlt p (List.mem_append_left _ hp)) hframe hvalues hid
      (hlt id (by simp)) hs₁
    have hsplit : done ++ id :: ids = done ++ [id] ++ ids := by simp
    rw [hsplit] at hnodup hlt ⊢
    exact h₁.passifyBlocks hframe hvalues hnodup hlt hs

/-- The commands of a block that is next are as they were. -/
theorem Advance.Sound.cmds_eq {frame : NameMap Expr} (h : s.Sound L frame i done) {id : Nat}
    (hid : id ∉ done) {b : Block} (hb : s.body.blocks[id]? = some b) : i.cmdsAt id = b.cmds := by
  rw [← h.rest id hid, Implementation.cmdsAt, hb]
  rfl

section

variable {versions : Versions} (horder : order.Nodup) (hlt : ∀ id ∈ order, id < i.blocks.length)
  (hframe : Atoms L c.frame)
  (hvalues : ∀ id, ∀ e ∈ Cmd.valuesAll (i.cmdsAt id), e.LiteralsIn L)

include horder hlt hframe hvalues

/-- Passification keeps to literals and names until it fails. -/
theorem Advance.Sound.of_initial (hdone : done <+: order)
    (hs : (Passive.passifyBlocks c done ⟨i, versions, []⟩).outcome = .ok s) :
    s.Sound L c.frame i done :=
  Advance.Sound.start.passifyBlocks hframe hvalues (horder.sublist hdone.sublist)
    (fun id hid => hlt id (hdone.subset hid)) hs

/-- The same where a block is next. -/
theorem Reaches.sound {id : Nat} (h : Reaches c ⟨i, versions, []⟩ order id s) :
    ∃ done, s.Sound L c.frame i done ∧ id ∉ done ∧ ∀ p ∈ done, p < i.blocks.length := by
  obtain ⟨done, hdone, hs⟩ := h
  refine ⟨done, .of_initial horder hlt hframe hvalues ((List.prefix_append _ _).trans hdone) hs,
    fun hmem => ?_, fun p hp => hlt p (hdone.subset (List.mem_append_left _ hp))⟩
  have hnodup := horder.sublist hdone.sublist
  exact (List.nodup_append.1 hnodup).2.2 id hmem id (List.mem_singleton_self id) rfl

/-- The same at a point of the commands of the block that is next. -/
theorem Reaches.passesThrough_sound {id : Nat} {b : Block} {m : NameMap Expr} {t : Progress}
    (h : Reaches c ⟨i, versions, []⟩ order id s) (hb : s.body.blocks[id]? = some b)
    (hstart : (startMap c id b.label (incomingOf b s) s).outcome = .ok (m, s'))
    (hpass : PassesThrough c.frame b.label b.cmds ⟨s'.versions, m, []⟩ t) :
    t.Sound L c.frame (Cmd.assertedAll b.cmds) := by
  obtain ⟨done, hs, hid, hdone⟩ := h.sound horder hlt hframe hvalues
  obtain ⟨hm, -, -⟩ := hs.merge hdone (startMap_eq .. ▸ hstart)
  exact hpass.sound hframe (hs.cmds_eq hid hb ▸ hvalues id) (List.Subset.refl _)
    ⟨hm, fun _ ha => absurd ha List.not_mem_nil⟩

/-- All maps of a passification have names and literals of a kind for values, if the values that the
body assigns have no other literals. -/
theorem Arises.atoms_of_literalsIn {m : NameMap Expr}
    (h : Arises c ⟨i, versions, []⟩ order m) : Atoms L m := by
  cases h with
  | exit hdone hs hm =>
    exact (Advance.Sound.of_initial horder hlt hframe hvalues hdone hs).exitMaps _ _ hm
  | merging hreach hb _ hmerge =>
    obtain ⟨done, hs, -, hdone⟩ := hreach.sound horder hlt hframe hvalues
    exact (hs.merge hdone hmerge).1
  | running hreach hb hstart hpass =>
    exact (hreach.passesThrough_sound horder hlt hframe hvalues hb hstart hpass).map
  | snapshot hreach hb hstart hpass ha hm =>
    have hpoint := hreach.passesThrough_sound horder hlt hframe hvalues hb hstart hpass
    obtain ⟨m, hatoms, src, -, rfl⟩ := hpoint.asserts _ ha
    cases hm
    exact hatoms

end

end

/-! ## Passification -/

section

variable {L : Literal → Prop} {l : Lexicon} {prune : Bool} {p : Program} {q : Procedure}
  {e : SingleExit} {b : PassiveImplementation} {order : List Nat} {m : NameMap Expr}

/-- At every point of every passification of a body, also of one that fails in the end, literals and
names stand for the variables, and the literals are of a kind if those in the values that the body
assigns are. -/
theorem Arises.atoms (hvalues : ∀ id, ∀ a ∈ Cmd.valuesAll (e.body.cmdsAt id), a.LiteralsIn L)
    (horder : e.body.topologicalOrder = .ok order)
    (h : Arises (settingOf l prune p q e.body order) ⟨e.body, initialVersions p e.body, []⟩ order
      m) : Atoms L m := by
  have hblocks : order.Nodup ∧ ∀ id ∈ order, id < e.body.blocks.length := by
    cases order with
    | nil => exact ⟨List.nodup_nil, fun id hid => absurd hid List.not_mem_nil⟩
    | cons id ids =>
      have htopological := Implementation.isTopologicalOrder horder
        (Implementation.entry_lt_length horder List.mem_cons_self)
      exact ⟨htopological.nodup, htopological.lt_length⟩
  exact h.atoms_of_literalsIn hblocks.1 hblocks.2 (atoms_frame q.modifies) hvalues

/-- An assertion of a passive block is one of the block, stated about what stands for the variables
there, and all other blocks are as they were. -/
theorem assertion_of_passify
    (hvalues : ∀ id, ∀ a ∈ Cmd.valuesAll (e.body.cmdsAt id), a.LiteralsIn L)
    (hb : (passify l prune p q e).outcome = .ok b) :
    e.exit ∈ b.order ∧ (∀ id, id ∉ b.order → b.body.cmdsAt id = e.body.cmdsAt id) ∧
      ∀ id ∈ b.order, ∀ a, .assert a ∈ b.body.cmdsAt id →
        IsStated L (.ofList (q.modifies.map fun g => (g, .symbol g)))
          (Cmd.assertedAll (e.body.cmdsAt id)) a := by
  obtain ⟨order, s, horder, hblocks, hreturn, rfl⟩ := passify_eq_ok.1 hb
  have htopological := Implementation.isTopologicalOrder horder
    (Implementation.entry_lt_length horder (mem_of_filter_isReturn_eq hreturn))
  have hs := Advance.Sound.start.passifyBlocks (atoms_frame q.modifies) hvalues
    htopological.nodup htopological.lt_length hblocks
  refine ⟨mem_of_filter_isReturn_eq hreturn, fun id hid => ?_, fun id hid a ha => ?_⟩
  · rw [cmdsAt_declareVersions]
    exact hs.rest id hid
  · rw [cmdsAt_declareVersions] at ha
    exact hs.asserts id hid a ha

/-- At the exit literals and names stand for the variables. -/
theorem atoms_exitMap
    (hvalues : ∀ id, ∀ a ∈ Cmd.valuesAll (e.body.cmdsAt id), a.LiteralsIn L)
    (hb : (passify l prune p q e).outcome = .ok b) : Atoms L b.exitMap := by
  obtain ⟨order, s, horder, hblocks, -, rfl⟩ := passify_eq_ok.1 hb
  dsimp only
  cases hm : s.exitMaps.lookup e.exit with
  | none => exact fun x a ha => (by cases ha)
  | some m => exact Arises.atoms hvalues horder (.exit (List.prefix_refl order) hblocks hm)

end

end Passive

end Obligations
