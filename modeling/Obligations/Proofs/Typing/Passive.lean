import Obligations.Proofs.Condition.Functions
import Obligations.Proofs.Passive.NormalForm
import Obligations.Proofs.Typing.Preparation
import Obligations.Proofs.Typing.Versions

/-!
# Typing of passive bodies

The passive commands of a body are well-typed over the names that are declared in the end
(`Passive.passify_typed`). Every step of passification keeps to the invariant of versions, makes
passive commands that are well-typed over the names in force, and lets expressions of the right kinds
stand for variables.
-/

namespace Obligations.Passive

open Condition (States)

variable {p : Program} {τ σ : Signature} {outer : List Variable} {frame : NameMap Expr}
  {block : Name}

/-! ## Commands -/

/-- A passive command asserts or assumes a formula. -/
def StatesFormula (κ : Signature) (c : Cmd) : Prop := States (fun e => e.kind? κ = some .bool) c

theorem StatesFormula.mono {κ κ' : Signature} (hle : κ.Le κ') {c : Cmd} (h : StatesFormula κ c) :
    StatesFormula κ' c := by
  cases c with
  | assert a => exact Expr.kind?_mono hle h
  | assume e => exact Expr.kind?_mono hle h
  | assign | havoc | call | comment | scope => trivial

/-- What has been made of a block is well-typed over the names in force. -/
structure Progress.Typed (τ : Signature) (outer : List Variable) (s : Progress) : Prop where
  /-- The names in force. -/
  versions : s.versions.Typed τ outer
  /-- What stands for variables. -/
  map : s.map.Typed (s.versions.signature τ outer)
  /-- The passive commands. -/
  cmds : ∀ c ∈ s.cmds, StatesFormula (s.versions.signature τ outer) c

/-- One point of a block comes after another one: no less is in force, and what there is is
well-typed. -/
structure Progress.Leads (τ : Signature) (outer : List Variable) (s s' : Progress) : Prop where
  /-- What there is is well-typed. -/
  typed : s'.Typed τ outer
  /-- No less is in force. -/
  le : (s.versions.signature τ outer).Le (s'.versions.signature τ outer)

namespace Progress

variable {s s' t : Progress} {x n : Name} {e : Expr} {k : Kind}

theorem Leads.trans (h : s.Leads τ outer s') (h' : s'.Leads τ outer t) : s.Leads τ outer t :=
  ⟨h'.typed, h.le.trans h'.le⟩

theorem Typed.refl (h : s.Typed τ outer) : s.Leads τ outer s := ⟨h, .refl _⟩

theorem Typed.emit (h : s.Typed τ outer) {c : Cmd}
    (hc : StatesFormula (s.versions.signature τ outer) c) : s.Leads τ outer (s.emit c) :=
  ⟨⟨h.versions, h.map, List.forall_mem_append.2 ⟨h.cmds, List.forall_mem_singleton.2 hc⟩⟩, .refl _⟩

theorem Typed.stand (h : s.Typed τ outer) (hx : x.Versionless)
    (hk : (s.versions.signature τ outer).symbol x = some k)
    (he : e.kind? (s.versions.signature τ outer) = some k) : s.Leads τ outer (s.stand x e) :=
  ⟨⟨h.versions, h.map.insert hx hk he, h.cmds⟩, .refl _⟩

/-- A variable gets a version of its kind. -/
theorem Typed.renew (h : s.Typed τ outer) (hx : x.Versionless)
    (hk : (s.versions.signature τ outer).symbol x = some k) {o : Origin}
    (hs : (s.renew x o).outcome = .ok (n, s')) : s.Leads τ outer s' ∧
      (s'.versions.signature τ outer).symbol n = some k := by
  obtain ⟨⟨name, versions⟩, hnext, hs⟩ := Minting.bind_eq_ok.1 hs
  cases hs
  obtain ⟨hversions, hle, hkind⟩ := h.versions.next hx hnext
  exact ⟨⟨⟨hversions, (h.map.mono hle).insert hx (hle.symbol x k hk) (hkind k hk),
    fun c hc => (h.cmds c hc).mono hle⟩, hle⟩, hkind k hk⟩

section

variable (hframe : ∀ g a, frame.find? g = some a → a = .symbol g)

include hframe

theorem Typed.assumeWhere (h : s.Typed τ outer) {w : Option Expr}
    (hw : ∀ e, w = some e → e.kind? (s.versions.signature τ outer) = some .bool) :
    s.Leads τ outer (s.assumeWhere frame w) := by
  cases w with
  | none => exact h.refl
  | some e => exact h.emit (h.map.standIn hframe (hw e rfl))

/-- The conditions on several variables are assumed one after another. -/
theorem Typed.foldl_assumeWhere {α : Type} {f : Progress → α → Option Expr} {as : List α}
    (h : s.Typed τ outer) (hf : ∀ a ∈ as, ∀ t : Progress, t.Typed τ outer →
      (s.versions.signature τ outer).Le (t.versions.signature τ outer) →
      ∀ e, f t a = some e → e.kind? (t.versions.signature τ outer) = some .bool) :
    s.Leads τ outer (as.foldl (fun s a => s.assumeWhere frame (f s a)) s) :=
  List.foldlRecOn (motive := s.Leads τ outer) as _ h.refl fun t ht a ha =>
    ht.trans (ht.typed.assumeWhere hframe (hf a ha t ht.typed ht.le))

end

end Progress

section

variable {s s' : Progress} {x : Name}

/-- A declared name that is not declared as a version has no name of one. -/
theorem versionless_of_not_isIncarnation (h : s.versions.Typed τ outer)
    (hdeclared : (s.versions.declarations.find? x).isSome)
    (hnot : ¬ s.versions.isIncarnation x = true) : x.Versionless := by
  obtain ⟨d, hd⟩ := Option.isSome_iff_exists.1 hdeclared
  refine h.versionless x d hd ?_
  rw [Versions.isIncarnation, hd] at hnot
  exact Bool.eq_false_iff.2 hnot

/-- An assignment of values of the kinds of their variables gives formulas. -/
theorem assignAll_typed : ∀ {pairs : List (Name × Expr)} {es : List Expr} {s s' : Progress},
    s.Typed τ outer → (∀ q ∈ pairs, ∃ k, (s.versions.signature τ outer).symbol q.1 = some k ∧
      q.2.kind? (s.versions.signature τ outer) = some k) →
    (assignAll block s pairs).outcome = .ok (es, s') → s.Leads τ outer s' ∧
      ∀ e ∈ es, e.kind? (s'.versions.signature τ outer) = some .bool
  | [], _, _, _, h, _, hs => by
    cases hs
    exact ⟨h.refl, fun e he => by cases he⟩
  | (x, value) :: rest, _, s, _, h, hpairs, hs => by
    obtain ⟨⟨k, hx, hvalue⟩, hrest⟩ := List.forall_mem_cons.1 hpairs
    -- What is well-typed for the later pairs stays so when versions come into force.
    have hlater : ∀ {t : Progress}, (s.Leads τ outer t) → ∀ q ∈ rest, ∃ k,
        (t.versions.signature τ outer).symbol q.1 = some k ∧
          q.2.kind? (t.versions.signature τ outer) = some k := fun ht q hq =>
      let ⟨k, hk, he⟩ := hrest q hq
      ⟨k, ht.le.symbol q.1 k hk, Expr.kind?_mono ht.le he⟩
    unfold assignAll at hs
    split_ifs at hs with hdeclared hversion hatomic
    · cases hs
    · obtain ⟨⟨es, s₁⟩, hs₁, hs⟩ := Minting.bind_eq_ok.1 hs
      cases hs
      obtain ⟨h₁, hes⟩ := assignAll_typed h (hlater h.refl) hs₁
      exact ⟨h₁, List.forall_mem_cons.2
        ⟨Expr.kind?_mono h₁.le (Expr.kind?_eq hx hvalue), hes⟩⟩
    all_goals
      have hname : x.Versionless := versionless_of_not_isIncarnation h.versions
        (by simpa [NameMap.contains, Option.isSome_iff_ne_none] using hdeclared) hversion
    · have h₁ := h.stand hname hx hvalue
      obtain ⟨h₂, hes⟩ := assignAll_typed h₁.typed (hlater h₁) hs
      exact ⟨h₁.trans h₂, hes⟩
    · obtain ⟨⟨n, s₁⟩, hs₁, hs⟩ := Minting.bind_eq_ok.1 hs
      obtain ⟨⟨es, s₂⟩, hs₂, hs⟩ := Minting.bind_eq_ok.1 hs
      cases hs
      obtain ⟨h₁, hn⟩ := h.renew hname hx hs₁
      obtain ⟨h₂, hes⟩ := assignAll_typed h₁.typed (hlater h₁) hs₂
      refine ⟨h₁.trans h₂, List.forall_mem_cons.2 ⟨Expr.kind?_eq (h₂.le.symbol n k hn) ?_, hes⟩⟩
      exact Expr.kind?_mono (h₁.le.trans h₂.le) hvalue

/-- Variables get versions of their kinds for arbitrary values. -/
theorem renewAll_typed : ∀ {xs : List Name} {s s' : Progress}, s.Typed τ outer →
    (∀ x ∈ xs, ∃ k, (s.versions.signature τ outer).symbol x = some k) →
    (renewAll block s xs).outcome = .ok s' → s.Leads τ outer s'
  | [], _, _, h, _, hs => by
    cases hs
    exact h.refl
  | x :: xs, s, _, h, hxs, hs => by
    obtain ⟨⟨k, hx⟩, hxs⟩ := List.forall_mem_cons.1 hxs
    unfold renewAll at hs
    split_ifs at hs with hversion
    · exact renewAll_typed h hxs hs
    · obtain ⟨⟨n, s₁⟩, hs₁, hs⟩ := Minting.bind_eq_ok.1 hs
      -- A version was made, so the variable is declared.
      have hdeclared : (s.versions.declarations.find? x).isSome := by
        obtain ⟨q, hnext, -⟩ := Minting.bind_eq_ok.1 hs₁
        unfold Versions.next at hnext
        cases hd : s.versions.declarations.find? x with
        | none =>
          rw [hd] at hnext
          cases hnext
        | some d => rfl
      obtain ⟨h₁, -⟩ := h.renew (versionless_of_not_isIncarnation h.versions hdeclared hversion)
        hx hs₁
      exact h₁.trans (renewAll_typed h₁.typed
        (fun y hy => (hxs y hy).imp fun l => h₁.le.symbol y l) hs)

mutual

/-- A well-typed command becomes passive commands that are well-typed over the names in force. -/
theorem passifyCmd_typed (hframe : ∀ g a, frame.find? g = some a → a = .symbol g) :
    ∀ {c : Cmd} {s s' : Progress} {σ : Signature}, c.Typed p σ →
    σ.Le (s.versions.signature τ outer) →
    (∀ v ∈ scopeLocals c, v.name.Versionless ∧ τ.Agrees v) → s.Typed τ outer →
    (passifyCmd frame block c s).outcome = .ok s' → s.Leads τ outer s'
  | .assert _, _, _, _, hc, hσ, _, h, hs | .assume _, _, _, _, hc, hσ, _, h, hs => by
    cases hs
    exact h.emit (h.map.standIn hframe (Expr.kind?_mono hσ hc))
  | .assign pairs, s, _, σ, hc, hσ, _, h, hs => by
    rw [passifyCmd] at hs
    obtain ⟨⟨es, s₁⟩, hs₁, hs⟩ := Minting.bind_eq_ok.1 hs
    cases hs
    have hvalues : ∀ q ∈ pairs.map (fun q => (q.1, standIn frame s.map q.2)), ∃ k,
        (s.versions.signature τ outer).symbol q.1 = some k ∧
          q.2.kind? (s.versions.signature τ outer) = some k := by
      rw [List.forall_mem_map]
      intro q hq
      obtain ⟨k, hk, he⟩ := hc q hq
      exact ⟨k, hσ.symbol q.1 k hk, h.map.standIn hframe (Expr.kind?_mono hσ he)⟩
    obtain ⟨h₁, hes⟩ := assignAll_typed h hvalues hs₁
    split_ifs
    · exact h₁
    · exact h₁.trans (h₁.typed.emit (Expr.kind?_conjAll hes))
  | .havoc vars, s, _, σ, hc, hσ, _, h, hs => by
    rw [passifyCmd] at hs
    obtain ⟨s₁, hs₁, hs⟩ := Minting.bind_eq_ok.1 hs
    cases hs
    have hvars : ∀ x ∈ vars, ∃ k, (s.versions.signature τ outer).symbol x = some k :=
      fun x hx => (hc x hx).imp fun k => hσ.symbol x k
    have h₁ := renewAll_typed h hvars hs₁
    refine h₁.trans (h₁.typed.foldl_assumeWhere hframe fun x hx t ht hle w hw => ?_)
    obtain ⟨k, hk⟩ := hvars x hx
    exact ht.versions.whereClause x k w (hle.symbol x k (h₁.le.symbol x k hk)) hw
  | .call _ _ _, _, _, _, _, _, _, _, hs => by cases hs
  | .comment _, _, _, _, _, _, _, h, hs => by
    cases hs
    exact h.refl
  | .scope locals cmds, s, _, σ, hc, hσ, hlocals, h, hs => by
    rw [passifyCmd] at hs
    obtain ⟨s₂, hs₂, hs⟩ := Minting.bind_eq_ok.1 hs
    cases hs
    obtain ⟨hlocals, hinner⟩ := List.forall_mem_append.1 hlocals
    have hle := Versions.declare_le_signature hσ hlocals
    have hwhere : ∀ v ∈ locals, ∀ w, v.whereClause = some w →
        w.kind? ((s.versions.declare locals).signature τ outer) = some .bool := fun v hv w hw =>
      Expr.kind?_mono hle ((hc.1 v hv).whereClause w hw)
    -- With the locals of the scope in force, their conditions are assumed before the commands
    -- inside.
    have hdeclare : s.Leads τ outer { s with versions := s.versions.declare locals } :=
      ⟨⟨h.versions.declare hlocals hwhere, h.map.mono Versions.signature_le_declare,
        fun c hc => (h.cmds c hc).mono Versions.signature_le_declare⟩,
        Versions.signature_le_declare⟩
    have hopen := hdeclare.typed.foldl_assumeWhere hframe
      (f := fun _ v => v.whereClause) fun v hv t _ hle w hw => Expr.kind?_mono hle (hwhere v hv w hw)
    have hdone := passifyCmds_typed hframe hc.2 (hle.trans hopen.le) hinner hopen.typed hs₂
    exact (hdeclare.trans (hopen.trans hdone)).trans
      ⟨⟨hdone.typed.versions, hdone.typed.map.eraseAll locals, hdone.typed.cmds⟩, .refl _⟩

/-- The same for several commands. -/
theorem passifyCmds_typed (hframe : ∀ g a, frame.find? g = some a → a = .symbol g) :
    ∀ {cs : List Cmd} {s s' : Progress} {σ : Signature},
    Cmd.TypedAll p σ cs → σ.Le (s.versions.signature τ outer) →
    (∀ v ∈ scopeLocalsAll cs, v.name.Versionless ∧ τ.Agrees v) → s.Typed τ outer →
    (passifyCmds frame block cs s).outcome = .ok s' → s.Leads τ outer s'
  | [], _, _, _, _, _, _, h, hs => by
    cases hs
    exact h.refl
  | c :: cs, _, _, _, hc, hσ, hlocals, h, hs => by
    rw [passifyCmds] at hs
    obtain ⟨s₁, hs₁, hs⟩ := Minting.bind_eq_ok.1 hs
    obtain ⟨hfirst, hlater⟩ := List.forall_mem_append.1 hlocals
    have h₁ := passifyCmd_typed hframe hc.1 hσ hfirst h hs₁
    exact h₁.trans (passifyCmds_typed hframe hc.2 (hσ.trans h₁.le) hlater h₁.typed hs)

end

end

/-! ## Blocks -/

/-- What some blocks of a body have become is well-typed over the names in force. -/
structure Advance.Typed (τ : Signature) (outer : List Variable) (done : List Nat) (s : Advance) :
    Prop where
  /-- The names in force. -/
  versions : s.versions.Typed τ outer
  /-- The passive commands of these blocks. -/
  cmds : ∀ id ∈ done, ∀ c ∈ s.body.cmdsAt id, StatesFormula (s.versions.signature τ outer) c
  /-- What stands for variables at the ends of blocks. -/
  maps : ∀ id m, s.exitMaps.lookup id = some m → m.Typed (s.versions.signature τ outer)

section

variable {c : Setting} {i : Implementation} {done : List Nat} {s s' : Advance}
  {incoming : List Incoming} {label x n : Name} {k : Kind}

/-- To reconcile predecessors adds equalities between a version and what stands for the variable. -/
theorem reconcile_typed (h : s.Typed τ outer done)
    (hincoming : ∀ q ∈ incoming, s.exitMaps.lookup q.1 = some q.2)
    (hlt : ∀ q ∈ incoming, q.1 < s.body.blocks.length) (hx : x.Versionless)
    (hk : (s.versions.signature τ outer).symbol x = some k)
    (hs : (reconcile label incoming x s).outcome = .ok (n, s')) : s'.Typed τ outer done ∧
      (s.versions.signature τ outer).Le (s'.versions.signature τ outer) ∧
      (s'.versions.signature τ outer).symbol n = some k := by
  obtain ⟨⟨name, versions⟩, hnext, hs⟩ := Minting.bind_eq_ok.1 hs
  cases hs
  obtain ⟨hversions, hle, hkind⟩ := h.versions.next hx hnext
  obtain ⟨-, hcmds⟩ := foldl_pushCmd n x incoming s.body hlt
  refine ⟨⟨hversions, fun p hp d hd => ?_, fun p m hm => (h.maps p m hm).mono hle⟩, hle, hkind k hk⟩
  have hd : d ∈ s.body.cmdsAt p ++ equalities incoming n x p := (congrArg (d ∈ ·) (hcmds p)).mp hd
  rcases List.mem_append.1 hd with hd | hd
  · exact (h.cmds p hp d hd).mono hle
  · obtain ⟨q, hq, rfl⟩ := List.mem_map.1 hd
    have hmap := (h.maps q.1 q.2 (hincoming q (List.mem_filter.1 hq).1)).standsFor hk
    exact Expr.kind?_eq (hkind k hk) (Expr.kind?_mono hle hmap)

/-- The same for several variables. -/
theorem reconcileAll_typed {isLive : Name → Bool} : ∀ {xs : List Name} {map map' : NameMap Expr}
    {s s' : Advance}, s.Obeys .all c.frame i done → s.Typed τ outer done →
    (∀ q ∈ incoming, s.exitMaps.lookup q.1 = some q.2) →
    (∀ q ∈ incoming, q.1 < s.body.blocks.length) →
    (∀ x ∈ xs, x.Versionless ∧ ∃ k, (s.versions.signature τ outer).symbol x = some k) →
    map.Typed (s.versions.signature τ outer) →
    (reconcileAll isLive label incoming xs map s).outcome = .ok (map', s') →
    s'.Typed τ outer done ∧ (s.versions.signature τ outer).Le (s'.versions.signature τ outer) ∧
      map'.Typed (s'.versions.signature τ outer)
  | [], _, _, _, _, _, h, _, _, _, hmap, hs => by
    cases hs
    exact ⟨h, .refl _, hmap⟩
  | x :: xs, _, _, _, _, hobeys, h, hincoming, hlt, hxs, hmap, hs => by
    obtain ⟨⟨hx, k, hk⟩, hxs⟩ := List.forall_mem_cons.1 hxs
    unfold reconcileAll at hs
    -- A live variable gets a version of its kind, and any other is left out of the map.
    split_ifs at hs
    · obtain ⟨⟨n, s₁⟩, hs₁, hs⟩ := Minting.bind_eq_ok.1 hs
      obtain ⟨hobeys₁, hmaps, hlength⟩ := reconcile_obeys hobeys hincoming hlt hs₁
      obtain ⟨h₁, hle, hn⟩ := reconcile_typed h hincoming hlt hx hk hs₁
      obtain ⟨h₂, hle', hmap'⟩ := reconcileAll_typed hobeys₁ h₁ (hmaps ▸ hincoming) (hlength ▸ hlt)
        (fun y hy => (hxs y hy).imp_right fun hk => hk.imp fun l => hle.symbol y l)
        ((hmap.mono hle).insert (e := .symbol n) hx (hle.symbol x k hk) hn) hs
      exact ⟨h₂, hle.trans hle', hmap'⟩
    · exact reconcileAll_typed hobeys h hincoming hlt hxs hmap hs

/-- One more block becomes well-typed passive commands. -/
theorem passifyBlock_typed (hlt : ∀ id ∈ done, id < i.blocks.length) {id : Nat} {b : Block}
    (hb : i.blocks[id]? = some b) (hid : id ∉ done) (hobeys : s.Obeys .all c.frame i done)
    (h : s.Typed τ outer done) (hframe : ∀ g a, c.frame.find? g = some a → a = .symbol g)
    (hσ : σ.Le (s.versions.signature τ outer)) (hcmds : Cmd.TypedAll p σ (i.cmdsAt id))
    (hlocals : ∀ v ∈ scopeLocalsAll (i.cmdsAt id), v.name.Versionless ∧ τ.Agrees v)
    (hs : (passifyBlock c id s).outcome = .ok s') : s'.Typed τ outer (done ++ [id]) ∧
      (s.versions.signature τ outer).Le (s'.versions.signature τ outer) := by
  have hblock : s.body.blocks[id]? = some b := by
    rw [Implementation.getElem?_of_outline_eq hobeys.outline hb, hobeys.rest id hid,
      Implementation.cmdsAt, hb]
    rfl
  obtain ⟨map, s₁, r, hstart, hpass, rfl⟩ := passifyBlock_cases hblock hs
  rw [startMap_eq] at hstart
  have hlookup : ∀ q ∈ incomingOf b s, s.exitMaps.lookup q.1 = some q.2 := fun q hq =>
    (mem_incomingOf.1 hq).2
  have hlt' : ∀ q ∈ incomingOf b s, q.1 < s.body.blocks.length := fun q hq => by
    rw [Implementation.length_of_outline_eq hobeys.outline]
    exact hlt q.1 (hobeys.mem_done q.1 q.2 (hlookup q hq))
  have hincoming : ∀ q ∈ incomingOf b s, q.2.Typed (s.versions.signature τ outer) := fun q hq =>
    h.maps q.1 q.2 (hlookup q hq)
  -- What is in dispute has something that stands for it at some predecessor.
  have hdisputed : ∀ x ∈ disputed c.lexicon (incomingOf b s),
      x.Versionless ∧ ∃ k, (s.versions.signature τ outer).symbol x = some k := by
    intro x hx
    obtain ⟨q, hq, e, he⟩ := mem_mentioned.1 (mem_disputed.1 hx).1
    obtain ⟨hname, k, hk, -⟩ := hincoming q hq x e he
    exact ⟨hname, k, hk⟩
  have hkept : (kept c.lexicon (incomingOf b s)).Typed (s.versions.signature τ outer) := by
    intro x e he
    obtain ⟨q, hq, hfind⟩ := exists_of_find?_kept he
    exact hincoming q hq x e hfind
  obtain ⟨h₁, hle, hmap⟩ :=
    reconcileAll_typed hobeys h hlookup hlt' hdisputed hkept hstart
  obtain ⟨-, hobeys₁, -⟩ := reconcileAll_obeys
    (kept_atomic fun q hq => hobeys.exitMaps q.1 q.2 (hlookup q hq)) hobeys hlookup hlt' hstart
  have hcmds' : i.cmdsAt id = b.cmds := by
    rw [Implementation.cmdsAt, hb]
    rfl
  rw [hcmds'] at hcmds hlocals
  have hr := passifyCmds_typed hframe (s := ⟨s₁.versions, map, []⟩) hcmds (hσ.trans hle) hlocals
    ⟨h₁.versions, hmap, fun d hd => by cases hd⟩ hpass
  have hlt₁ : id < s₁.body.blocks.length := by
    rw [Implementation.length_of_outline_eq hobeys₁.outline]
    exact (List.getElem?_eq_some_iff.1 hb).1
  refine ⟨⟨hr.typed.versions, fun q hq d hd => ?_, fun q m hm => ?_⟩, hle.trans hr.le⟩
  · rw [cmdsAt_finish hlt₁] at hd
    split_ifs at hd with heq
    · exact hr.typed.cmds d hd
    · have hmem := (List.mem_append.1 hq).resolve_right fun hmem =>
        heq (List.mem_singleton.1 hmem)
      exact (h₁.cmds q hmem d hd).mono hr.le
  · rw [lookup_finish] at hm
    split_ifs at hm
    · cases hm
      exact hr.typed.map
    · exact (h₁.maps q m hm).mono hr.le

/-- All blocks of a list become well-typed passive commands. -/
theorem passifyBlocks_typed (hatomic : c.frame.Atomic)
    (hframe : ∀ g a, c.frame.find? g = some a → a = .symbol g)
    (hcmds : ∀ id, Cmd.TypedAll p σ (i.cmdsAt id))
    (hlocals : ∀ id, ∀ v ∈ scopeLocalsAll (i.cmdsAt id), v.name.Versionless ∧ τ.Agrees v) :
    ∀ {ids done : List Nat} {s s' : Advance}, (done ++ ids).Nodup →
      (∀ id ∈ done ++ ids, id < i.blocks.length) → s.Obeys .all c.frame i done →
      s.Typed τ outer done → σ.Le (s.versions.signature τ outer) →
      (passifyBlocks c ids s).outcome = .ok s' → s'.Typed τ outer (done ++ ids) ∧
        (s.versions.signature τ outer).Le (s'.versions.signature τ outer)
  | [], done, _, _, _, _, _, h, _, hs => by
    cases hs
    rw [List.append_nil]
    exact ⟨h, .refl _⟩
  | id :: ids, done, _, _, hnodup, hlt, hobeys, h, hσ, hs => by
    rw [passifyBlocks] at hs
    obtain ⟨s₁, hs₁, hs⟩ := Minting.bind_eq_ok.1 hs
    have hlt_id : id < i.blocks.length := hlt id (by simp)
    have hid : id ∉ done := fun hmem =>
      (List.nodup_append.1 hnodup).2.2 id hmem id List.mem_cons_self rfl
    have hdone : ∀ p ∈ done, p < i.blocks.length := fun p hp => hlt p (List.mem_append_left _ hp)
    have hb := List.getElem?_eq_getElem hlt_id
    have hobeys₁ := passifyBlock_obeys hdone hb hid hobeys hatomic (Cmd.obeysAll_all _) hs₁
    obtain ⟨h₁, hle⟩ :=
      passifyBlock_typed hdone hb hid hobeys h hframe hσ (hcmds id) (hlocals id) hs₁
    -- The block just passified is one of those done when the rest is.
    have hsplit : done ++ id :: ids = done ++ [id] ++ ids := by simp
    rw [hsplit] at hnodup hlt ⊢
    obtain ⟨h₂, hle'⟩ := passifyBlocks_typed hatomic hframe hcmds hlocals hnodup hlt hobeys₁ h₁
      (hσ.trans hle) hs
    exact ⟨h₂, hle.trans hle'⟩

end

/-! ## Bodies -/

section

variable {i : Implementation} {ds : List Variable}

/-- What is declared from the start is in force outside of scopes or is a local of a scope. -/
theorem mem_of_find?_initialVersions (hi : i.Ready p σ ds) {x : Name} {d : Variable}
    (hd : (initialVersions p i).declarations.find? x = some d) :
    d.name = x ∧ (d ∈ p.globals ++ (i.inputs ++ i.outputs ++ i.locals) ∨ d ∈ ds) := by
  obtain ⟨v, hv, heq⟩ := List.mem_map.1 (NameMap.mem_of_find?_ofList hd)
  cases heq
  refine ⟨rfl, ?_⟩
  rcases List.mem_append.1 hv with hv | hv
  · refine .inl ?_
    simp only [List.mem_append] at hv ⊢
    tauto
  · obtain ⟨b, hb, hv⟩ := List.mem_flatMap.1 hv
    obtain ⟨id, hid⟩ := List.mem_iff_getElem?.1 hb
    refine .inr (hi.body.scopes id ?_)
    rwa [Implementation.cmdsAt, hid]

/-- At the start of passification the names outside of scopes are in force. -/
theorem initialVersions_typed (hi : i.Ready p σ ds) : (initialVersions p i).Typed (σ.declare ds)
      (p.globals ++ (i.inputs ++ i.outputs ++ i.locals)) ∧
    σ.Le ((initialVersions p i).signature (σ.declare ds)
      (p.globals ++ (i.inputs ++ i.outputs ++ i.locals))) := by
  set outer := p.globals ++ (i.inputs ++ i.outputs ++ i.locals)
  -- No scope has been entered and no version made, so only the variables outside of scopes are in
  -- force.
  have hinForce : (initialVersions p i).inForce outer = outer := by
    rw [Versions.inForce]
    exact (List.append_nil _).trans (List.append_nil _)
  have htyped : ∀ v ∈ outer, v.Typed σ ∧ σ.Agrees v :=
    List.forall_mem_append.2 ⟨hi.globals, hi.body.vars⟩
  have hkind : ∀ v ∈ outer, ∃ k, v.ty.kind? = some k ∧ σ.symbol v.name = some k := fun v hv =>
    let ⟨k, hk⟩ := (htyped v hv).1.ty
    ⟨k, hk, (htyped v hv).2.trans hk⟩
  have hanew := hi.declaresAnew
  have hsymbol : ∀ n k, σ.symbol n = some k → (σ.declare ds).withVersions.symbol n = some k :=
    fun n k hn => (Signature.symbol_withVersions (hi.names n k hn)).trans (hanew.le.symbol n k hn)
  have hle : σ.Le ((initialVersions p i).signature (σ.declare ds) outer) :=
    ⟨fun n k hn => Versions.symbol_signature.2
      ⟨hinForce.symm ▸ hi.body.names n k hn, hsymbol n k hn⟩, fun _ _ hf => hf⟩
  refine ⟨⟨fun v hv => ?_, fun x d hd _ => ?_, fun x d hd _ => ?_, fun x k w hx hw => ?_⟩, hle⟩
  · obtain ⟨k, hk, hn⟩ := hkind v (hinForce ▸ hv)
    exact (hsymbol v.name k hn).trans hk.symm
  · obtain ⟨rfl, hd | hd⟩ := mem_of_find?_initialVersions hi hd
    · obtain ⟨k, -, hn⟩ := hkind d hd
      exact hi.names d.name k hn
    · exact hi.scopes d hd
  · obtain ⟨rfl, hd | hd⟩ := mem_of_find?_initialVersions hi hd
    · obtain ⟨k, hk, hn⟩ := hkind d hd
      exact (hanew.le.symbol d.name k hn).trans hk.symm
    · exact hanew.agrees d hd
  · obtain ⟨d, hd, hwhere⟩ := Option.bind_eq_some_iff.1 hw
    obtain ⟨rfl, hd | hd⟩ := mem_of_find?_initialVersions hi hd
    · exact Expr.kind?_mono hle ((htyped d hd).1.whereClause w hwhere)
    · -- A name that is in force outside of scopes is not that of a local of a scope.
      obtain ⟨v, hv, hname⟩ := List.mem_map.1 (Versions.symbol_signature.1 hx).1
      obtain ⟨l, -, hn⟩ := hkind v (hinForce ▸ hv)
      rw [hname, hanew.new d hd] at hn
      cases hn

/-- The locals of scopes are declared in a body, those with a name that is declared already being
left out. -/
theorem mem_foldl_declare : ∀ (vs : List Variable) (i : Implementation), ∃ ws, (∀ v ∈ ws, v ∈ vs) ∧
    vs.foldl (fun i v => if (i.lookup? v.name).isSome then i
      else { i with locals := i.locals ++ [v] }) i = { i with locals := i.locals ++ ws } ∧
    ∀ v ∈ vs, v.name ∈ (i.inputs ++ i.outputs ++ (i.locals ++ ws)).map (·.name)
  | [], i => ⟨[], by simp, by simp, by simp⟩
  | u :: us, i => by
    rw [List.foldl_cons]
    -- A local of a declared name is passed over, and any other is put behind the locals.
    split_ifs with hlookup
    · obtain ⟨ws, hws, hfold, hnames⟩ := mem_foldl_declare us i
      refine ⟨ws, fun v hv => List.mem_cons_of_mem _ (hws v hv), hfold,
        List.forall_mem_cons.2 ⟨?_, hnames⟩⟩
      obtain ⟨v, hv⟩ := Option.isSome_iff_exists.1 hlookup
      rw [← of_decide_eq_true (List.find?_some (p := fun w : Variable => w.name = u.name) hv),
        ← List.append_assoc]
      exact List.mem_map_of_mem (List.mem_append_left _ (List.mem_of_find?_eq_some hv))
    · obtain ⟨ws, hws, hfold, hnames⟩ := mem_foldl_declare us { i with locals := i.locals ++ [u] }
      refine ⟨u :: ws, ?_, ?_, List.forall_mem_cons.2 ⟨by simp, fun v hv => ?_⟩⟩
      · exact List.forall_mem_cons.2
          ⟨List.mem_cons_self, fun v hv => List.mem_cons_of_mem _ (hws v hv)⟩
      · rw [hfold]
        simp
      · simpa using hnames v hv

/-- Every name in force at the end of passification has a declaration, which is in force. -/
theorem exists_declaration {s : Versions} {n : Name}
    (hn : n ∈ (s.inForce (p.globals ++ (i.inputs ++ i.outputs ++ i.locals))).map (·.name)) :
    ∃ v ∈ s.inForce (p.globals ++ (i.inputs ++ i.outputs ++ i.locals)), v.name = n ∧
      ((declareVersions i s).lookup? n).or (p.global? n) = some v := by
  obtain ⟨ws, hws, hfold, hnames⟩ := mem_foldl_declare s.scopeLocals i
  have hlookup : (declareVersions i s).lookup? n =
      (i.inputs ++ i.outputs ++ (i.locals ++ ws ++ s.made)).find? (·.name = n) := by
    unfold declareVersions
    rw [hfold]
    rfl
  rw [hlookup]
  cases hfind : (i.inputs ++ i.outputs ++ (i.locals ++ ws ++ s.made)).find? (·.name = n) with
  | some v =>
    refine ⟨v, ?_, by simpa using List.find?_some hfind, rfl⟩
    have hv := List.mem_of_find?_eq_some hfind
    have hv' := hws v
    simp only [Versions.inForce, List.mem_append] at hv ⊢
    tauto
  | none =>
    -- A name that the body does not declare is that of a global.
    have hnot : ∀ w ∈ i.inputs ++ i.outputs ++ (i.locals ++ ws ++ s.made), w.name ≠ n :=
      fun w hw hname => List.find?_eq_none.1 hfind w hw (decide_eq_true hname)
    obtain ⟨v, hv, rfl⟩ := List.mem_map.1 hn
    have hglobal : v ∈ p.globals := by
      rcases List.mem_append.1 hv with hv | hv
      · rcases List.mem_append.1 hv with hv | hv
        · refine (List.mem_append.1 hv).resolve_right fun hv => hnot v ?_ rfl
          simp only [List.mem_append] at hv ⊢
          tauto
        · obtain ⟨w, hw, hname⟩ := List.mem_map.1 (hnames v hv)
          refine absurd hname (hnot w ?_)
          simp only [List.mem_append] at hw ⊢
          tauto
      · exact absurd rfl (hnot v (List.mem_append_right _ (List.mem_append_right _ hv)))
    cases hd : p.global? v.name with
    | some d =>
      obtain ⟨hmem, hname⟩ := Program.mem_globals_of_global? hd
      exact ⟨d, List.mem_append_left _ (List.mem_append_left _ (List.mem_append_left _ hmem)),
        hname, rfl⟩
    | none => exact absurd (decide_eq_true rfl) (List.find?_eq_none.1 hd v hglobal)

/-- The passive commands of a well-typed body are well-typed over the names that are declared in the
end, with the types that they are declared with. -/
theorem passify_typed {l : Lexicon} {prune : Bool} {q : Procedure} {e : SingleExit}
    {b : PassiveImplementation} (he : e.body.Ready p σ ds)
    (hb : (passify l prune p q e).outcome = .ok b) :
    ∃ κ : Signature, κ.function = σ.function ∧
      (∀ id ∈ b.order, ∀ c ∈ b.body.cmdsAt id, StatesFormula κ c) ∧
      ∀ n k, κ.symbol n = some k → ∃ v, (b.body.lookup? n).or (p.global? n) = some v ∧
        v.ty.kind? = some k := by
  obtain ⟨order, s, horder, hblocks, hreturn, rfl⟩ := passify_eq_ok.1 hb
  have htopological := Implementation.isTopologicalOrder horder
    (Implementation.entry_lt_length horder (mem_of_filter_isReturn_eq hreturn))
  have hnodup : ([] ++ order).Nodup := htopological.nodup
  have hframe : ∀ g a, NameMap.find? (.ofList (q.modifies.map fun g => (g, .symbol g))) g = some a →
      a = Expr.symbol g := by
    intro g a ha
    obtain ⟨g', -, heq⟩ := List.mem_map.1 (NameMap.mem_of_find?_ofList ha)
    cases heq
    rfl
  have hlocals : ∀ id, ∀ v ∈ scopeLocalsAll (e.body.cmdsAt id),
      v.name.Versionless ∧ (σ.declare ds).Agrees v := fun id v hv =>
    ⟨he.scopes v (he.body.scopes id hv), he.declaresAnew.agrees v (he.body.scopes id hv)⟩
  have hobeys : Advance.Obeys .all (settingOf l prune p q e.body order).frame e.body []
      ⟨e.body, initialVersions p e.body, []⟩ := .start fun _ _ _ => trivial
  obtain ⟨hstart, hσ⟩ := initialVersions_typed he
  obtain ⟨hdone, -⟩ := passifyBlocks_typed (c := settingOf l prune p q e.body order)
    (atomic_frame q.modifies) hframe he.body.cmds hlocals hnodup htopological.lt_length hobeys
    ⟨hstart, fun _ h => (nomatch h), fun _ _ h => nomatch h⟩ hσ hblocks
  -- Passification leaves the variables of the body as they are.
  obtain ⟨blocks, hbody⟩ := (passifyBlocks_obeys (atomic_frame q.modifies)
    (fun _ => Cmd.obeysAll_all _) hnodup htopological.lt_length hobeys hblocks).body
  refine ⟨s.versions.signature (σ.declare ds)
    (p.globals ++ (e.body.inputs ++ e.body.outputs ++ e.body.locals)), rfl, fun id hid c hc => ?_,
    fun n k hn => ?_⟩
  · rw [cmdsAt_declareVersions] at hc
    exact hdone.cmds id hid c hc
  · obtain ⟨hmem, hkind⟩ := Versions.symbol_signature.1 hn
    obtain ⟨v, hv, rfl, hfind⟩ := exists_declaration (i := s.body) (by rw [hbody]; exact hmem)
    refine ⟨v, hfind, ?_⟩
    rw [hbody] at hv
    exact (hdone.versions.agrees v hv).symm.trans hkind

end

end Obligations.Passive
