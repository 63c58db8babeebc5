import Obligations.Condition.Generation
import Obligations.Proofs.Call.Numbering
import Obligations.Proofs.Passive.Failure
import Obligations.Proofs.Passive.Versions
import Obligations.Proofs.Vocabulary.Preparation

/-!
# Names made up for variables

Two kinds of names are made up for variables: those of the locals that calls get, and those of
versions. The versions that passification makes are pairwise distinct, as those of one variable are
numbered on (`Passive.names_passify`). None of the names made up is compared with the names that
the program declares. `Implementation.passiveForm_freshNames_iff` says when all of them are distinct
and new, and that versions are always new in programs that declare no name that has the form of the
name of a version. `clashing_not_freshNames` is a body for which a version has the name of a local.
-/

namespace Obligations

namespace Versions

/-- The number of versions of a variable. -/
def count (s : Versions) (x : Name) : Nat := (s.counts.find? x).getD 0

/-- Versions with some names are made one after another. -/
structure Mints (s s' : Versions) (ns : List Name) : Prop where
  /-- Versions are only added. -/
  counts : ∀ x, s.count x ≤ s'.count x
  /-- The names are those of the versions added. -/
  numbered : ∀ n ∈ ns, ∃ x k, n = x.incarnation k ∧ s.count x ≤ k ∧ k < s'.count x
  /-- They are distinct. -/
  nodup : ns.Nodup
  /-- They are listed in the order in which they are made. -/
  made : s'.made.map (·.name) = s.made.map (·.name) ++ ns

variable {s s' t : Versions} {ns ms : List Name}

theorem Mints.refl (s : Versions) : s.Mints s [] :=
  ⟨fun _ => Nat.le_refl _, by simp, .nil, (List.append_nil _).symm⟩

/-- Versions that are made later have greater numbers. -/
theorem Mints.trans (h : s.Mints s' ns) (h' : s'.Mints t ms) : s.Mints t (ns ++ ms) := by
  refine ⟨fun x => Nat.le_trans (h.counts x) (h'.counts x), fun n hn => ?_, ?_, ?_⟩
  · rcases List.mem_append.1 hn with hn | hn
    · obtain ⟨x, k, rfl, hlow, hhigh⟩ := h.numbered n hn
      exact ⟨x, k, rfl, hlow, Nat.lt_of_lt_of_le hhigh (h'.counts x)⟩
    · obtain ⟨x, k, rfl, hlow, hhigh⟩ := h'.numbered n hn
      exact ⟨x, k, rfl, Nat.le_trans (h.counts x) hlow, hhigh⟩
  · refine List.nodup_append.2 ⟨h.nodup, h'.nodup, ?_⟩
    rintro n hn m hm rfl
    obtain ⟨x, k, heq, -, hhigh⟩ := h.numbered n hn
    obtain ⟨y, j, heq', hlow, -⟩ := h'.numbered n hm
    obtain ⟨rfl, rfl⟩ := Name.incarnation_injective (heq.symm.trans heq')
    omega
  · rw [h'.made, h.made, List.append_assoc]

/-- The next version of a variable has the next number. -/
theorem mints_next {x n : Name} {o : Origin} (h : (s.next x o).outcome = .ok (n, s')) :
    s.Mints s' (s.next x o).names := by
  cases hx : s.declarations.find? x with
  | none =>
    rw [next, hx] at h
    cases h
  | some v =>
    have hnames : (s.next x o).names = [x.incarnation (s.count x)] := by
      rw [next, hx]
      rfl
    rw [next_eq_ok hx o] at h
    cases h
    -- Only the count of the variable itself goes up, by the one version.
    have hcount : ∀ y, (s.grow x v.ty o).count y =
        if y = x then s.count x + 1 else s.count y := fun y => count_grow
    rw [hnames]
    refine ⟨fun y => ?_, fun n hn => ?_, List.nodup_singleton _, ?_⟩
    · rw [hcount]
      split_ifs with hy
      · rw [hy]
        omega
      · exact Nat.le_refl _
    · refine ⟨x, s.count x, List.mem_singleton.1 hn, Nat.le_refl _, ?_⟩
      rw [hcount, if_pos rfl]
      omega
    · rw [grow, List.map_append]
      rfl

/-- No version is made when locals come into force. -/
theorem mints_declare (s : Versions) (locals : List Variable) : s.Mints (s.declare locals) [] :=
  ⟨fun _ => Nat.le_refl _, by simp, .nil, (List.append_nil _).symm⟩

end Versions

namespace Passive

open Versions

variable {frame : NameMap Expr} {block label : Name}

/-- A version is made for a variable that gets one. -/
theorem names_renew {s s' : Progress} {x n : Name} {o : Origin}
    (h : (s.renew x o).outcome = .ok (n, s')) :
    s.versions.Mints s'.versions (s.renew x o).names := by
  unfold Progress.renew at h ⊢
  obtain ⟨⟨n', versions⟩, hnext, h, hnames⟩ := Minting.names_of_bind h
  cases h
  rw [hnames]
  exact (List.append_nil _).symm ▸ mints_next hnext

/-- The versions made in an assignment. -/
theorem names_assignAll : ∀ {pairs : List (Name × Expr)} {s s' : Progress} {es : List Expr},
    (assignAll block s pairs).outcome = .ok (es, s') →
      s.versions.Mints s'.versions (assignAll block s pairs).names
  | [], s, s', es, h => by
    cases h
    exact .refl _
  | (x, value) :: rest, s, s', es, h => by
    rw [assignAll] at h ⊢
    split_ifs at h ⊢ with hundeclared hversion hatomic
    · cases h
    · obtain ⟨⟨es', s₁⟩, hrest, h, hnames⟩ := Minting.names_of_bind h
      cases h
      rw [hnames]
      exact (List.append_nil _).symm ▸ names_assignAll hrest
    · exact names_assignAll h
    · obtain ⟨⟨n, s₁⟩, hrenew, h, hnames⟩ := Minting.names_of_bind h
      obtain ⟨⟨es', s₂⟩, hrest, h, hnames'⟩ := Minting.names_of_bind h
      cases h
      rw [hnames, hnames']
      exact (names_renew hrenew).trans ((List.append_nil _).symm ▸ names_assignAll hrest)

/-- The versions made for variables that get arbitrary values. -/
theorem names_renewAll : ∀ {xs : List Name} {s s' : Progress},
    (renewAll block s xs).outcome = .ok s' →
      s.versions.Mints s'.versions (renewAll block s xs).names
  | [], s, s', h => by
    cases h
    exact .refl _
  | x :: xs, s, s', h => by
    rw [renewAll] at h ⊢
    split_ifs at h ⊢
    · exact names_renewAll h
    · obtain ⟨⟨n, s₁⟩, hrenew, h, hnames⟩ := Minting.names_of_bind h
      rw [hnames]
      exact (names_renew hrenew).trans (names_renewAll h)

/-- No version is made to assume the condition on a variable. -/
theorem versions_assumeWhere (s : Progress) (w : Option Expr) :
    (s.assumeWhere frame w).versions = s.versions := by
  cases w <;> rfl

theorem versions_foldl_assumeWhere {α : Type} (f : Progress → α → Option Expr) (as : List α)
    (s : Progress) :
    (as.foldl (fun s a => s.assumeWhere frame (f s a)) s).versions = s.versions := by
  induction as generalizing s with
  | nil => rfl
  | cons a as ih => rw [List.foldl_cons, ih, versions_assumeWhere]

mutual

/-- The versions made in a command. -/
theorem names_passifyCmd : ∀ {c : Cmd} {s s' : Progress},
    (passifyCmd frame block c s).outcome = .ok s' →
      s.versions.Mints s'.versions (passifyCmd frame block c s).names
  | .assert _, s, s', h | .assume _, s, s', h | .comment _, s, s', h => by
    cases h
    exact .refl _
  | .assign pairs, s, s', h => by
    rw [passifyCmd] at h ⊢
    obtain ⟨⟨es, s₁⟩, hassign, h, hnames⟩ := Minting.names_of_bind h
    cases h
    -- An assumption is emitted if there are equalities, and this makes no versions.
    have hversions : (if es.isEmpty then s₁ else s₁.emit (.assume (.conjAll es))).versions =
        s₁.versions := by
      split_ifs <;> rfl
    rw [hnames, hversions]
    exact (List.append_nil _).symm ▸ names_assignAll hassign
  | .havoc vars, s, s', h => by
    rw [passifyCmd] at h ⊢
    obtain ⟨s₁, hrenew, h, hnames⟩ := Minting.names_of_bind h
    cases h
    rw [hnames, versions_foldl_assumeWhere]
    exact (List.append_nil _).symm ▸ names_renewAll hrenew
  | .call callee args outputs, s, s', h => by
    rw [passifyCmd] at h
    cases h
  | .scope locals cmds, s, s', h => by
    rw [passifyCmd] at h ⊢
    obtain ⟨s₁, hcmds, h, hnames⟩ := Minting.names_of_bind h
    cases h
    have hinside := names_passifyCmds hcmds
    rw [versions_foldl_assumeWhere] at hinside
    rw [hnames]
    exact (List.append_nil _).symm ▸ (mints_declare s.versions locals).trans hinside

/-- The versions made in several commands. -/
theorem names_passifyCmds : ∀ {cs : List Cmd} {s s' : Progress},
    (passifyCmds frame block cs s).outcome = .ok s' →
      s.versions.Mints s'.versions (passifyCmds frame block cs s).names
  | [], s, s', h => by
    cases h
    exact .refl _
  | c :: cs, s, s', h => by
    rw [passifyCmds] at h ⊢
    obtain ⟨s₁, hc, h, hnames⟩ := Minting.names_of_bind h
    rw [hnames]
    exact (names_passifyCmd hc).trans (names_passifyCmds h)

end

/-- The versions made where predecessors disagree. -/
theorem names_reconcileAll {isLive : Name → Bool} {incoming : List Incoming} :
    ∀ {xs : List Name} {map map' : NameMap Expr} {s s' : Advance},
    (reconcileAll isLive label incoming xs map s).outcome = .ok (map', s') →
      s.versions.Mints s'.versions (reconcileAll isLive label incoming xs map s).names
  | [], map, map', s, s', h => by
    cases h
    exact .refl _
  | x :: xs, map, map', s, s', h => by
    rw [reconcileAll] at h ⊢
    split_ifs at h ⊢
    · obtain ⟨⟨n, s₁⟩, hreconcile, h, hnames⟩ := Minting.names_of_bind h
      obtain ⟨⟨n', versions⟩, hnext, hs₁, hnames'⟩ := Minting.names_of_bind hreconcile
      cases hs₁
      rw [hnames]
      have hone : s.versions.Mints versions (reconcile label incoming x s).names := by
        change s.versions.Mints versions (_ >>= _ : Minting ConditionError (Name × Advance)).names
        rw [hnames']
        exact (List.append_nil _).symm ▸ mints_next hnext
      exact hone.trans (names_reconcileAll h)
    · exact names_reconcileAll h

/-- The versions made in a block. -/
theorem names_passifyBlock {c : Setting} {id : Nat} {s s' : Advance}
    (h : (passifyBlock c id s).outcome = .ok s') :
    s.versions.Mints s'.versions (passifyBlock c id s).names := by
  unfold passifyBlock at h ⊢
  cases hb : s.body.blocks[id]? with
  | none =>
    simp only [hb] at h ⊢
    cases h
    exact .refl _
  | some b =>
    simp only [hb] at h ⊢
    obtain ⟨⟨map, s₁⟩, hstart, h, hnames⟩ := Minting.names_of_bind h
    obtain ⟨p, hcmds, h, hnames'⟩ := Minting.names_of_bind h
    cases h
    rw [hnames, hnames']
    exact (names_reconcileAll hstart).trans
      ((List.append_nil _).symm ▸ names_passifyCmds hcmds)

/-- The versions made in several blocks. -/
theorem names_passifyBlocks {c : Setting} : ∀ {ids : List Nat} {s s' : Advance},
    (passifyBlocks c ids s).outcome = .ok s' →
      s.versions.Mints s'.versions (passifyBlocks c ids s).names
  | [], s, s', h => by
    cases h
    exact .refl _
  | id :: ids, s, s', h => by
    rw [passifyBlocks] at h ⊢
    obtain ⟨s₁, hid, h, hnames⟩ := Minting.names_of_bind h
    rw [hnames]
    exact (names_passifyBlock hid).trans (names_passifyBlocks h)

/-- The names made up in passification are distinct, have the form of names of versions, and are
declared after the other locals of the passive body. -/
theorem names_passify {l : Lexicon} {prune : Bool} {p : Program} {q : Procedure} {e : SingleExit}
    {b : PassiveImplementation} (h : (passify l prune p q e).outcome = .ok b) :
    (passify l prune p q e).names.Nodup ∧
      (∀ n ∈ (passify l prune p q e).names, ∃ x k, n = Name.incarnation x k) ∧
      (passify l prune p q e).names <:+ b.body.locals.map (·.name) := by
  unfold passify at h ⊢
  obtain ⟨order, -, h, hnames⟩ := Minting.names_of_bind h
  obtain ⟨s, hblocks, h, hnames'⟩ := Minting.names_of_bind h
  have hmints := names_passifyBlocks hblocks
  rw [hnames, hnames']
  -- Nothing is made up once the blocks are passified.
  generalize order.filter (fun id => (s.body.blocks[id]?.map (·.transfer.isReturn)).getD false) =
    exits at h ⊢
  split at h
  case h_2 => cases h
  case h_1 exit =>
    split_ifs at h with hexit
    · cases h
      rw [if_pos hexit]
      change ([] ++ (_ ++ [])).Nodup ∧ (∀ n ∈ [] ++ (_ ++ []), _) ∧ [] ++ (_ ++ []) <:+ _
      rw [List.nil_append, List.append_nil]
      refine ⟨hmints.nodup, fun n hn => ?_, ?_⟩
      · obtain ⟨x, k, hname, -⟩ := hmints.numbered n hn
        exact ⟨x, k, hname⟩
      · have hmade : s.versions.made.map (·.name) = _ := hmints.made
        unfold declareVersions
        rw [List.map_append, hmade]
        exact List.suffix_append _ _
    · cases h

end Passive

/-! ## Names that a program declares -/

/-- The variables that a condition of a contract declares. -/
def Condition.declared : Condition → List Variable
  | .formula _ => []
  | .blocks bs => bs.flatMap fun b => Passive.scopeLocalsAll b.cmds

/-- The variables that a procedure declares. -/
def Procedure.declared (q : Procedure) : List Variable :=
  q.inputs ++ q.outputs ++ (q.requires.flatMap fun r => r.condition.declared) ++
    q.ensures.flatMap fun e => e.condition.declared

/-- The variables that a body declares, those of its scopes included. -/
def Implementation.declared (i : Implementation) : List Variable :=
  i.inputs ++ i.outputs ++ i.locals ++ i.blocks.flatMap fun b => Passive.scopeLocalsAll b.cmds

/-- The names of the variables that a program with a body declares. -/
def Program.declaredNames (p : Program) (i : Implementation) : List Name :=
  (p.globals ++ p.procedures.flatMap Procedure.declared ++
    p.implementations.flatMap Implementation.declared ++ i.declared).map (·.name)

/-- The names of the versions that are made when a body is passified. -/
def Implementation.versionNames (i : Implementation) (p : Program) (o : GenerationOptions)
    (l : Lexicon) : List Name :=
  match (i.prepare p).outcome with
  | .ok (q, e) => (Passive.passify ((i.prepare p).names.foldl Lexicon.mention l) o.prune p q e).names
  | .error _ => []

/-- Names made up for variables are distinct and none of them is declared. -/
structure FreshNames (temporaries versions declared : List Name) : Prop where
  /-- They are distinct. -/
  nodup : (temporaries ++ versions).Nodup
  /-- They are new. -/
  notMem_declared : ∀ n ∈ temporaries ++ versions, n ∉ declared

namespace Implementation

variable {i : Implementation} {p : Program} {o : GenerationOptions} {l l' : Lexicon}
  {b : PassiveImplementation}

/-- A local of a call has the form of the name of a version only if the input or the global that it
is for has. -/
theorem versionless_temporaries (hcallees : ∀ callee ∈ i.callees, p.ChangesDeclared callee)
    (hdeclared : ∀ n ∈ p.declaredNames i, n.Versionless) :
    ∀ n ∈ i.temporaries p, n.Versionless := by
  intro n hn
  obtain ⟨k, callee, q, hcallee, hq, hn⟩ := mem_temporariesFrom_iff.1 hn
  -- What is put in front of the name has no separator, so the name is the same behind it.
  have hlocals : ∀ (kind : String) (x : Name), '@' ∉ kind.toList → x.Versionless →
      Name.Versionless ⟨"call" ++ toString (0 + k) ++ kind ++ x.text⟩ := by
    intro kind x hkind hx
    refine hx.append ?_
    have hdigits := Name.separator_not_mem_toDigits k
    simpa [String.toList_append, Nat.toString_eq_repr, Nat.toList_repr] using ⟨hdigits, hkind⟩
  rcases CallSite.mem_keeperNames_iff.1 hn with ⟨x, hx, rfl⟩ | ⟨g, hg, rfl⟩
  · refine hlocals "formal" x.name (by decide) (hdeclared _ (List.mem_map_of_mem ?_))
    have hmem : x ∈ p.procedures.flatMap Procedure.declared := List.mem_flatMap.2
      ⟨q, List.mem_of_find?_eq_some hq, by simp [Procedure.declared, hx]⟩
    simp only [List.mem_append]
    exact .inl (.inl (.inr hmem))
  · refine hlocals "old" g (by decide) (hdeclared _ ?_)
    have hmem := hcallees callee (List.mem_of_getElem? hcallee) q hq g hg
    simp only [Program.declaredNames, List.map_append, List.mem_append]
    exact .inl (.inl (.inl hmem))

/-- What is known of the names that are made up when a body is passified. -/
theorem names_passiveForm (h : (i.passiveForm p o).run l = (.ok b, l')) :
    (i.expandCalls p).names = i.temporaries p ∧
      (∀ callee ∈ i.callees, p.ChangesDeclared callee) ∧
      (i.versionNames p o l).Nodup ∧
      (∀ n ∈ i.versionNames p o l, ∃ x k, n = Name.incarnation x k) ∧
      i.versionNames p o l <:+ b.body.locals.map (·.name) := by
  obtain ⟨q, e, hprepare, hpassify⟩ := passiveForm_cases h
  have hversions : i.versionNames p o l = (Passive.passify
      ((i.prepare p).names.foldl Lexicon.mention l) o.prune p q e).names := by
    rw [versionNames, hprepare]
  obtain ⟨-, -, expanded, -, -, -, hexpanded, -⟩ := prepare_eq_ok.1 hprepare
  obtain ⟨blocks, hblocks, -⟩ := Minting.bind_eq_ok.1 hexpanded
  rw [hversions]
  exact ⟨names_expandCalls hexpanded, changesDeclared_of_expandBlocks hblocks,
    Passive.names_passify hpassify⟩

/-- The names made up when a body is passified, which are those of the locals of its calls and those
of versions declared in the passive body, are distinct and new exactly if no procedure that it calls
has two inputs of one name or lists a global twice, no local of a call has a declared name, and no
version has a declared name or that of such a local. The last is so in a program that declares no
name of the form of the name of a version. -/
theorem passiveForm_freshNames_iff (h : (i.passiveForm p o).run l = (.ok b, l')) :
    (i.expandCalls p).names = i.temporaries p ∧
      i.versionNames p o l <:+ b.body.locals.map (·.name) ∧
      (FreshNames (i.temporaries p) (i.versionNames p o l) (p.declaredNames i) ↔
        (∀ callee ∈ i.callees, ∀ q, p.procedure? callee = some q →
          (q.inputs.map (·.name)).Nodup ∧ q.modifies.Nodup) ∧
        (∀ n ∈ p.declaredNames i, n ∉ i.temporaries p) ∧
        ∀ n ∈ p.declaredNames i ++ i.temporaries p, n ∉ i.versionNames p o l) ∧
      ((∀ n ∈ p.declaredNames i, n.Versionless) →
        ∀ n ∈ p.declaredNames i ++ i.temporaries p, n ∉ i.versionNames p o l) := by
  obtain ⟨hnames, hcallees, hnodup, hversions, hlocals⟩ := names_passiveForm h
  refine ⟨hnames, hlocals, ⟨fun hfresh => ?_, fun ⟨hdistinct, hnew, hversion⟩ => ?_⟩,
    fun hdeclared n hn hmem => ?_⟩
  · obtain ⟨htemporaries, -, hdisjoint⟩ := List.nodup_append.1 hfresh.nodup
    refine ⟨nodup_temporariesFrom_iff.1 htemporaries, fun n hn hmem => ?_, fun n hn hmem => ?_⟩
    · exact hfresh.notMem_declared n (List.mem_append_left _ hmem) hn
    · rcases List.mem_append.1 hn with hn | hn
      · exact hfresh.notMem_declared n (List.mem_append_right _ hmem) hn
      · exact hdisjoint n hn n hmem rfl
  · constructor
    · refine List.nodup_append.2 ⟨nodup_temporariesFrom_iff.2 hdistinct, hnodup, ?_⟩
      rintro n hn m hm rfl
      exact hversion n (List.mem_append_right _ hn) hm
    · intro n hn hdeclared
      rcases List.mem_append.1 hn with hn | hn
      · exact hnew n hdeclared hn
      · exact hversion n (List.mem_append_left _ hdeclared) hn
  · obtain ⟨x, k, heq⟩ := hversions n hmem
    rcases List.mem_append.1 hn with hn | hn
    · exact hdeclared n hn x k heq
    · exact versionless_temporaries hcallees hdeclared n hn x k heq

/-- A body that calls a procedure twice. -/
def keepingBody : Implementation where
  name := ⟨"P"⟩
  inputs := []
  outputs := []
  locals := []
  attributes := []
  entry := 0
  blocks :=
    [⟨⟨"entry"⟩, [.call ⟨"Q"⟩ [.symbol ⟨"g"⟩] [], .call ⟨"Q"⟩ [.int 1] []], [], .ret⟩]

/-- The procedure of the body. -/
def keepingProcedure : Procedure := ⟨⟨"P"⟩, [], [], [], [], [⟨"g"⟩], []⟩

/-- A program with the body. The procedure that it calls has an input and may change a global. -/
def keeping : Program where
  globals := [⟨⟨"g"⟩, .int, none, .global⟩]
  functions := []
  procedures := [keepingProcedure, ⟨⟨"Q"⟩, [⟨⟨"x"⟩, .int, none, .input⟩], [], [], [], [⟨"g"⟩], []⟩]
  implementations := [keepingBody]

/-- A scope that keeps an argument and the global, and changes the global. -/
def keepingScope (input output : Name) (argument : Expr) : Cmd :=
  .scope [⟨input, .int, none, .local⟩, ⟨output, .int, none, .local⟩]
    [.assign [(input, argument), (output, .symbol ⟨"g"⟩)], .havoc [⟨"g"⟩]]

/-- The body made ready for passification. -/
def keepingReadied : Implementation := { keepingBody with
  blocks :=
    [⟨⟨"entry"⟩, [keepingScope ⟨"call0formalx"⟩ ⟨"call0oldg"⟩ (.symbol ⟨"g"⟩),
      keepingScope ⟨"call1formalx"⟩ ⟨"call1oldg"⟩ (.int 1)], [1], .ret⟩,
     ⟨⟨"PreconditionGeneratedEntry0"⟩, [], [], .goto [0]⟩]
  entry := 1 }

theorem prepare_keepingBody :
    (keepingBody.prepare keeping).outcome = .ok (keepingProcedure, ⟨keepingReadied, 0, []⟩) := by
  have hcheck : keepingBody.check = .ok () := by cbv
  have hcheck' : keepingReadied.check = .ok () := by cbv
  exact Implementation.prepare_eq_ok.2 ⟨rfl, hcheck, _, _, _, _, rfl, rfl, rfl, rfl,
    hcheck', rfl, rfl⟩

theorem passiveForm_freshNames_iff_keeping :
    ∃ b l', (keepingBody.passiveForm keeping { encoding := .inline }).run .initial = (.ok b, l') ∧
      keepingBody.temporaries keeping =
        [⟨"call0formalx"⟩, ⟨"call0oldg"⟩, ⟨"call1formalx"⟩, ⟨"call1oldg"⟩] ∧
      FreshNames (keepingBody.temporaries keeping)
        (keepingBody.versionNames keeping { encoding := .inline } .initial)
        (keeping.declaredNames keepingBody) := by
  obtain ⟨b, hb⟩ : ∃ b, ∀ l, (Passive.passify l true keeping keepingProcedure
      ⟨keepingReadied, 0, []⟩).outcome = .ok b := ⟨_, fun l => by cbv⟩
  obtain ⟨l', h⟩ := exists_passiveForm (o := { encoding := .inline }) .initial prepare_keepingBody hb
  obtain ⟨-, -, hiff, hversionless⟩ := passiveForm_freshNames_iff h
  -- The declared names have no separator, so no version has one of them.
  have hnames : ∀ n ∈ keeping.declaredNames keepingBody, n.Versionless := by
    have hlist : keeping.declaredNames keepingBody = [⟨"g"⟩, ⟨"x"⟩] := rfl
    rw [hlist, List.forall_mem_cons, List.forall_mem_singleton]
    exact ⟨Name.ne_incarnation (by decide), Name.ne_incarnation (by decide)⟩
  refine ⟨b, l', h, by rfl, hiff.2 ⟨?_, by decide, hversionless hnames⟩⟩
  intro callee hcallee q hq
  have hname : callee = ⟨"Q"⟩ := by simpa [callees, keepingBody, Cmd.calleesAll, Cmd.callees]
    using hcallee
  rw [hname] at hq
  cases hq
  decide

/-- A body with a local that has the name of a version of another one. -/
def shadowedBody : Implementation where
  name := ⟨"P"⟩
  inputs := []
  outputs := []
  locals := [⟨⟨"y"⟩, .int, none, .local⟩, ⟨⟨"y@0"⟩, .int, none, .local⟩]
  attributes := []
  entry := 0
  blocks :=
    [⟨⟨"entry"⟩, [.havoc [⟨"y"⟩],
      .assert ⟨.binary .eq (.symbol ⟨"y"⟩) (.symbol ⟨"y@0"⟩), .plain, none, none⟩], [], .ret⟩]

/-- The procedure of the body. -/
def shadowedProcedure : Procedure := ⟨⟨"P"⟩, [], [], [], [], [], []⟩

/-- A program with the body. -/
def shadowed : Program where
  globals := []
  functions := []
  procedures := [shadowedProcedure]
  implementations := [shadowedBody]

/-- The body made ready for passification. -/
def shadowedReadied : Implementation := { shadowedBody with
  blocks :=
    [⟨⟨"entry"⟩, [.havoc [⟨"y"⟩],
      .assert ⟨.binary .eq (.symbol ⟨"y"⟩) (.symbol ⟨"y@0"⟩), .plain, none, none⟩], [1], .ret⟩,
     ⟨⟨"PreconditionGeneratedEntry0"⟩, [], [], .goto [0]⟩]
  entry := 1 }

theorem prepare_shadowedBody :
    (shadowedBody.prepare shadowed).outcome = .ok (shadowedProcedure, ⟨shadowedReadied, 0, []⟩) := by
  have hcheck : shadowedBody.check = .ok () := by cbv
  have hcheck' : shadowedReadied.check = .ok () := by cbv
  exact Implementation.prepare_eq_ok.2 ⟨rfl, hcheck, _, _, _, _, rfl, rfl, rfl, rfl,
    hcheck', rfl, rfl⟩

/-- The version that is made for the one local has the name of the other, and the assertion that
they are equal, which can fail, becomes one that a value equals itself. -/
theorem passiveForm_not_freshNames_shadowed :
    ∃ b l', (shadowedBody.passiveForm shadowed { encoding := .inline }).run .initial =
        (.ok b, l') ∧
      (b.body.cmdsAt 0).filterMap Cmd.condition? =
        [.binary .eq (.symbol ⟨"y@0"⟩) (.symbol ⟨"y@0"⟩)] ∧
      ¬ FreshNames (shadowedBody.temporaries shadowed)
        (shadowedBody.versionNames shadowed { encoding := .inline } .initial)
        (shadowed.declaredNames shadowedBody) := by
  obtain ⟨b, hb, hcmds, hnames⟩ : ∃ b, (∀ l, (Passive.passify l true shadowed shadowedProcedure
      ⟨shadowedReadied, 0, []⟩).outcome = .ok b) ∧
      (b.body.cmdsAt 0).filterMap Cmd.condition? =
        [.binary .eq (.symbol ⟨"y@0"⟩) (.symbol ⟨"y@0"⟩)] ∧
      ∀ l, (Passive.passify l true shadowed shadowedProcedure ⟨shadowedReadied, 0, []⟩).names =
        [⟨"y@0"⟩] := ⟨_, fun l => by cbv, by cbv, fun l => by cbv⟩
  obtain ⟨l', h⟩ := exists_passiveForm (o := { encoding := .inline }) .initial prepare_shadowedBody
    hb
  refine ⟨b, l', h, hcmds, fun hfresh => ?_⟩
  -- Which name the version has does not depend on the lexicon.
  have hversions : shadowedBody.versionNames shadowed { encoding := .inline } .initial =
      [⟨"y@0"⟩] := by
    rw [versionNames, prepare_shadowedBody]
    exact hnames _
  refine hfresh.notMem_declared ⟨"y@0"⟩ ?_ (by decide)
  rw [hversions]
  exact List.mem_append_right _ (List.mem_singleton_self _)

end Implementation

end Obligations
