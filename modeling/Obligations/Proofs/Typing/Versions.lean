import Obligations.Proofs.Passive.Scope
import Obligations.Proofs.Passive.Versions
import Obligations.Proofs.Typing.Program
import Obligations.Proofs.Vocabulary.Basic

/-!
# Typing of versions

A version has the kind of its variable (`Signature.withVersions`). While a body is passified, the
names in force are those that are in force outside of scopes, those of the locals of the scopes met
so far and those of the versions made so far; their kinds make up a signature
(`Versions.signature`) that only grows. The invariant `Versions.Typed` says that declarations agree
with it and that the conditions on variables in force are well-typed over it.
-/

namespace Obligations

/-! ## Kinds of versions -/

open Classical in
/-- The variable of a version, and any other name itself. -/
noncomputable def Name.root (n : Name) : Name :=
  if h : ∃ x : Name, ∃ k, n = x.incarnation k then h.choose else n

theorem Name.root_incarnation (x : Name) (k : Nat) : (x.incarnation k).root = x := by
  have h : ∃ y : Name, ∃ l, x.incarnation k = y.incarnation l := ⟨x, k, rfl⟩
  rw [root, dif_pos h]
  obtain ⟨l, hl⟩ := h.choose_spec
  exact (incarnation_injective hl).1.symm

theorem Name.Versionless.root_eq {n : Name} (h : n.Versionless) : n.root = n :=
  dif_neg fun ⟨x, k, heq⟩ => h x k heq

/-- The signature in which versions have the kinds of their variables. -/
noncomputable def Signature.withVersions (τ : Signature) : Signature where
  symbol n := τ.symbol n.root
  function := τ.function

theorem Signature.symbol_withVersions {τ : Signature} {n : Name} (h : n.Versionless) :
    τ.withVersions.symbol n = τ.symbol n :=
  congrArg τ.symbol h.root_eq

theorem Signature.symbol_withVersions_incarnation (τ : Signature) (x : Name) (k : Nat) :
    τ.withVersions.symbol (x.incarnation k) = τ.symbol x :=
  congrArg τ.symbol (x.root_incarnation k)

/-! ## What stands for variables -/

variable {τ κ κ' : Signature} {frame map : NameMap Expr} {x n : Name} {e : Expr} {k : Kind}

/-- What stands for a name has the kind of the name, which is that of no version. -/
def NameMap.Typed (κ : Signature) (map : NameMap Expr) : Prop :=
  ∀ x e, map.find? x = some e → x.Versionless ∧ ∃ k, κ.symbol x = some k ∧ e.kind? κ = some k

namespace NameMap.Typed

theorem mono (h : map.Typed κ) (hle : κ.Le κ') : map.Typed κ' := fun x e he =>
  let ⟨hx, k, hk, hkind⟩ := h x e he
  ⟨hx, k, hle.symbol x k hk, Expr.kind?_mono hle hkind⟩

theorem insert (h : map.Typed κ) (hx : x.Versionless) (hk : κ.symbol x = some k)
    (he : e.kind? κ = some k) : (map.insert x e).Typed κ := by
  intro y a ha
  rw [find?_insert] at ha
  split_ifs at ha with hy
  · cases ha
    exact hy ▸ ⟨hx, k, hk, he⟩
  · exact h y a ha

theorem eraseAll (h : map.Typed κ) (locals : List Variable) :
    NameMap.Typed κ (locals.foldl (fun m v => m.erase v.name) map) := by
  intro x e he
  rw [find?_eraseAll] at he
  split_ifs at he
  exact h x e he

/-- What stands for a name with a kind has that kind. -/
theorem standsFor (h : map.Typed κ) (hk : κ.symbol x = some k) :
    (Passive.standsFor map x).kind? κ = some k := by
  unfold Passive.standsFor
  cases he : map.find? x with
  | none => exact hk
  | some e =>
    obtain ⟨-, l, hl, hkind⟩ := h x e he
    rwa [Option.getD_some, ← hk, hl]

/-- An expression keeps its kind if what stands for each name is put in its place. -/
theorem standIn (h : map.Typed κ) (hframe : ∀ g a, frame.find? g = some a → a = .symbol g)
    (he : e.kind? κ = some k) : (standIn frame map e).kind? κ = some k := by
  refine Expr.kind?_substAt ⟨fun m n l hn => ?_, fun _ _ hf => hf⟩ .current he
  cases m with
  | current => exact h.standsFor hn
  | entry =>
    dsimp only
    cases ha : frame.find? n with
    | some a =>
      rw [Option.some_or, Option.getD_some, hframe n a ha]
      exact hn
    | none => exact h.standsFor hn

end NameMap.Typed

/-! ## Versions made so far -/

namespace Versions

variable {outer locals : List Variable} {s s' : Versions} {o : Origin}

/-- The variables in force, if some are in force outside of scopes. -/
def inForce (outer : List Variable) (s : Versions) : List Variable :=
  outer ++ s.scopeLocals ++ s.made

/-- The kinds of the names in force. -/
noncomputable def signature (τ : Signature) (outer : List Variable) (s : Versions) : Signature :=
  τ.withVersions.restrict ((s.inForce outer).map (·.name))

/-- The declarations agree with a signature, and the conditions on variables are formulas over the
names in force. -/
structure Typed (τ : Signature) (outer : List Variable) (s : Versions) : Prop where
  /-- The variables in force have the kinds of their types. -/
  agrees : ∀ v ∈ s.inForce outer, τ.withVersions.Agrees v
  /-- What is declared as no version has no name of one. -/
  versionless : ∀ x d, s.declarations.find? x = some d → d.isIncarnation = false → x.Versionless
  /-- What has no name of a version is declared with its kind. -/
  declarations : ∀ x d, s.declarations.find? x = some d → x.Versionless →
    τ.symbol x = d.ty.kind?
  /-- The conditions on variables in force are formulas. -/
  whereClause : ∀ x k w, (s.signature τ outer).symbol x = some k → s.whereClause? x = some w →
    w.kind? (s.signature τ outer) = some .bool

theorem symbol_signature : (s.signature τ outer).symbol n = some k ↔
    n ∈ (s.inForce outer).map (·.name) ∧ τ.withVersions.symbol n = some k :=
  Signature.symbol_restrict_eq_some

/-- More variables in force have more kinds. -/
theorem signature_le (hnames : (s.inForce outer).map (·.name) ⊆ (s'.inForce outer).map (·.name)) :
    (s.signature τ outer).Le (s'.signature τ outer) :=
  Signature.restrict_le_restrict (.refl _) hnames

/-- A version of a variable in force comes into force with the kind of the variable. -/
theorem Typed.next (h : s.Typed τ outer) (hx : x.Versionless)
    (hnext : (s.next x o).outcome = .ok (n, s')) : s'.Typed τ outer ∧
      (s.signature τ outer).Le (s'.signature τ outer) ∧
      ∀ k, (s.signature τ outer).symbol x = some k → (s'.signature τ outer).symbol n = some k := by
  cases hd : s.declarations.find? x with
  | none =>
    rw [Versions.next, hd] at hnext
    cases hnext
  | some d =>
    rw [next_eq_ok hd] at hnext
    cases hnext
    have hkind := h.declarations x d hd hx
    have hinForce : (s.grow x d.ty o).inForce outer = s.inForce outer ++
        [⟨x.incarnation ((s.counts.find? x).getD 0), d.ty, none,
          .incarnation x ((s.counts.find? x).getD 0)⟩] := (List.append_assoc _ _ _).symm
    have hle : (s.signature τ outer).Le ((s.grow x d.ty o).signature τ outer) := by
      refine signature_le ?_
      rw [hinForce, List.map_append]
      exact List.subset_append_left _ _
    refine ⟨⟨?_, ?_, ?_, ?_⟩, hle, fun k hk => ?_⟩
    · rw [hinForce, List.forall_mem_append]
      refine ⟨h.agrees, List.forall_mem_singleton.2 ?_⟩
      exact (τ.symbol_withVersions_incarnation x _).trans hkind
    · intro y d' hd' hnot
      rw [grow, NameMap.find?_insert] at hd'
      split_ifs at hd'
      · cases hd'
        cases hnot
      · exact h.versionless y d' hd' hnot
    · intro y d' hd' hy
      rw [grow, NameMap.find?_insert] at hd'
      split_ifs at hd' with heq
      · exact absurd heq (hy x _)
      · exact h.declarations y d' hd' hy
    · intro y l w hy hw
      rw [whereClause?, grow, NameMap.find?_insert] at hw
      -- A version comes without a condition.
      split_ifs at hw with heq
      · cases hw
      · obtain ⟨hmem, hl⟩ := symbol_signature.1 hy
        rw [hinForce, List.map_append] at hmem
        have hmem := (List.mem_append.1 hmem).resolve_right fun hmem =>
          heq (List.mem_singleton.1 hmem)
        exact Expr.kind?_mono hle (h.whereClause y l w (symbol_signature.2 ⟨hmem, hl⟩) hw)
    · refine symbol_signature.2 ⟨?_, ?_⟩
      · rw [hinForce, List.map_append]
        exact List.mem_append_right _ (List.mem_singleton_self _)
      · rw [Signature.symbol_withVersions_incarnation, ← Signature.symbol_withVersions hx]
        exact (symbol_signature.1 hk).2

/-- With the locals of a scope their names come into force and no others. -/
theorem mem_inForce_declare : (∀ v ∈ (s.declare locals).inForce outer,
      v ∈ s.inForce outer ∨ v ∈ locals) ∧
    ∀ x, x ∈ ((s.declare locals).inForce outer).map (·.name) ↔
      x ∈ (s.inForce outer).map (·.name) ∨ x ∈ locals.map (·.name) := by
  -- A local is put behind those of the scopes before it, unless one of these has its name.
  have hscopes : ∀ vs : List Variable, (∀ v ∈ locals.foldl
        (fun vs v => if vs.any (·.name = v.name) then vs else vs ++ [v]) vs, v ∈ vs ∨ v ∈ locals) ∧
      ∀ x, x ∈ (locals.foldl (fun vs v => if vs.any (·.name = v.name) then vs else vs ++ [v])
        vs).map (·.name) ↔ x ∈ vs.map (·.name) ∨ x ∈ locals.map (·.name) := by
    intro vs
    induction locals generalizing vs with
    | nil => simp
    | cons u us ih =>
      obtain ⟨hmem, hnames⟩ := ih (if vs.any (·.name = u.name) then vs else vs ++ [u])
      rw [List.foldl_cons]
      refine ⟨fun v hv => (hmem v hv).elim (fun hv => ?_) fun hv => .inr (List.mem_cons_of_mem _ hv),
        fun x => (hnames x).trans ?_⟩
      · split_ifs at hv
        · exact .inl hv
        · exact (List.mem_append.1 hv).imp_right fun hv =>
            List.mem_cons.2 (.inl (List.mem_singleton.1 hv))
      · split_ifs with hany
        · -- The local is left out, since there is one of its name.
          obtain ⟨v, hv, hname⟩ := List.any_eq_true.1 hany
          have hu : u.name ∈ vs.map (·.name) :=
            of_decide_eq_true hname ▸ List.mem_map_of_mem hv
          rw [List.map_cons, List.mem_cons]
          constructor
          · exact Or.imp_right .inr
          · rintro (hx | rfl | hx)
            · exact .inl hx
            · exact .inl hu
            · exact .inr hx
        · rw [List.map_append, List.mem_append, List.map_singleton, List.mem_singleton,
            List.map_cons, List.mem_cons, or_assoc]
  obtain ⟨hmem, hnames⟩ := hscopes s.scopeLocals
  refine ⟨fun v hv => ?_, fun x => ?_⟩
  · rcases List.mem_append.1 hv with hv | hv
    · rcases List.mem_append.1 hv with hv | hv
      · exact .inl (List.mem_append_left _ (List.mem_append_left _ hv))
      · exact (hmem v hv).imp_left fun hv => List.mem_append_left _ (List.mem_append_right _ hv)
    · exact .inl (List.mem_append_right _ hv)
  · change x ∈ (outer ++ (s.declare locals).scopeLocals ++ s.made).map _ ↔
      x ∈ (outer ++ s.scopeLocals ++ s.made).map _ ∨ _
    have hx : x ∈ (s.declare locals).scopeLocals.map (·.name) ↔ _ := hnames x
    simp only [List.map_append, List.mem_append] at hx ⊢
    rw [hx]
    tauto

theorem signature_le_declare :
    (s.signature τ outer).Le ((s.declare locals).signature τ outer) :=
  signature_le fun x hx => (mem_inForce_declare.2 x).2 (.inl hx)

/-- The locals of a scope come into force, if they have no names of versions, have the kinds of
their types and have conditions over what is in force then. -/
theorem Typed.declare (h : s.Typed τ outer)
    (hlocals : ∀ v ∈ locals, v.name.Versionless ∧ τ.Agrees v)
    (hwhere : ∀ v ∈ locals, ∀ w, v.whereClause = some w →
      w.kind? ((s.declare locals).signature τ outer) = some .bool) :
    (s.declare locals).Typed τ outer := by
  -- What is found for a name is the local that hides it, or what was found before.
  have hfind : ∀ x d, (s.declare locals).declarations.find? x = some d →
      d ∈ locals ∧ d.name = x ∨ x ∉ locals.map (·.name) ∧ s.declarations.find? x = some d := by
    intro x d hd
    rw [Versions.declare, NameMap.find?_insertAll] at hd
    rcases Option.or_eq_some_iff.1 hd with hd | ⟨hnone, hd⟩
    · obtain ⟨v, hv, heq⟩ := List.mem_map.1 (NameMap.mem_of_find?_ofList hd)
      cases heq
      exact .inl ⟨hv, rfl⟩
    · have hnot := NameMap.find?_ofList_eq_none.1 hnone
      rw [List.map_map] at hnot
      exact .inr ⟨hnot, hd⟩
  refine ⟨fun v hv => ?_, fun x d hd hnot => ?_, fun x d hd hx => ?_, fun x k w hx hw => ?_⟩
  · rcases mem_inForce_declare.1 v hv with hv | hv
    · exact h.agrees v hv
    · exact (Signature.symbol_withVersions (hlocals v hv).1).trans (hlocals v hv).2
  · rcases hfind x d hd with ⟨hmem, rfl⟩ | ⟨-, hd⟩
    · exact (hlocals d hmem).1
    · exact h.versionless x d hd hnot
  · rcases hfind x d hd with ⟨hmem, rfl⟩ | ⟨-, hd⟩
    · exact (hlocals d hmem).2
    · exact h.declarations x d hd hx
  · obtain ⟨d, hd, hw⟩ := Option.bind_eq_some_iff.1 hw
    rcases hfind x d hd with ⟨hmem, -⟩ | ⟨hnot, hd⟩
    · exact hwhere d hmem w hw
    · obtain ⟨hx, hk⟩ := symbol_signature.1 hx
      have hx := ((mem_inForce_declare.2 x).1 hx).resolve_right hnot
      exact Expr.kind?_mono signature_le_declare (h.whereClause x k w
        (symbol_signature.2 ⟨hx, hk⟩) (Option.bind_eq_some_iff.2 ⟨d, hd, hw⟩))

/-- Where the locals of a scope come into force, what is well-typed in the scope is well-typed over
the names in force. -/
theorem declare_le_signature {σ : Signature} (hσ : σ.Le (s.signature τ outer))
    (hlocals : ∀ v ∈ locals, v.name.Versionless ∧ τ.Agrees v) :
    (σ.declare locals).Le ((s.declare locals).signature τ outer) := by
  refine Signature.declare_le (hσ.trans signature_le_declare) fun v hv => ?_
  have hmem : v.name ∈ ((s.declare locals).inForce outer).map (·.name) :=
    (mem_inForce_declare.2 v.name).2 (.inr (List.mem_map_of_mem hv))
  exact (if_pos hmem).trans
    ((Signature.symbol_withVersions (hlocals v hv).1).trans (hlocals v hv).2)

end Versions

end Obligations
