import Mathlib.Data.List.Nodup
import Mathlib.Tactic.SplitIfs
import Obligations.Program.Basic
import Obligations.Proofs.Expr.Functions
import Obligations.Proofs.Expr.Interpretation
import Obligations.Proofs.Expr.Substitution
import Obligations.Proofs.Expr.Typing

/-!
# Signatures of declarations

Declarations give kinds to names. A signature grows (`Signature.Le`) when a variable is declared
whose name had no other kind (`Signature.le_declare`), and an expression keeps its kind in a greater
signature (`Expr.kind?_mono`). A replacement of names by expressions of their kinds keeps the kind of
an expression too, whatever becomes of `old` (`Expr.kind?_substAt`).
-/

namespace Obligations

namespace Signature

variable {s t u : Signature} {vs : List Variable} {v : Variable} {n : Name} {k : Kind}

/-- What one signature gives a kind, the other one gives the same kind. -/
structure Le (s t : Signature) : Prop where
  /-- For names. -/
  symbol : ∀ n k, s.symbol n = some k → t.symbol n = some k
  /-- For functions. -/
  function : ∀ f k, s.function f = some k → t.function f = some k

theorem Le.refl (s : Signature) : s.Le s := ⟨fun _ _ h => h, fun _ _ h => h⟩

theorem Le.trans (h : s.Le t) (h' : t.Le u) : s.Le u :=
  ⟨fun n k hn => h'.symbol n k (h.symbol n k hn), fun f k hf => h'.function f k (h.function f k hf)⟩

/-- The signature gives the name of the variable the kind of its type. -/
def Agrees (s : Signature) (v : Variable) : Prop := s.symbol v.name = v.ty.kind?

/-- The signature with some variables declared, which hide what had their names; of several of one
name the first counts. -/
def declare (s : Signature) (vs : List Variable) : Signature where
  symbol n :=
    match vs.find? (·.name = n) with
    | some v => v.ty.kind?
    | none => s.symbol n
  function := s.function

theorem symbol_declare_of_find? (h : vs.find? (·.name = n) = some v) :
    (s.declare vs).symbol n = v.ty.kind? := by
  simp only [declare, h]

theorem symbol_declare_of_not_mem (h : n ∉ vs.map (·.name)) :
    (s.declare vs).symbol n = s.symbol n := by
  have hnone : vs.find? (·.name = n) = none := List.find?_eq_none.2 fun v hv hname =>
    h (List.mem_map.2 ⟨v, hv, of_decide_eq_true hname⟩)
  simp only [declare, hnone]

/-- A name of the declared signature is that of a variable or one of the signature. -/
theorem symbol_declare_cases (s : Signature) (vs : List Variable) (n : Name) :
    (∃ v ∈ vs, v.name = n ∧ (s.declare vs).symbol n = v.ty.kind?) ∨
      n ∉ vs.map (·.name) ∧ (s.declare vs).symbol n = s.symbol n := by
  cases h : vs.find? (·.name = n) with
  | some v =>
    exact .inl ⟨v, List.mem_of_find?_eq_some h, by simpa using List.find?_some h,
      symbol_declare_of_find? h⟩
  | none =>
    have hnone : n ∉ vs.map (·.name) := fun hmem => by
      obtain ⟨v, hv, hname⟩ := List.mem_map.1 hmem
      exact List.find?_eq_none.1 h v hv (decide_eq_true hname)
    exact .inr ⟨hnone, symbol_declare_of_not_mem hnone⟩

/-- Declarations keep the order of signatures. -/
theorem Le.declare (h : s.Le t) (vs : List Variable) : (s.declare vs).Le (t.declare vs) where
  symbol n k hn := by
    cases hfind : vs.find? (·.name = n) with
    | some v =>
      rw [symbol_declare_of_find? hfind] at hn ⊢
      exact hn
    | none =>
      simp only [Signature.declare, hfind] at hn ⊢
      exact h.symbol n k hn
  function := h.function

section

variable (hle : s.Le t) (hvs : ∀ v ∈ vs, t.Agrees v)

include hle hvs

/-- A signature that agrees with variables is not exceeded by their declaration. -/
theorem declare_le : (s.declare vs).Le t where
  symbol n k hn := by
    rcases symbol_declare_cases s vs n with ⟨v, hv, rfl, hkind⟩ | ⟨-, hkind⟩
    · exact (hvs v hv).trans (hkind.symm.trans hn)
    · exact hle.symbol n k (hkind.symm.trans hn)
  function := hle.function

/-- Below a signature that agrees with variables their declaration hides no other kind. -/
theorem le_declare : s.Le (s.declare vs) where
  symbol n k hn := by
    rcases symbol_declare_cases s vs n with ⟨v, hv, rfl, hkind⟩ | ⟨-, hkind⟩
    · exact hkind.trans ((hvs v hv).symm.trans (hle.symbol v.name k hn))
    · exact hkind.trans hn
  function _ _ h := h

end

/-- Variables of the same names that a signature agrees with are declared with their own kinds. -/
theorem agrees_declare (s : Signature) (hvs : ∀ v ∈ vs, t.Agrees v) (hv : v ∈ vs) :
    (s.declare vs).Agrees v := by
  rcases symbol_declare_cases s vs v.name with ⟨w, hw, hname, hkind⟩ | ⟨hnot, -⟩
  · exact hkind.trans ((hvs w hw).symm.trans (hname ▸ hvs v hv))
  · exact absurd (List.mem_map_of_mem hv) hnot

/-- Variables with distinct names are declared with their own kinds. -/
theorem agrees_declare_of_nodup (s : Signature) (hnodup : (vs.map (·.name)).Nodup) (hv : v ∈ vs) :
    (s.declare vs).Agrees v := by
  rcases symbol_declare_cases s vs v.name with ⟨w, hw, hname, hkind⟩ | ⟨hnot, -⟩
  · exact List.inj_on_of_nodup_map hnodup hw hv hname ▸ hkind
  · exact absurd (List.mem_map_of_mem hv) hnot

/-- The signature for some names only. -/
def restrict (s : Signature) (ns : List Name) : Signature where
  symbol n := if n ∈ ns then s.symbol n else none
  function := s.function

theorem symbol_restrict_eq_some {ns : List Name} :
    (s.restrict ns).symbol n = some k ↔ n ∈ ns ∧ s.symbol n = some k := by
  simp only [restrict]
  split_ifs with h
  · exact (and_iff_right h).symm
  · exact iff_of_false (fun hn => nomatch hn) fun hn => h hn.1

/-- More names make a greater signature. -/
theorem restrict_le_restrict (h : s.Le t) {ns ms : List Name} (hsub : ns ⊆ ms) :
    (s.restrict ns).Le (t.restrict ms) where
  symbol n k hn := by
    obtain ⟨hmem, hn⟩ := symbol_restrict_eq_some.1 hn
    exact symbol_restrict_eq_some.2 ⟨hsub hmem, h.symbol n k hn⟩
  function := h.function

/-- Names are replaced by expressions of their kinds. -/
structure Replaces (s t : Signature) (f : Moment → Subst) : Prop where
  /-- What a name is replaced by has its kind. -/
  symbol : ∀ m n k, s.symbol n = some k → ((f m n).getD (.symbol n)).kind? t = some k
  /-- Functions stay. -/
  function : ∀ f k, s.function f = some k → t.function f = some k

/-- Names are replaced by names of their kinds. -/
structure Renames (s t : Signature) (f : Subst) : Prop where
  /-- A name is replaced by one of its kind. -/
  symbol : ∀ n k, s.symbol n = some k →
    ∃ m, (f n).getD (.symbol n) = .symbol m ∧ t.symbol m = some k
  /-- Functions stay. -/
  function : ∀ f k, s.function f = some k → t.function f = some k

theorem Renames.replaces {f : Subst} (h : s.Renames t f) : s.Replaces t fun _ => f where
  symbol m n k hn := by
    obtain ⟨n', hname, hkind⟩ := h.symbol n k hn
    rw [hname]
    exact hkind
  function := h.function

end Signature

namespace Expr

variable {s t : Signature}

mutual

/-- The kind of an expression is the same in signatures that give the names that it reads and the
functions that it applies the same kinds. -/
theorem kind?_congr : ∀ {e : Expr} {m : Moment} {k : Kind}, e.kind? s = some k →
    (∀ r ∈ e.readsAt m, ∀ l, s.symbol r.2 = some l → t.symbol r.2 = some l) →
    (∀ f args, apply f args ∈ e.subexprs → ∀ l, s.function f = some l → t.function f = some l) →
    e.kind? t = some k
  | literal (.bool _), _, _, hk, _, _ | literal (.int _), _, _, hk, _, _ => hk
  | literal (.bv _ _), _, _, hk, _, _ => by cases hk
  | symbol n, m, k, hk, hs, _ => hs (m, n) (by simp [readsAt]) k hk
  | old a, _, _, hk, hs, hf =>
    kind?_congr (e := a) (m := .entry) hk hs fun f args hmem =>
      hf f args (List.mem_cons_of_mem _ hmem)
  | unary op a, m, _, hk, hs, hf => by
    obtain ⟨l, hl, hop⟩ := Option.bind_eq_some_iff.1 hk
    have ha := kind?_congr (e := a) (m := m) hl hs fun f args hmem =>
      hf f args (List.mem_cons_of_mem _ hmem)
    exact Option.bind_eq_some_iff.2 ⟨l, ha, hop⟩
  | binary op a b, m, _, hk, hs, hf => by
    obtain ⟨l, hl, hk⟩ := Option.bind_eq_some_iff.1 hk
    obtain ⟨l', hl', hop⟩ := Option.bind_eq_some_iff.1 hk
    have ha := kind?_congr (e := a) (m := m) hl (fun r hr => hs r (List.mem_append_left _ hr))
      fun f args hmem => hf f args (List.mem_cons_of_mem _ (List.mem_append_left _ hmem))
    have hb := kind?_congr (e := b) (m := m) hl' (fun r hr => hs r (List.mem_append_right _ hr))
      fun f args hmem => hf f args (List.mem_cons_of_mem _ (List.mem_append_right _ hmem))
    exact Option.bind_eq_some_iff.2 ⟨l, ha, Option.bind_eq_some_iff.2 ⟨l', hb, hop⟩⟩
  | apply f args, m, _, hk, hs, hf => by
    obtain ⟨ks, hks, hk⟩ := Option.bind_eq_some_iff.1 hk
    obtain ⟨sig, hsig, hk⟩ := Option.bind_eq_some_iff.1 hk
    have hargs := kinds?_congr args (m := m) hks hs fun g as hmem =>
      hf g as (List.mem_cons_of_mem _ hmem)
    exact Option.bind_eq_some_iff.2 ⟨ks, hargs, Option.bind_eq_some_iff.2
      ⟨sig, hf f args List.mem_cons_self sig hsig, hk⟩⟩

/-- The same for several expressions. -/
theorem kinds?_congr : ∀ (es : List Expr) {m : Moment} {ks : List Kind}, kinds? s es = some ks →
    (∀ r ∈ readsAllAt m es, ∀ l, s.symbol r.2 = some l → t.symbol r.2 = some l) →
    (∀ f args, apply f args ∈ subexprsAll es → ∀ l, s.function f = some l →
      t.function f = some l) →
    kinds? t es = some ks
  | [], _, _, hks, _, _ => hks
  | e :: es, m, _, hks, hs, hf => by
    obtain ⟨k, hk, hks⟩ := Option.bind_eq_some_iff.1 hks
    obtain ⟨ks, hrest, rfl⟩ := Option.map_eq_some_iff.1 hks
    have he := kind?_congr (e := e) (m := m) hk (fun r hr => hs r (List.mem_append_left _ hr))
      fun f args hmem => hf f args (List.mem_append_left _ hmem)
    have hes := kinds?_congr es (m := m) hrest
      (fun r hr => hs r (List.mem_append_right _ hr))
      fun f args hmem => hf f args (List.mem_append_right _ hmem)
    exact Option.bind_eq_some_iff.2 ⟨k, he, Option.map_eq_some_iff.2 ⟨ks, hes, rfl⟩⟩

end

/-- An expression keeps its kind in a greater signature. -/
theorem kind?_mono (h : s.Le t) {e : Expr} {k : Kind} (he : e.kind? s = some k) :
    e.kind? t = some k :=
  kind?_congr (m := .current) he (fun r _ => h.symbol r.2) fun f _ _ => h.function f

mutual

/-- Replacing names by expressions of their kinds keeps the kind of an expression. -/
theorem kind?_substAt {f : Moment → Subst} {keepOld : Bool} (hf : s.Replaces t f) :
    ∀ {e : Expr} (m : Moment) {k : Kind}, e.kind? s = some k →
      (e.substAt f keepOld m).kind? t = some k
  | literal (.bool _), _, _, hk | literal (.int _), _, _, hk => hk
  | literal (.bv _ _), _, _, hk => by cases hk
  | symbol n, m, k, hk => hf.symbol m n k hk
  | old a, _, k, hk => by
    -- The operand is read at the entry, whether `old` stays or not.
    have ha : (a.substAt f keepOld .entry).kind? t = some k := kind?_substAt hf (e := a) .entry hk
    rw [substAt]
    cases keepOld <;> exact ha
  | unary op a, m, _, hk => by
    obtain ⟨l, hl, hop⟩ := Option.bind_eq_some_iff.1 hk
    exact Option.bind_eq_some_iff.2 ⟨l, kind?_substAt hf (e := a) m hl, hop⟩
  | binary op a b, m, _, hk => by
    obtain ⟨l, hl, hk⟩ := Option.bind_eq_some_iff.1 hk
    obtain ⟨l', hl', hop⟩ := Option.bind_eq_some_iff.1 hk
    exact Option.bind_eq_some_iff.2 ⟨l, kind?_substAt hf (e := a) m hl,
      Option.bind_eq_some_iff.2 ⟨l', kind?_substAt hf (e := b) m hl', hop⟩⟩
  | apply g args, m, _, hk => by
    obtain ⟨ks, hks, hk⟩ := Option.bind_eq_some_iff.1 hk
    obtain ⟨sig, hsig, hk⟩ := Option.bind_eq_some_iff.1 hk
    exact Option.bind_eq_some_iff.2 ⟨ks, kinds?_substAllAt hf args m hks,
      Option.bind_eq_some_iff.2 ⟨sig, hf.function g sig hsig, hk⟩⟩

/-- The same for several expressions. -/
theorem kinds?_substAllAt {f : Moment → Subst} {keepOld : Bool} (hf : s.Replaces t f) :
    ∀ (es : List Expr) (m : Moment) {ks : List Kind}, kinds? s es = some ks →
      kinds? t (substAllAt f keepOld m es) = some ks
  | [], _, _, hks => hks
  | e :: es, m, _, hks => by
    obtain ⟨k, hk, hks⟩ := Option.bind_eq_some_iff.1 hks
    obtain ⟨ks, hrest, rfl⟩ := Option.map_eq_some_iff.1 hks
    exact Option.bind_eq_some_iff.2 ⟨k, kind?_substAt hf (e := e) m hk,
      Option.map_eq_some_iff.2 ⟨ks, kinds?_substAllAt hf es m hrest, rfl⟩⟩

end

theorem kind?_substitute {f : Subst} (hf : s.Replaces t fun _ => f) {e : Expr} {k : Kind}
    (he : e.kind? s = some k) : (e.substitute f).kind? t = some k :=
  kind?_substAt hf .current he

mutual

/-- A name that a well-typed expression reads has a kind. -/
theorem exists_symbol_of_mem_readsAt : ∀ {e : Expr} {m : Moment} {k : Kind}, e.kind? s = some k →
    ∀ r ∈ e.readsAt m, ∃ l, s.symbol r.2 = some l
  | literal _, _, _, _, _, hr => by cases hr
  | symbol n, m, k, hk, r, hr => by
    rw [List.mem_singleton.1 hr]
    exact ⟨k, hk⟩
  | old a, _, _, hk, r, hr => exists_symbol_of_mem_readsAt (e := a) (m := .entry) hk r hr
  | unary _ a, m, _, hk, r, hr => by
    obtain ⟨l, hl, -⟩ := Option.bind_eq_some_iff.1 hk
    exact exists_symbol_of_mem_readsAt (e := a) (m := m) hl r hr
  | binary _ a b, m, _, hk, r, hr => by
    obtain ⟨l, hl, hk⟩ := Option.bind_eq_some_iff.1 hk
    obtain ⟨l', hl', -⟩ := Option.bind_eq_some_iff.1 hk
    rcases List.mem_append.1 hr with hr | hr
    · exact exists_symbol_of_mem_readsAt (e := a) (m := m) hl r hr
    · exact exists_symbol_of_mem_readsAt (e := b) (m := m) hl' r hr
  | apply _ args, m, _, hk, r, hr => by
    obtain ⟨ks, hks, -⟩ := Option.bind_eq_some_iff.1 hk
    exact exists_symbol_of_mem_readsAllAt args (m := m) hks r hr

/-- The same for several expressions. -/
theorem exists_symbol_of_mem_readsAllAt : ∀ (es : List Expr) {m : Moment} {ks : List Kind},
    kinds? s es = some ks → ∀ r ∈ readsAllAt m es, ∃ l, s.symbol r.2 = some l
  | [], _, _, _, _, hr => by cases hr
  | e :: es, m, _, hks, r, hr => by
    obtain ⟨k, hk, hks⟩ := Option.bind_eq_some_iff.1 hks
    obtain ⟨ks, hrest, -⟩ := Option.map_eq_some_iff.1 hks
    rcases List.mem_append.1 hr with hr | hr
    · exact exists_symbol_of_mem_readsAt (e := e) (m := m) hk r hr
    · exact exists_symbol_of_mem_readsAllAt es (m := m) hrest r hr

end

/-- A function that a well-typed expression applies has a signature. -/
theorem exists_function_of_mem_functions {e : Expr} {k : Kind} (hk : e.kind? s = some k) {f : Name}
    (hf : f ∈ e.functions) : ∃ sig, s.function f = some sig := by
  obtain ⟨args, hargs⟩ := mem_functions.1 hf
  obtain ⟨l, hl⟩ := Option.isSome_iff_exists.1 (kind?_isSome_of_mem_subexprs e hk _ hargs)
  obtain ⟨ks, -, hl⟩ := Option.bind_eq_some_iff.1 hl
  obtain ⟨sig, hsig, -⟩ := Option.bind_eq_some_iff.1 hl
  exact ⟨sig, hsig⟩

/-! ## Connectives -/

section

variable {a b : Expr}

theorem kind?_conj (ha : a.kind? s = some .bool) (hb : b.kind? s = some .bool) :
    (a.conj b).kind? s = some .bool := by
  unfold conj
  split_ifs
  · exact hb
  · exact ha
  · simp [kind?, ha, hb, BinaryOp.kind?]

theorem kind?_impl (ha : a.kind? s = some .bool) (hb : b.kind? s = some .bool) :
    (a.impl b).kind? s = some .bool := by
  unfold impl
  split_ifs
  · exact hb
  · rfl
  · simp [not, kind?, ha, UnaryOp.kind?]
  · simp [kind?, ha, hb, BinaryOp.kind?]

theorem kind?_conjAll {es : List Expr} (h : ∀ e ∈ es, e.kind? s = some .bool) :
    (conjAll es).kind? s = some .bool :=
  conjAll_induction (P := fun e => e.kind? s = some .bool) rfl (fun _ _ => kind?_conj) h

theorem kind?_eq {n : Name} {k : Kind} (hn : s.symbol n = some k) (ha : a.kind? s = some k) :
    (binary .eq (symbol n) a).kind? s = some .bool := by
  simp [kind?, hn, ha, BinaryOp.kind?]

theorem oldFree_impl (ha : a.OldFree) (hb : b.OldFree) : (a.impl b).OldFree := by
  unfold impl
  split_ifs
  · exact hb
  · exact oldFree_literal _
  · exact oldFree_unary.2 ha
  · exact oldFree_binary.2 ⟨ha, hb⟩

end

end Expr

end Obligations
