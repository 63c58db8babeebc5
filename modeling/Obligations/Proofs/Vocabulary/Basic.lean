import Obligations.Program.Basic
import Obligations.Proofs.Expr.Functions
import Obligations.Proofs.Expr.Interpretation
import Obligations.Proofs.Implementation.Outline
import Obligations.Proofs.Name
import Obligations.Proofs.NameMap

/-!
# Vocabularies

A vocabulary is a choice of names, of expressions and of places of declaration that the preparation
of bodies stays within: it contains what substitution makes of its expressions, and the locals that
keep the arguments of calls. Two vocabularies are of use, that of the expressions that do not apply
a function (`Vocabulary.avoiding`) and that of the names that are no names of versions
(`Vocabulary.versionless`).
-/

namespace Obligations

/-- A choice of names and expressions. -/
structure Vocabulary where
  /-- The names. -/
  name : Name → Prop
  /-- The expressions. -/
  expr : Expr → Prop
  /-- The places of declaration. -/
  kind : VariableKind → Prop
  /-- A name is an expression of the vocabulary if it is in the vocabulary. -/
  symbol : ∀ n, expr (.symbol n) ↔ name n
  /-- Replacements from the vocabulary stay within it. -/
  substitute : ∀ {e : Expr} {f : Subst}, expr e → (∀ n a, f n = some a → expr a) →
    expr (e.substitute f)
  /-- The same where values on entry are replaced too. -/
  substituteOld : ∀ {e : Expr} {f g : Subst}, expr e → (∀ n a, f n = some a → expr a) →
    (∀ n a, g n = some a → expr a) → expr (e.substituteOld f g)
  /-- A name may be put behind other text that does not contain the separator of versions. -/
  append : ∀ (s : String) (n : Name), '@' ∉ s.toList → name n → name ⟨s ++ n.text⟩
  /-- Locals are allowed. -/
  localKind : kind .local

/-- The expressions that do not apply a function. -/
def Vocabulary.avoiding (f : Name) : Vocabulary where
  name _ := True
  expr e := f ∉ e.functions
  kind _ := True
  symbol _ := iff_of_true Expr.notMem_functions_symbol trivial
  substitute he hr := Expr.notMem_functions_substAt (fun _ n a h => hr n a h) _ _ he
  substituteOld he hf hg := by
    refine Expr.notMem_functions_substAt (fun t n a h => ?_) _ _ he
    cases t with
    | current => exact hf n a h
    | entry =>
      rcases Option.or_eq_some_iff.1 h with h | ⟨-, h⟩
      · exact hg n a h
      · exact hf n a h
  append _ _ _ _ := trivial
  localKind := trivial

/-- Wherever the expression applies the function, it applies it to so many arguments. -/
def Expr.HasArity (f : Name) (k : Nat) (e : Expr) : Prop :=
  ∀ args, .apply f args ∈ e.subexprs → args.length = k

theorem Expr.hasArity_of_notMem_functions {f : Name} {k : Nat} {e : Expr} (h : f ∉ e.functions) :
    e.HasArity f k :=
  fun args hargs => absurd (mem_functions.2 ⟨args, hargs⟩) h

/-- Replacements do not change the numbers of arguments. -/
theorem Expr.HasArity.substAt {f : Name} {k : Nat} {e : Expr} {r : Moment → Subst} {keepOld : Bool}
    (he : e.HasArity f k) (hr : ∀ t n a, r t n = some a → a.HasArity f k) (t : Moment) :
    (e.substAt r keepOld t).HasArity f k := by
  intro args hargs
  rcases isSubstituted_of_mem_subexprs e t hargs with ⟨t', as, hmem, rfl⟩ | ⟨t', n, a, hn, hmem⟩
  · rw [length_substAllAt]
    exact he as hmem
  · exact hr t' n a hn args hmem

/-- The expressions that apply a function to so many arguments. -/
def Vocabulary.sized (f : Name) (k : Nat) : Vocabulary where
  name _ := True
  expr := Expr.HasArity f k
  kind _ := True
  symbol _ := iff_of_true (Expr.hasArity_of_notMem_functions Expr.notMem_functions_symbol) trivial
  substitute he hr := he.substAt (fun _ n a h => hr n a h) _
  substituteOld he hf hg := by
    refine he.substAt (fun t n a h => ?_) _
    cases t with
    | current => exact hf n a h
    | entry =>
      rcases Option.or_eq_some_iff.1 h with h | ⟨-, h⟩
      · exact hg n a h
      · exact hf n a h
  append _ _ _ _ := trivial
  localKind := trivial

/-- The name does not have the form of the name of a version. -/
def Name.Versionless (n : Name) : Prop := ∀ (x : Name) (k : Nat), n ≠ x.incarnation k

theorem Name.eq_incarnation {n : Name} {cs : List Char} {k : Nat}
    (h : n.text.toList = cs ++ '@' :: Nat.toDigits 10 k) : n = incarnation ⟨.ofList cs⟩ k := by
  obtain ⟨text⟩ := n
  refine congrArg Name.mk (String.toList_inj.1 ?_)
  rw [show text.toList = cs ++ '@' :: Nat.toDigits 10 k from h]
  simp [Nat.toString_eq_repr, Nat.toList_repr]

theorem Name.Versionless.append {n : Name} (h : n.Versionless) {s : String}
    (hs : '@' ∉ s.toList) : Name.Versionless ⟨s ++ n.text⟩ := by
  intro x k heq
  have hlists : s.toList ++ n.text.toList = x.text.toList ++ '@' :: Nat.toDigits 10 k := by
    have htext := congrArg (fun n : Name => n.text.toList) heq
    simpa [incarnation, Nat.toString_eq_repr, Nat.toList_repr] using htext
  -- The separator is not in `s`, so that it comes after `s`, in the name.
  rcases List.append_eq_append_iff.1 hlists with ⟨as, -, hname⟩ | ⟨bs, htext, hrest⟩
  · exact h _ k (eq_incarnation hname)
  · cases bs with
    | nil => exact h ⟨.ofList []⟩ k (eq_incarnation hrest.symm)
    | cons b bs =>
      refine hs (htext ▸ ?_)
      rw [(List.cons.inj hrest).1]
      simp

/-- What holds of the names of an expression and of the replacements holds after a substitution. -/
theorem Expr.forall_names_substAt {P : Name → Prop} {e : Expr} {r : Moment → Subst}
    {keepOld : Bool} (he : ∀ n ∈ e.names, P n)
    (hr : ∀ t n a, r t n = some a → ∀ m ∈ a.names, P m) :
    ∀ n ∈ (e.substAt r keepOld .current).names, P n := by
  intro n hn
  obtain ⟨p, hp, hn⟩ := exists_of_mem_names_substAt e .current hn
  cases h : r p.1 p.2 with
  | some a => exact hr _ _ a h n (by simpa [h] using hn)
  | none =>
    have hname : n = p.2 := by simpa [h, names, readsAt] using hn
    exact hname ▸ he _ (mem_names_of_mem_readsAt hp)

theorem VariableKind.local_ne_incarnation (x : Name) (n : Nat) :
    VariableKind.local ≠ .incarnation x n := by
  intro h
  cases h

/-- The names that are no names of versions, with the expressions that read no others. -/
def Vocabulary.versionless : Vocabulary where
  name := Name.Versionless
  expr e := ∀ n ∈ e.names, n.Versionless
  kind k := ∀ x n, k ≠ .incarnation x n
  symbol n := by simp [Expr.names, Expr.readsAt]
  substitute he hr := Expr.forall_names_substAt he fun _ n a h => hr n a h
  substituteOld he hf hg := by
    refine Expr.forall_names_substAt he fun t n a h => ?_
    cases t with
    | current => exact hf n a h
    | entry =>
      rcases Option.or_eq_some_iff.1 h with h | ⟨-, h⟩
      · exact hg n a h
      · exact hf n a h
  append _ _ hs h := h.append hs
  localKind := VariableKind.local_ne_incarnation

/-! ## Parts of a program within a vocabulary -/

variable {V : Vocabulary}

/-- The declaration stays within the vocabulary. -/
structure Variable.Within (V : Vocabulary) (v : Variable) : Prop where
  /-- Its name. -/
  name : V.name v.name
  /-- The condition on it. -/
  whereClause : ∀ w, v.whereClause = some w → V.expr w
  /-- Its place. -/
  kind : V.kind v.kind

/- Commands that stay within the vocabulary. -/
mutual

/-- A command stays within the vocabulary. -/
def Cmd.Within (V : Vocabulary) : Cmd → Prop
  | assert a => V.expr a.condition
  | assume e => V.expr e
  | assign pairs => ∀ p ∈ pairs, V.name p.1 ∧ V.expr p.2
  | havoc vars => ∀ x ∈ vars, V.name x
  | call _ args outputs => (∀ a ∈ args, V.expr a) ∧ ∀ x ∈ outputs, V.name x
  | comment _ => True
  | scope locals cmds => (∀ v ∈ locals, v.Within V) ∧ Cmd.WithinAll V cmds

/-- Several commands stay within the vocabulary. -/
def Cmd.WithinAll (V : Vocabulary) : List Cmd → Prop
  | [] => True
  | c :: cs => c.Within V ∧ Cmd.WithinAll V cs

end

/-- A condition of a contract stays within the vocabulary. -/
def Condition.Within (V : Vocabulary) : Condition → Prop
  | formula e => V.expr e
  | blocks bs => ∀ b ∈ bs, Cmd.WithinAll V b.cmds ∧ ∀ e, b.exit = .ret e → V.expr e

/-- The contract of a procedure stays within the vocabulary. -/
structure Procedure.Within (V : Vocabulary) (q : Procedure) : Prop where
  /-- Its inputs. -/
  inputs : ∀ v ∈ q.inputs, v.Within V
  /-- Its outputs. -/
  outputs : ∀ v ∈ q.outputs, v.Within V
  /-- Its preconditions. -/
  requires : ∀ r ∈ q.requires, r.condition.Within V
  /-- Its postconditions. -/
  ensures : ∀ e ∈ q.ensures, e.condition.Within V
  /-- The globals that it may change. -/
  modifies : ∀ g ∈ q.modifies, V.name g

/-- A body stays within the vocabulary. -/
structure Implementation.Within (V : Vocabulary) (i : Implementation) : Prop where
  /-- Its inputs. -/
  inputs : ∀ v ∈ i.inputs, v.Within V
  /-- Its outputs. -/
  outputs : ∀ v ∈ i.outputs, v.Within V
  /-- Its locals. -/
  locals : ∀ v ∈ i.locals, v.Within V
  /-- The commands of its blocks. -/
  cmds : ∀ id, Cmd.WithinAll V (i.cmdsAt id)

/-- A program stays within the vocabulary. -/
structure Program.Within (V : Vocabulary) (p : Program) : Prop where
  /-- Its globals. -/
  globals : ∀ v ∈ p.globals, v.Within V
  /-- The contracts of its procedures. -/
  procedures : ∀ q ∈ p.procedures, q.Within V
  /-- Its bodies. -/
  implementations : ∀ i ∈ p.implementations, i.Within V

/-! ## Commands -/

theorem Cmd.withinAll_iff {cs : List Cmd} : Cmd.WithinAll V cs ↔ ∀ c ∈ cs, c.Within V := by
  induction cs with
  | nil => simp [WithinAll]
  | cons c cs ih => simp [WithinAll, ih]

theorem Cmd.withinAll_nil : Cmd.WithinAll V [] := trivial

@[simp] theorem Cmd.withinAll_append {cs ds : List Cmd} :
    Cmd.WithinAll V (cs ++ ds) ↔ Cmd.WithinAll V cs ∧ Cmd.WithinAll V ds := by
  simp only [withinAll_iff, List.forall_mem_append]

/-- A name that is written to stays within the vocabulary. -/
theorem Vocabulary.name_renameTarget {f : Subst} (hf : ∀ n a, f n = some a → V.expr a) {x : Name}
    (hx : V.name x) : V.name (Cmd.renameTarget f x) := by
  unfold Cmd.renameTarget
  cases h : f x with
  | none => exact hx
  | some a =>
    cases a with
    | symbol y => exact (V.symbol y).1 (hf x _ h)
    | _ => exact hx

section

variable {f : Subst}

mutual

/-- A substitution from the vocabulary keeps a command within it. -/
theorem Cmd.Within.substitute (hf : ∀ n a, f n = some a → V.expr a) :
    ∀ {c : Cmd}, c.Within V → (c.substitute f).Within V
  | .assert _, h => V.substitute h hf
  | .assume _, h => V.substitute h hf
  | .assign pairs, h => by
    rw [Cmd.substitute, Cmd.Within, List.forall_mem_map]
    exact fun p hp => ⟨V.name_renameTarget hf (h p hp).1, V.substitute (h p hp).2 hf⟩
  | .havoc vars, h => by
    rw [Cmd.substitute, Cmd.Within, List.forall_mem_map]
    exact fun x hx => V.name_renameTarget hf (h x hx)
  | .call _ args outputs, h => by
    rw [Cmd.substitute, Cmd.Within, List.forall_mem_map, List.forall_mem_map]
    exact ⟨fun a ha => V.substitute (h.1 a ha) hf,
      fun x hx => V.name_renameTarget hf (h.2 x hx)⟩
  | .comment _, _ => trivial
  | .scope _ _, h => ⟨h.1, Cmd.WithinAll.substituteAll hf h.2⟩

/-- The same for several commands. -/
theorem Cmd.WithinAll.substituteAll (hf : ∀ n a, f n = some a → V.expr a) :
    ∀ {cs : List Cmd}, Cmd.WithinAll V cs → Cmd.WithinAll V (Cmd.substituteAll f cs)
  | [], _ => trivial
  | _ :: _, h => ⟨h.1.substitute hf, Cmd.WithinAll.substituteAll hf h.2⟩

end

/-- A substitution from the vocabulary keeps a condition of a contract within it. -/
theorem Condition.Within.substitute (hf : ∀ n a, f n = some a → V.expr a) {c : Condition}
    (h : c.Within V) : (c.substitute f).Within V := by
  cases c with
  | formula e => exact V.substitute h hf
  | blocks bs =>
    rw [Condition.substitute, Within, List.forall_mem_map]
    intro b hb
    obtain ⟨hcmds, hexit⟩ := h b hb
    refine ⟨hcmds.substituteAll hf, fun e he => ?_⟩
    obtain ⟨label, cmds, exit⟩ := b
    cases exit with
    | goto => cases he
    | ret value =>
      cases he
      exact V.substitute (hexit value rfl) hf

end

/-! ## Larger vocabularies -/

/-- A vocabulary is part of another one. -/
structure Vocabulary.Le (V W : Vocabulary) : Prop where
  /-- Its names are in the other one. -/
  name : ∀ {n}, V.name n → W.name n
  /-- So are its expressions. -/
  expr : ∀ {e}, V.expr e → W.expr e
  /-- So are its places of declaration. -/
  kind : ∀ {k}, V.kind k → W.kind k

theorem Vocabulary.avoiding_le_sized (f : Name) (k : Nat) : (avoiding f).Le (sized f k) :=
  ⟨fun h => h, Expr.hasArity_of_notMem_functions, fun h => h⟩

section

variable {W : Vocabulary}

theorem Variable.Within.mono (hle : V.Le W) {v : Variable} (h : v.Within V) : v.Within W :=
  ⟨hle.name h.name, fun w hw => hle.expr (h.whereClause w hw), hle.kind h.kind⟩

mutual

/-- A command within a vocabulary is within a larger one. -/
theorem Cmd.Within.mono (hle : V.Le W) : ∀ {c : Cmd}, c.Within V → c.Within W
  | .assert _, h | .assume _, h => hle.expr h
  | .assign _, h => fun p hp => ⟨hle.name (h p hp).1, hle.expr (h p hp).2⟩
  | .havoc _, h => fun x hx => hle.name (h x hx)
  | .call _ _ _, h => ⟨fun a ha => hle.expr (h.1 a ha), fun x hx => hle.name (h.2 x hx)⟩
  | .comment _, _ => trivial
  | .scope _ _, h => ⟨fun v hv => (h.1 v hv).mono hle, h.2.mono hle⟩

/-- The same for several commands. -/
theorem Cmd.WithinAll.mono (hle : V.Le W) :
    ∀ {cs : List Cmd}, Cmd.WithinAll V cs → Cmd.WithinAll W cs
  | [], _ => trivial
  | _ :: _, h => ⟨h.1.mono hle, h.2.mono hle⟩

end

variable (hle : V.Le W)

include hle

theorem Condition.Within.mono {c : Condition} (h : c.Within V) : c.Within W := by
  cases c with
  | formula e => exact hle.expr h
  | blocks bs => exact fun b hb => ⟨(h b hb).1.mono hle, fun e he => hle.expr ((h b hb).2 e he)⟩

theorem Procedure.Within.mono {q : Procedure} (h : q.Within V) : q.Within W where
  inputs v hv := (h.inputs v hv).mono hle
  outputs v hv := (h.outputs v hv).mono hle
  requires r hr := (h.requires r hr).mono hle
  ensures e he := (h.ensures e he).mono hle
  modifies g hg := hle.name (h.modifies g hg)

theorem Implementation.Within.mono {i : Implementation} (h : i.Within V) : i.Within W where
  inputs v hv := (h.inputs v hv).mono hle
  outputs v hv := (h.outputs v hv).mono hle
  locals v hv := (h.locals v hv).mono hle
  cmds id := (h.cmds id).mono hle

/-- A program within a vocabulary is within a larger one. -/
theorem Program.Within.mono {p : Program} (h : p.Within V) : p.Within W where
  globals v hv := (h.globals v hv).mono hle
  procedures q hq := (h.procedures q hq).mono hle
  implementations i hi := (h.implementations i hi).mono hle

end

end Obligations
