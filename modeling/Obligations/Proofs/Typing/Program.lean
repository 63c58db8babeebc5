import Obligations.Passive.Body
import Obligations.Proofs.Typing.Signature

/-!
# Well-typed programs

A program over truth values and integers is well-typed (`Program.WellTyped`) if every expression in
it has the kind that its place asks for, where the names in force have the kinds of their types. A
condition of a contract is over the globals and the formals of its procedure, a body is over the
globals, its own formals and its locals, and a scope adds its locals to what is in force around it.
-/

namespace Obligations

variable {p : Program} {s t : Signature}

/-! ## Names in force -/

/-- The kinds of the globals and the functions of a program. -/
def Program.signature (p : Program) : Signature :=
  Signature.declare ⟨fun _ => none, fun f => (p.function? f).bind Function.kinds?⟩ p.globals

/-- The kinds of the names in force in a body. -/
def Implementation.signature (i : Implementation) (p : Program) : Signature :=
  p.signature.declare (i.inputs ++ i.outputs ++ i.locals)

theorem Program.symbol_signature (p : Program) (n : Name) :
    p.signature.symbol n = (p.global? n).bind (·.ty.kind?) := by
  unfold Program.signature Program.global?
  cases h : p.globals.find? (·.name = n) with
  | some v => exact Signature.symbol_declare_of_find? h
  | none => simp only [Signature.declare, h, Option.bind_none]

theorem Program.mem_globals_of_global? {n : Name} {d : Variable} (h : p.global? n = some d) :
    d ∈ p.globals ∧ d.name = n :=
  ⟨List.mem_of_find?_eq_some h,
    of_decide_eq_true (List.find?_some (p := fun g : Variable => g.name = n) h)⟩

/-- Only globals have kinds outside of bodies. -/
theorem Program.mem_of_symbol_signature {n : Name} {k : Kind}
    (h : p.signature.symbol n = some k) : n ∈ p.globals.map (·.name) := by
  obtain ⟨d, hd, -⟩ := Option.bind_eq_some_iff.1 ((p.symbol_signature n).symm.trans h)
  obtain ⟨hmem, rfl⟩ := mem_globals_of_global? hd
  exact List.mem_map_of_mem hmem

/-! ## Parts of a program -/

/-- The expression has the kind of the values of a type. -/
def Expr.HasType (s : Signature) (ty : Ty) (e : Expr) : Prop :=
  ∃ k, ty.kind? = some k ∧ e.kind? s = some k

theorem Expr.HasType.mono (h : s.Le t) {ty : Ty} {e : Expr} (he : e.HasType s ty) :
    e.HasType t ty :=
  he.imp fun _ ⟨hty, he⟩ => ⟨hty, Expr.kind?_mono h he⟩

/-- The variable has a type of truth values or integers, and the condition on it is a formula. -/
structure Variable.Typed (s : Signature) (v : Variable) : Prop where
  /-- Its type. -/
  ty : ∃ k, v.ty.kind? = some k
  /-- The condition on it. -/
  whereClause : ∀ w, v.whereClause = some w → w.kind? s = some .bool

/- Well-typed commands. -/
mutual

/-- The command is well-typed where names have these kinds. -/
def Cmd.Typed (p : Program) (s : Signature) : Cmd → Prop
  | assert a => a.condition.kind? s = some .bool
  | assume e => e.kind? s = some .bool
  | assign pairs => ∀ x ∈ pairs, ∃ k, s.symbol x.1 = some k ∧ x.2.kind? s = some k
  | havoc vars => ∀ x ∈ vars, ∃ k, s.symbol x = some k
  | call callee args outputs => ∃ q, p.procedure? callee = some q ∧
      List.Forall₂ (fun x a => a.HasType s x.ty) q.inputs args ∧
      List.Forall₂ (fun x o => (Expr.symbol o).HasType s x.ty) q.outputs outputs
  | comment _ => True
  | scope locals cmds =>
    (∀ v ∈ locals, v.Typed (s.declare locals)) ∧ Cmd.TypedAll p (s.declare locals) cmds

/-- Several commands are well-typed where names have these kinds. -/
def Cmd.TypedAll (p : Program) (s : Signature) : List Cmd → Prop
  | [] => True
  | c :: cs => c.Typed p s ∧ Cmd.TypedAll p s cs

end

/-- The condition of a contract is well-typed where names have these kinds. -/
def Condition.Typed (p : Program) (s : Signature) : Condition → Prop
  | formula e => e.kind? s = some .bool
  | blocks bs => ∀ b ∈ bs, Cmd.TypedAll p s b.cmds ∧ ∀ e, b.exit = .ret e → e.kind? s = some .bool

/-- The declaration of a procedure is well-typed. -/
structure Procedure.Typed (p : Program) (q : Procedure) : Prop where
  /-- The formals have different names. -/
  nodup : ((q.inputs ++ q.outputs).map (·.name)).Nodup
  /-- The formals are over the globals and the formals. -/
  formals : ∀ v ∈ q.inputs ++ q.outputs, v.Typed (p.signature.declare (q.inputs ++ q.outputs))
  /-- The preconditions are over the globals and the inputs. -/
  requires : ∀ r ∈ q.requires, r.condition.Typed p (p.signature.declare q.inputs)
  /-- The postconditions are over the globals and the formals. -/
  ensures : ∀ e ∈ q.ensures, e.condition.Typed p (p.signature.declare (q.inputs ++ q.outputs))

theorem Procedure.Typed.nodup_inputs {q : Procedure} (hq : q.Typed p) :
    (q.inputs.map (·.name)).Nodup := by
  have h := hq.nodup
  rw [List.map_append] at h
  exact h.of_append_left

/-- A body is well-typed. -/
structure Implementation.Typed (p : Program) (i : Implementation) : Prop where
  /-- Its inputs have the types that its procedure gives them. -/
  inputs : ∀ q, p.procedure? i.name = some q →
    List.Forall₂ (fun x v => v.ty = x.ty) q.inputs i.inputs
  /-- So have its outputs. -/
  outputs : ∀ q, p.procedure? i.name = some q →
    List.Forall₂ (fun x v => v.ty = x.ty) q.outputs i.outputs
  /-- Its variables. -/
  vars : ∀ v ∈ i.inputs ++ i.outputs ++ i.locals, v.Typed (i.signature p)
  /-- The commands of its blocks. -/
  cmds : ∀ b ∈ i.blocks, Cmd.TypedAll p (i.signature p) b.cmds

/-- A global with a well-typed declaration has the kind of its type. -/
theorem Program.exists_symbol_signature (h : ∀ v ∈ p.globals, v.Typed p.signature) {n : Name}
    {d : Variable} (hd : p.global? n = some d) :
    ∃ k, d.ty.kind? = some k ∧ p.signature.symbol n = some k := by
  obtain ⟨k, hk⟩ := (h d (mem_globals_of_global? hd).1).ty
  refine ⟨k, hk, ?_⟩
  rw [symbol_signature, hd]
  exact hk

/-- The program is well-typed and over truth values and integers. -/
structure Program.WellTyped (p : Program) : Prop where
  /-- Its globals. -/
  globals : ∀ v ∈ p.globals, v.Typed p.signature
  /-- Its procedures. -/
  procedures : ∀ q ∈ p.procedures, q.Typed p
  /-- Its bodies. -/
  implementations : ∀ i ∈ p.implementations, i.Typed p

/-! ## Commands -/

theorem Cmd.typedAll_iff {cs : List Cmd} : Cmd.TypedAll p s cs ↔ ∀ c ∈ cs, c.Typed p s := by
  induction cs with
  | nil => simp [TypedAll]
  | cons c cs ih => simp [TypedAll, ih]

@[simp] theorem Cmd.typedAll_append {cs ds : List Cmd} :
    Cmd.TypedAll p s (cs ++ ds) ↔ Cmd.TypedAll p s cs ∧ Cmd.TypedAll p s ds := by
  simp only [typedAll_iff, List.forall_mem_append]

/-- A renaming that keeps kinds does so for a name that is written to. -/
theorem Signature.Renames.renameTarget {f : Subst} (hf : s.Renames t f) {x : Name} {k : Kind}
    (hx : s.symbol x = some k) : t.symbol (Cmd.renameTarget f x) = some k := by
  obtain ⟨y, hname, hy⟩ := hf.symbol x k hx
  unfold Cmd.renameTarget
  cases h : f x with
  | none =>
    rw [h] at hname
    cases hname
    exact hy
  | some a =>
    rw [h] at hname
    cases hname
    exact hy

namespace Passive

mutual

/-- A substitution leaves the locals of scopes as they are. -/
theorem scopeLocals_substitute (f : Subst) : ∀ c : Cmd, scopeLocals (c.substitute f) = scopeLocals c
  | .scope locals cmds => congrArg (locals ++ ·) (scopeLocalsAll_substituteAll f cmds)
  | .assert _ | .assume _ | .assign _ | .havoc _ | .call _ _ _ | .comment _ => rfl

/-- The same for several commands. -/
theorem scopeLocalsAll_substituteAll (f : Subst) :
    ∀ cs : List Cmd, scopeLocalsAll (Cmd.substituteAll f cs) = scopeLocalsAll cs
  | [] => rfl
  | c :: cs => congrArg₂ (· ++ ·) (scopeLocals_substitute f c) (scopeLocalsAll_substituteAll f cs)

end

theorem mem_scopeLocalsAll {v : Variable} {cs : List Cmd} :
    v ∈ scopeLocalsAll cs ↔ ∃ c ∈ cs, v ∈ scopeLocals c := by
  induction cs with
  | nil => simp [scopeLocalsAll]
  | cons c cs ih => simp [scopeLocalsAll, ih]

end Passive

open Passive (scopeLocals scopeLocalsAll)

mutual

/-- A command without locals of its own stays well-typed if names are replaced by names of their
kinds. -/
theorem Cmd.Typed.substitute {f : Subst} (hf : s.Renames t f) :
    ∀ {c : Cmd}, c.Typed p s → scopeLocals c = [] → (c.substitute f).Typed p t
  | .assert _, h, _ | .assume _, h, _ => Expr.kind?_substitute hf.replaces h
  | .assign pairs, h, _ => by
    rw [Cmd.substitute, Cmd.Typed, List.forall_mem_map]
    intro x hx
    obtain ⟨k, hk, he⟩ := h x hx
    exact ⟨k, hf.renameTarget hk, Expr.kind?_substitute hf.replaces he⟩
  | .havoc vars, h, _ => by
    rw [Cmd.substitute, Cmd.Typed, List.forall_mem_map]
    exact fun x hx => (h x hx).imp fun k => hf.renameTarget
  | .call _ args outputs, h, _ => by
    obtain ⟨q, hq, hargs, houtputs⟩ := h
    refine ⟨q, hq, List.forall₂_map_right_iff.2 (hargs.imp ?_),
      List.forall₂_map_right_iff.2 (houtputs.imp ?_)⟩
    · exact fun x a ⟨k, hk, ha⟩ => ⟨k, hk, Expr.kind?_substitute hf.replaces ha⟩
    · exact fun x o ⟨k, hk, ho⟩ => ⟨k, hk, hf.renameTarget ho⟩
  | .comment _, _, _ => trivial
  | .scope locals cmds, h, hlocals => by
    obtain ⟨rfl, hcmds⟩ := List.append_eq_nil_iff.1 hlocals
    exact ⟨fun v hv => (nomatch hv), Cmd.TypedAll.substituteAll hf h.2 hcmds⟩

/-- The same for several commands. -/
theorem Cmd.TypedAll.substituteAll {f : Subst} (hf : s.Renames t f) :
    ∀ {cs : List Cmd}, Cmd.TypedAll p s cs → scopeLocalsAll cs = [] →
      Cmd.TypedAll p t (Cmd.substituteAll f cs)
  | [], _, _ => trivial
  | c :: cs, h, hlocals => by
    obtain ⟨hc, hcs⟩ := List.append_eq_nil_iff.1 hlocals
    exact ⟨h.1.substitute hf hc, Cmd.TypedAll.substituteAll hf h.2 hcs⟩

end

end Obligations
