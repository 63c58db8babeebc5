import Mathlib.Data.List.Nodup
import Obligations.Proofs.Call.Expansion
import Obligations.Proofs.Name

/-!
# The locals that calls get

The expansion of the calls of a body makes up exactly the locals that are written down from the
procedures called, in the order of the calls (`Implementation.names_expandCalls`). The number of the
call can be read off such a name (`Name.number_eq_of_append`), so that only the inputs and the
globals of one call can get one local: all locals are distinct exactly if no procedure that is called
has two inputs of one name or lists a global twice (`nodup_temporariesFrom_iff`).
-/

namespace Obligations

/-- Two numbers followed by something that is no digit are told apart. -/
theorem Name.number_eq_of_append {m n : Nat} {c d : Char} {as bs : List Char}
    (hc : c.isDigit = false) (hd : d.isDigit = false)
    (h : Nat.toDigits 10 m ++ c :: as = Nat.toDigits 10 n ++ d :: bs) :
    m = n ∧ c :: as = d :: bs := by
  have hdigits : ∀ k, ∀ a ∈ Nat.toDigits 10 k, a.isDigit = true :=
    fun k a ha => Nat.isDigit_of_mem_toDigits (by decide) (by decide) ha
  -- The digits are the longest beginning of digits.
  have htake : ∀ k (e : Char) (es : List Char), e.isDigit = false →
      (Nat.toDigits 10 k ++ e :: es).takeWhile (·.isDigit) = Nat.toDigits 10 k := by
    intro k e es he
    rw [List.takeWhile_append_of_pos (hdigits k), List.takeWhile_cons_of_neg (by simp [he]),
      List.append_nil]
  have hnumber : Nat.toDigits 10 m = Nat.toDigits 10 n := by
    rw [← htake m c as hc, h, htake n d bs hd]
  have hvalue := congrArg (fun ds => Nat.ofDigitChars 10 ds 0) hnumber
  simp only [Nat.ofDigitChars_ten_toDigits] at hvalue
  rw [hnumber] at h
  exact ⟨hvalue, List.append_cancel_left h⟩

/-- The names made up in a sequence of two steps are those made up in each. -/
theorem Minting.names_of_bind {ε α β : Type} {x : Minting ε α} {f : α → Minting ε β} {b : β}
    (h : (x >>= f).outcome = .ok b) :
    ∃ a, x.outcome = .ok a ∧ (f a).outcome = .ok b ∧ (x >>= f).names = x.names ++ (f a).names := by
  obtain ⟨a, ha, hb⟩ := bind_eq_ok.1 h
  refine ⟨a, ha, hb, ?_⟩
  change (Minting.bind x f).names = _
  rw [Minting.bind, ha]

namespace CallSite

variable {s t : CallSite}

/-- The number of the call is told by the local for an input. -/
theorem number_eq_of_inputKeeper {x y : Name} (h : s.inputKeeper x = t.inputKeeper y) :
    s.number = t.number := by
  have htext := congrArg (fun n : Name => n.text.toList) h
  have hlists : Nat.toDigits 10 s.number ++ 'f' :: ("ormal".toList ++ x.text.toList) =
      Nat.toDigits 10 t.number ++ 'f' :: ("ormal".toList ++ y.text.toList) := by
    simpa [inputKeeper, String.toList_append, Nat.toString_eq_repr, Nat.toList_repr] using htext
  exact (Name.number_eq_of_append (by decide) (by decide) hlists).1

/-- It is told by the local for a global. -/
theorem number_eq_of_globalKeeper {g h : Name} (heq : s.globalKeeper g = t.globalKeeper h) :
    s.number = t.number := by
  have htext := congrArg (fun n : Name => n.text.toList) heq
  have hlists : Nat.toDigits 10 s.number ++ 'o' :: ("ld".toList ++ g.text.toList) =
      Nat.toDigits 10 t.number ++ 'o' :: ("ld".toList ++ h.text.toList) := by
    simpa [globalKeeper, String.toList_append, Nat.toString_eq_repr, Nat.toList_repr] using htext
  exact (Name.number_eq_of_append (by decide) (by decide) hlists).1

/-- No local of one call that keeps an argument is a local of another one that keeps a global. -/
theorem inputKeeper_ne_globalKeeper_of_calls (x g : Name) : s.inputKeeper x ≠ t.globalKeeper g := by
  intro h
  have htext := congrArg (fun n : Name => n.text.toList) h
  have hlists : Nat.toDigits 10 s.number ++ 'f' :: ("ormal".toList ++ x.text.toList) =
      Nat.toDigits 10 t.number ++ 'o' :: ("ld".toList ++ g.text.toList) := by
    simpa [inputKeeper, globalKeeper, String.toList_append, Nat.toString_eq_repr,
      Nat.toList_repr] using htext
  have hkinds := (Name.number_eq_of_append (by decide) (by decide) hlists).2
  exact absurd (List.cons.inj hkinds).1 (by decide)

/-- The names of the locals of a call. -/
def keeperNames (s : CallSite) : List Name :=
  s.callee.inputs.map (fun x => s.inputKeeper x.name) ++ s.callee.modifies.map s.globalKeeper

/-- A local of a call keeps an argument or a global. -/
theorem mem_keeperNames_iff {n : Name} : n ∈ s.keeperNames ↔
    (∃ x ∈ s.callee.inputs, n = s.inputKeeper x.name) ∨
      ∃ g ∈ s.callee.modifies, n = s.globalKeeper g := by
  simp only [keeperNames, List.mem_append, List.mem_map, eq_comm]

/-- Calls with different numbers have different locals. -/
theorem number_eq_of_mem_keeperNames {n : Name} (hs : n ∈ s.keeperNames)
    (ht : n ∈ t.keeperNames) : s.number = t.number := by
  rcases mem_keeperNames_iff.1 hs with ⟨x, -, rfl⟩ | ⟨g, -, rfl⟩
  · rcases mem_keeperNames_iff.1 ht with ⟨y, -, heq⟩ | ⟨h, -, heq⟩
    · exact number_eq_of_inputKeeper heq
    · exact absurd heq (inputKeeper_ne_globalKeeper_of_calls x.name h)
  · rcases mem_keeperNames_iff.1 ht with ⟨y, -, heq⟩ | ⟨h, -, heq⟩
    · exact absurd heq.symm (inputKeeper_ne_globalKeeper_of_calls y.name g)
    · exact number_eq_of_globalKeeper heq

/-- The locals of a call are distinct exactly if the names of the inputs are and the globals that the
procedure may change are. -/
theorem nodup_keeperNames_iff : s.keeperNames.Nodup ↔
    (s.callee.inputs.map (·.name)).Nodup ∧ s.callee.modifies.Nodup := by
  have hinputs : s.callee.inputs.map (fun x => s.inputKeeper x.name) =
      (s.callee.inputs.map (·.name)).map s.inputKeeper := by
    rw [List.map_map]
    rfl
  have hdisjoint : ∀ a ∈ (s.callee.inputs.map (·.name)).map s.inputKeeper,
      ∀ b ∈ s.callee.modifies.map s.globalKeeper, a ≠ b := by
    intro a ha b hb
    obtain ⟨x, -, rfl⟩ := List.mem_map.1 ha
    obtain ⟨g, -, rfl⟩ := List.mem_map.1 hb
    exact inputKeeper_ne_globalKeeper x g
  rw [keeperNames, hinputs, List.nodup_append, and_iff_left hdisjoint,
    List.nodup_map_iff fun x y => inputKeeper_injective x y,
    List.nodup_map_iff fun g h => globalKeeper_injective g h]

/-- The names made up for the globals that a procedure may change. -/
theorem names_globalKeepers {p : Program} : ∀ {gs : List Name} {ks : List Keeper},
    (s.globalKeepers p gs).outcome = .ok ks →
      (s.globalKeepers p gs).names = gs.map s.globalKeeper
  | [], _, _ => rfl
  | g :: gs, ks, h => by
    cases hg : p.global? g with
    | none =>
      rw [globalKeepers, hg] at h
      cases h
    | some v =>
      rw [globalKeepers] at h ⊢
      rw [hg] at h ⊢
      obtain ⟨n, hn, h, hnames⟩ := Minting.names_of_bind h
      cases hn
      obtain ⟨rest, hrest, h, hnames'⟩ := Minting.names_of_bind h
      cases h
      rw [hnames, hnames', names_globalKeepers hrest]
      change [s.globalKeeper g] ++ (gs.map s.globalKeeper ++ []) = _
      rw [List.append_nil]
      rfl

/-- The names made up for a call are those of its locals. -/
theorem names_expand {p : Program} {c : Cmd} (hargs : s.args.length = s.callee.inputs.length)
    (h : (s.expand p).outcome = .ok c) : (s.expand p).names = s.keeperNames := by
  have hinputs : s.inputKeepers.map (·.holder.name) =
      s.callee.inputs.map fun x => s.inputKeeper x.name := by
    unfold inputKeepers
    rw [List.map_zipWith]
    refine List.ext_getElem (by simp [hargs]) fun k h₁ h₂ => by simp
  unfold expand at h ⊢
  obtain ⟨checks, -, h, hnames⟩ := Minting.names_of_bind h
  obtain ⟨⟨⟩, -, h, hnames'⟩ := Minting.names_of_bind h
  obtain ⟨globals, hglobals, h, hnames''⟩ := Minting.names_of_bind h
  obtain ⟨guarantees, -, h, hnames'''⟩ := Minting.names_of_bind h
  cases h
  rw [hnames, hnames', hnames'', hnames''', names_globalKeepers hglobals]
  change [] ++ (s.inputKeepers.map (·.holder.name) ++ (s.callee.modifies.map s.globalKeeper ++
    ([] ++ []))) = _
  rw [hinputs, List.nil_append, List.append_nil, List.append_nil]
  rfl

end CallSite

/-! ## All calls of a body -/

/-- The locals that the calls of some procedures by a body get, the first call having the given
number. -/
def temporariesFrom (p : Program) (caller : Name) : Nat → List Name → List Name
  | _, [] => []
  | k, callee :: callees =>
    (match p.procedure? callee with
      | none => []
      | some q => CallSite.keeperNames ⟨caller, q, k, [], []⟩) ++
        temporariesFrom p caller (k + 1) callees

/-- The procedures that a body calls, in the order of the calls. -/
def Implementation.callees (i : Implementation) : List Name :=
  i.blocks.flatMap fun b => Cmd.calleesAll b.cmds

/-- The locals that the calls of a body get. -/
def Implementation.temporaries (i : Implementation) (p : Program) : List Name :=
  temporariesFrom p i.name 0 i.callees

section

variable {p : Program} {caller : Name}

/-- The calls of some procedures and then of others are numbered on. -/
theorem temporariesFrom_append : ∀ (k : Nat) (as bs : List Name),
    temporariesFrom p caller k (as ++ bs) =
      temporariesFrom p caller k as ++ temporariesFrom p caller (k + as.length) bs
  | _, [], _ => rfl
  | k, a :: as, bs => by
    have hcount : k + (as.length + 1) = k + 1 + as.length := by omega
    rw [List.cons_append, temporariesFrom, temporariesFrom, temporariesFrom_append (k + 1) as bs,
      List.length_cons, hcount, List.append_assoc]

/-- A local is that of some call. -/
theorem mem_temporariesFrom_iff {n : Name} : ∀ {k : Nat} {callees : List Name},
    n ∈ temporariesFrom p caller k callees ↔ ∃ j callee q, callees[j]? = some callee ∧
      p.procedure? callee = some q ∧ n ∈ CallSite.keeperNames ⟨caller, q, k + j, [], []⟩
  | k, [] => by simp [temporariesFrom]
  | k, callee :: callees => by
    rw [temporariesFrom, List.mem_append, mem_temporariesFrom_iff]
    -- Position `j + 1` of the list is position `j` of its tail, whose calls are numbered from `k +
    -- 1` on.
    constructor
    · rintro (h | ⟨j, callee', q, hcallee, hq, hn⟩)
      · cases hq : p.procedure? callee with
        | none =>
          rw [hq] at h
          cases h
        | some q =>
          rw [hq] at h
          exact ⟨0, callee, q, rfl, hq, h⟩
      · refine ⟨j + 1, callee', q, hcallee, hq, ?_⟩
        rwa [show k + (j + 1) = k + 1 + j by omega]
    · rintro ⟨j, callee', q, hcallee, hq, hn⟩
      cases j with
      | zero =>
        cases hcallee
        rw [hq]
        exact .inl hn
      | succ j =>
        refine .inr ⟨j, callee', q, hcallee, hq, ?_⟩
        rwa [show k + 1 + j = k + (j + 1) by omega]

/-- All locals are distinct exactly if no procedure that is called has two inputs of one name or
lists a global twice among those that it may change. -/
theorem nodup_temporariesFrom_iff : ∀ {k : Nat} {callees : List Name},
    (temporariesFrom p caller k callees).Nodup ↔
      ∀ callee ∈ callees, ∀ q, p.procedure? callee = some q →
        (q.inputs.map (·.name)).Nodup ∧ q.modifies.Nodup
  | k, [] => by simp [temporariesFrom]
  | k, callee :: callees => by
    have hfirst : (match p.procedure? callee with
        | none => []
        | some q => CallSite.keeperNames ⟨caller, q, k, [], []⟩).Nodup ↔
          ∀ q, p.procedure? callee = some q →
            (q.inputs.map (·.name)).Nodup ∧ q.modifies.Nodup := by
      cases p.procedure? callee with
      | none => simp
      | some q => simpa using CallSite.nodup_keeperNames_iff (s := ⟨caller, q, k, [], []⟩)
    -- The calls that follow have greater numbers.
    have hdisjoint : ∀ a ∈ (match p.procedure? callee with
        | none => []
        | some q => CallSite.keeperNames ⟨caller, q, k, [], []⟩),
        ∀ b ∈ temporariesFrom p caller (k + 1) callees, a ≠ b := by
      rintro a ha b hb rfl
      obtain ⟨j, callee', q', -, -, hn⟩ := mem_temporariesFrom_iff.1 hb
      cases hq : p.procedure? callee with
      | none =>
        rw [hq] at ha
        cases ha
      | some q =>
        rw [hq] at ha
        have hnumber : k = k + 1 + j := CallSite.number_eq_of_mem_keeperNames ha hn
        omega
    rw [temporariesFrom, List.nodup_append, and_iff_left hdisjoint, hfirst,
      nodup_temporariesFrom_iff, List.forall_mem_cons]

/-- A call that can be expanded is one of a declared procedure with as many arguments as inputs. -/
theorem callSite_eq_ok {callee : Name} {number : Nat} {args : List Expr} {outputs : List Name}
    {s : CallSite} (h : callSite p caller callee number args outputs = .ok s) :
    ∃ q, p.procedure? callee = some q ∧ s = ⟨caller, q, number, args, outputs⟩ ∧
      args.length = q.inputs.length := by
  unfold callSite at h
  cases hq : p.procedure? callee with
  | none =>
    rw [hq] at h
    cases h
  | some q =>
    simp only [hq] at h
    split_ifs at h with harity
    cases h
    exact ⟨q, rfl, rfl, by omega⟩

mutual

/-- The names made up for a command are the locals of its calls. -/
theorem names_expandCalls : ∀ {c d : Cmd} {number : Nat},
    (c.expandCalls p caller number).outcome = .ok d →
      (c.expandCalls p caller number).names = temporariesFrom p caller number c.callees
  | .call callee args outputs, _, number, h => by
    rw [Cmd.expandCalls] at h ⊢
    obtain ⟨s, hs, h, hnames⟩ := Minting.names_of_bind h
    obtain ⟨q, hq, rfl, hargs⟩ := callSite_eq_ok hs
    rw [hnames, CallSite.names_expand hargs h, Cmd.callees, temporariesFrom, hq, temporariesFrom,
      List.append_nil]
    rfl
  | .scope locals cmds, _, number, h => by
    rw [Cmd.expandCalls] at h ⊢
    obtain ⟨ds, hds, h, hnames⟩ := Minting.names_of_bind h
    cases h
    rw [hnames, names_expandCallsAll hds, Cmd.callees]
    exact List.append_nil _
  | .assert _, _, _, _ | .assume _, _, _, _ | .assign _, _, _, _ | .havoc _, _, _, _
  | .comment _, _, _, _ => rfl

/-- The same for several commands. -/
theorem names_expandCallsAll : ∀ {cs ds : List Cmd} {number : Nat},
    (Cmd.expandCallsAll p caller number cs).outcome = .ok ds →
      (Cmd.expandCallsAll p caller number cs).names =
        temporariesFrom p caller number (Cmd.calleesAll cs)
  | [], _, _, _ => rfl
  | c :: cs, _, number, h => by
    rw [Cmd.expandCallsAll] at h ⊢
    obtain ⟨d, hd, h, hnames⟩ := Minting.names_of_bind h
    obtain ⟨rest, hrest, h, hnames'⟩ := Minting.names_of_bind h
    cases h
    rw [hnames, hnames', names_expandCalls hd, names_expandCallsAll hrest, Cmd.calleesAll,
      temporariesFrom_append]
    exact congrArg _ (List.append_nil _)

end

/-- The same for several blocks. -/
theorem names_expandBlocks : ∀ {bs cs : List Block} {number : Nat},
    (expandBlocks p caller number bs).outcome = .ok cs →
      (expandBlocks p caller number bs).names =
        temporariesFrom p caller number (bs.flatMap fun b => Cmd.calleesAll b.cmds)
  | [], _, _, _ => rfl
  | b :: bs, _, number, h => by
    rw [expandBlocks] at h ⊢
    obtain ⟨cmds, hcmds, h, hnames⟩ := Minting.names_of_bind h
    obtain ⟨rest, hrest, h, hnames'⟩ := Minting.names_of_bind h
    cases h
    rw [hnames, hnames', names_expandCallsAll hcmds, names_expandBlocks hrest, List.flatMap_cons,
      temporariesFrom_append]
    exact congrArg _ (List.append_nil _)

end

/-! ## Globals that calls may change -/

/-- A procedure may change declared globals only, if there is one of the name. -/
def Program.ChangesDeclared (p : Program) (callee : Name) : Prop :=
  ∀ q, p.procedure? callee = some q → ∀ g ∈ q.modifies, g ∈ p.globals.map (·.name)

section

variable {p : Program} {caller : Name}

theorem CallSite.mem_globals_of_globalKeepers {s : CallSite} : ∀ {gs : List Name}
    {ks : List Keeper}, (s.globalKeepers p gs).outcome = .ok ks →
      ∀ g ∈ gs, g ∈ p.globals.map (·.name)
  | [], _, _ => by simp
  | g :: gs, _, h => by
    rw [globalKeepers] at h
    cases hg : p.global? g with
    | none =>
      rw [hg] at h
      cases h
    | some v =>
      rw [hg] at h
      obtain ⟨n, -, h⟩ := Minting.bind_eq_ok.1 h
      obtain ⟨rest, hrest, -⟩ := Minting.bind_eq_ok.1 h
      have hname : v.name = g := by simpa using List.find?_some hg
      refine List.forall_mem_cons.2 ⟨?_, mem_globals_of_globalKeepers hrest⟩
      exact hname ▸ List.mem_map_of_mem (List.mem_of_find?_eq_some hg)

mutual

/-- The procedures that can be called by a command may change declared globals only. -/
theorem changesDeclared_of_expandCalls : ∀ {c d : Cmd} {number : Nat},
    (c.expandCalls p caller number).outcome = .ok d →
      ∀ callee ∈ c.callees, p.ChangesDeclared callee
  | .call callee args outputs, _, number, h => by
    rw [Cmd.expandCalls] at h
    obtain ⟨s, hs, h⟩ := Minting.bind_eq_ok.1 h
    obtain ⟨q, hq, rfl, -⟩ := callSite_eq_ok hs
    rw [CallSite.expand] at h
    obtain ⟨checks, hchecks, h⟩ := Minting.bind_eq_ok.1 h
    obtain ⟨⟨⟩, hminted, h⟩ := Minting.bind_eq_ok.1 h
    obtain ⟨globals, hglobals, -⟩ := Minting.bind_eq_ok.1 h
    -- A local is made for each global that the callee may change, with the type of its declaration.
    intro callee' hcallee q' hq'
    rw [List.mem_singleton.1 hcallee, hq] at hq'
    cases hq'
    exact CallSite.mem_globals_of_globalKeepers hglobals
  | .scope locals cmds, _, number, h => by
    rw [Cmd.expandCalls] at h
    obtain ⟨ds, hds, -⟩ := Minting.bind_eq_ok.1 h
    exact changesDeclared_of_expandCallsAll hds
  | .assert _, _, _, _ | .assume _, _, _, _ | .assign _, _, _, _ | .havoc _, _, _, _
  | .comment _, _, _, _ => fun _ h => by cases h

/-- The same for several commands. -/
theorem changesDeclared_of_expandCallsAll : ∀ {cs ds : List Cmd} {number : Nat},
    (Cmd.expandCallsAll p caller number cs).outcome = .ok ds →
      ∀ callee ∈ Cmd.calleesAll cs, p.ChangesDeclared callee
  | [], _, _, _ => fun _ h => by cases h
  | c :: cs, _, number, h => by
    rw [Cmd.expandCallsAll] at h
    obtain ⟨d, hd, h⟩ := Minting.bind_eq_ok.1 h
    obtain ⟨rest, hrest, -⟩ := Minting.bind_eq_ok.1 h
    rw [Cmd.calleesAll]
    exact List.forall_mem_append.2
      ⟨changesDeclared_of_expandCalls hd, changesDeclared_of_expandCallsAll hrest⟩

end

/-- The same for several blocks. -/
theorem changesDeclared_of_expandBlocks : ∀ {bs cs : List Block} {number : Nat},
    (expandBlocks p caller number bs).outcome = .ok cs →
      ∀ callee ∈ bs.flatMap fun b => Cmd.calleesAll b.cmds, p.ChangesDeclared callee
  | [], _, _, _ => fun _ h => by cases h
  | b :: bs, _, number, h => by
    rw [expandBlocks] at h
    obtain ⟨cmds, hcmds, h⟩ := Minting.bind_eq_ok.1 h
    obtain ⟨rest, hrest, -⟩ := Minting.bind_eq_ok.1 h
    rw [List.flatMap_cons]
    exact List.forall_mem_append.2
      ⟨changesDeclared_of_expandCallsAll hcmds, changesDeclared_of_expandBlocks hrest⟩

end

/-- The names made up when the calls of a body are expanded are the locals of its calls. -/
theorem Implementation.names_expandCalls {i j : Implementation} {p : Program}
    (h : (i.expandCalls p).outcome = .ok j) : (i.expandCalls p).names = i.temporaries p := by
  unfold expandCalls at h ⊢
  obtain ⟨blocks, hblocks, h, hnames⟩ := Minting.names_of_bind h
  cases h
  rw [hnames, names_expandBlocks hblocks]
  exact List.append_nil _

end Obligations
