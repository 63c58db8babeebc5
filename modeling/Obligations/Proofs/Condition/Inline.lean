import Mathlib
import Obligations.Condition.Encoding
import Obligations.Proofs.Outcome
import Obligations.Proofs.Cmd.Run
import Obligations.Proofs.Expr.Connectives
import Obligations.Proofs.Implementation.Order

/-!
# The weakest precondition with conditions copied

`Cmd.AssertionsHold` says of commands, and `Implementation.SafeFrom` of a block, that no assertion
fails where the assumptions before it hold. The first is what `Condition.ofCmds` computes
(`Condition.ofCmds_eq_ok`), the second goes from a block to its successors
(`Implementation.safeFrom_iff`). Along a topological order, taken from its end, the two give the
meaning of the whole formula.
-/

namespace Obligations

/-- All assumptions among the commands are true. -/
def Cmd.AssumptionsHold (cmds : List Cmd) (v : Valuation) : Prop :=
  ∀ e, .assume e ∈ cmds → e.Holds v

/-- Every assertion among the commands is true if all assumptions before it are. -/
def Cmd.AssertionsHold (cmds : List Cmd) (v : Valuation) : Prop :=
  ∀ before a after, cmds = before ++ .assert a :: after →
    Cmd.AssumptionsHold before v → a.condition.Holds v

/-- The commands only assert and assume, and their conditions are truth values. -/
def Cmd.AllDecided (cmds : List Cmd) (v : Valuation) : Prop :=
  ∀ c ∈ cmds, c.isPassive = true ∧ ∀ e, c.condition? = some e → e.Decided v

/-- No assertion fails on a path from a block to a block without successors. -/
def Implementation.SafeFrom (i : Implementation) (v : Valuation) (id : Nat) : Prop :=
  ∀ ids last, i.Path id ids last → i.successors last = [] → Cmd.AssertionsHold (i.cmdsAlong ids) v

namespace Cmd

variable {cmds cmds' : List Cmd} {v : Valuation}

theorem assertionsHold_nil : AssertionsHold [] v := by
  intro before a after h
  simp at h

/-- An assertion in front must be true, and the others under the same assumptions as before. -/
theorem assertionsHold_assert_cons {a : Assertion} :
    AssertionsHold (.assert a :: cmds) v ↔ a.condition.Holds v ∧ AssertionsHold cmds v := by
  constructor
  · intro h
    refine ⟨h [] a cmds rfl (by simp [AssumptionsHold]), fun before b after hb hassume => ?_⟩
    refine h (.assert a :: before) b after (by rw [hb]; rfl) fun e he => hassume e ?_
    simpa using he
  · rintro ⟨ha, h⟩ before b after hb hassume
    cases before with
    | nil =>
      cases hb
      exact ha
    | cons c before =>
      cases hb
      exact h before b after rfl fun e he => hassume e (List.mem_cons_of_mem _ he)

/-- An assumption in front adds to what is assumed. -/
theorem assertionsHold_assume_cons {e : Expr} :
    AssertionsHold (.assume e :: cmds) v ↔ (e.Holds v → AssertionsHold cmds v) := by
  constructor
  · intro h he before b after hb hassume
    refine h (.assume e :: before) b after (by rw [hb]; rfl) fun e' he' => ?_
    rcases List.mem_cons.mp he' with heq | he'
    · cases heq
      exact he
    · exact hassume e' he'
  · rintro h before b after hb hassume
    cases before with
    | nil => cases hb
    | cons c before =>
      cases hb
      exact h (hassume e List.mem_cons_self) before b after rfl
        fun e he => hassume e (List.mem_cons_of_mem _ he)

theorem assumptionsHold_assert_cons {a : Assertion} :
    AssumptionsHold (.assert a :: cmds) v ↔ AssumptionsHold cmds v := by
  simp [AssumptionsHold]

theorem assumptionsHold_assume_cons {e : Expr} :
    AssumptionsHold (.assume e :: cmds) v ↔ e.Holds v ∧ AssumptionsHold cmds v := by
  simp [AssumptionsHold]

/-- Assertions after other commands stand under the assumptions of these. -/
theorem assertionsHold_append (h : AllDecided cmds v) :
    AssertionsHold (cmds ++ cmds') v ↔
      AssertionsHold cmds v ∧ (AssumptionsHold cmds v → AssertionsHold cmds' v) := by
  induction cmds with
  | nil => simp [assertionsHold_nil, AssumptionsHold]
  | cons c cmds ih =>
    have ih := ih fun c' hc' => h c' (List.mem_cons_of_mem _ hc')
    cases c with
    | assert a =>
      rw [List.cons_append, assertionsHold_assert_cons, assertionsHold_assert_cons,
        assumptionsHold_assert_cons, ih, and_assoc]
    | assume e =>
      rw [List.cons_append, assertionsHold_assume_cons, assertionsHold_assume_cons,
        assumptionsHold_assume_cons, ih]
      tauto
    | assign | havoc | call | comment | scope => cases (h _ List.mem_cons_self).1

end Cmd

namespace Condition

/-- The weakest precondition of passive commands exists. Where the commands and what comes after are
decided, so is the precondition, and it says that no assertion fails and that what comes after holds
if all assumptions do. -/
theorem ofCmds_eq_ok {cmds : List Cmd} {post : Expr} (label : Name)
    (h : ∀ c ∈ cmds, c.isPassive = true) :
    ∃ e, ofCmds label post cmds = .ok e ∧
      ∀ v, Cmd.AllDecided cmds v → post.Decided v → e.Decided v ∧
        (e.Holds v ↔
          Cmd.AssertionsHold cmds v ∧ (Cmd.AssumptionsHold cmds v → post.Holds v)) := by
  induction cmds with
  | nil =>
    refine ⟨post, rfl, fun v _ hpost => ⟨hpost, ?_⟩⟩
    simp [Cmd.assertionsHold_nil, Cmd.AssumptionsHold]
  | cons c cmds ih =>
    obtain ⟨q, hq, ih⟩ := ih fun c' hc' => h c' (List.mem_cons_of_mem _ hc')
    have hc := h c List.mem_cons_self
    -- An assertion becomes a conjunct and an assumption a premise. There is nothing else in a
    -- passive body.
    cases c with
    | assert a =>
      refine ⟨a.condition.conj q, by rw [ofCmds, hq]; rfl, fun v hall hpost => ?_⟩
      obtain ⟨hd, hh⟩ := ih v (fun c' hc' => hall c' (List.mem_cons_of_mem _ hc')) hpost
      have ha : a.condition.Decided v := (hall _ List.mem_cons_self).2 _ rfl
      refine ⟨ha.conj hd, ?_⟩
      rw [Expr.holds_conj_iff, hh, Cmd.assertionsHold_assert_cons,
        Cmd.assumptionsHold_assert_cons, and_assoc]
    | assume e =>
      refine ⟨e.impl q, by rw [ofCmds, hq]; rfl, fun v hall hpost => ?_⟩
      obtain ⟨hd, hh⟩ := ih v (fun c' hc' => hall c' (List.mem_cons_of_mem _ hc')) hpost
      have he : e.Decided v := (hall _ List.mem_cons_self).2 _ rfl
      refine ⟨he.impl hd, ?_⟩
      rw [Expr.holds_impl_iff he hd, hh, Cmd.assertionsHold_assume_cons,
        Cmd.assumptionsHold_assume_cons]
      tauto
    | assign | havoc | call | comment | scope => cases hc

end Condition

/-! ## Blocks -/

namespace Implementation

variable {i : Implementation} {v : Valuation} {order : List Nat}

/-- From every block of a topological order a path leads to a block without successors. -/
theorem IsTopologicalOrder.exists_path (ho : i.IsTopologicalOrder order) :
    ∀ after before, order = before ++ after → ∀ id ∈ after,
      ∃ ids last, i.Path id ids last ∧ i.successors last = [] := by
  intro after
  induction after with
  | nil => simp
  | cons a after ih =>
    intro before h id hid
    have ih := ih (before ++ [a]) (by simpa using h)
    rcases List.mem_cons.mp hid with rfl | hid
    · -- A block with a successor comes before it, and the successor has a path.
      cases hs : i.successors id with
      | nil => exact ⟨[id], id, .single id, hs⟩
      | cons next _ =>
        have hnext : next ∈ i.successors id := hs ▸ List.mem_cons_self
        obtain ⟨ids, last, hp, hl⟩ := ih next (ho.successors_after before id after h next hnext)
        exact ⟨id :: ids, last, .cons hnext hp, hl⟩
    · exact ih id hid

/-- A block is safe if no assertion in it fails and, if its assumptions hold, all its successors
are safe. -/
theorem safeFrom_iff (ho : i.IsTopologicalOrder order) {id : Nat} (hid : id ∈ order)
    (h : Cmd.AllDecided (i.cmdsAt id) v) :
    i.SafeFrom v id ↔ Cmd.AssertionsHold (i.cmdsAt id) v ∧
      (Cmd.AssumptionsHold (i.cmdsAt id) v → ∀ next ∈ i.successors id, i.SafeFrom v next) := by
  constructor
  · intro hs
    constructor
    · -- Some path goes on from the block, and the assertions of the block come first on it.
      obtain ⟨ids, last, hp, hl⟩ := ho.exists_path order [] rfl id hid
      have hall := hs ids last hp hl
      cases hp with
      | single => simpa using hall
      | cons edge hp => exact ((Cmd.assertionsHold_append h).1 hall).1
    · intro hassume next edge ids last hp hl
      have hall := hs (id :: ids) last (.cons edge hp) hl
      exact ((Cmd.assertionsHold_append h).1 hall).2 hassume
  · rintro ⟨hassert, hnext⟩ ids last hp hl
    cases hp with
    | single => simpa using hassert
    | cons edge hp =>
      rw [cmdsAlong_cons, Cmd.assertionsHold_append h]
      exact ⟨hassert, fun hassume => hnext hassume _ edge _ last hp hl⟩

end Implementation

namespace Condition

open Implementation

variable {i : Implementation} {v : Valuation} {order : List Nat}

/-- A table gives the conditions of several blocks if it has one for each of them. -/
theorem Table.mapM_get {t : Table} {f : Nat → Expr} {ids : List Nat}
    (h : ∀ id ∈ ids, t.lookup id = some (f id)) : ids.mapM (t.get i) = .ok (ids.map f) := by
  refine mapM_eq_ok fun id hid => ?_
  rw [Table.get, h id hid]
  rfl

/-- What a table gives for a block is in the table. -/
theorem Table.mem_of_get_eq_ok {t : Table} {id : Nat} {e : Expr} (h : t.get i id = .ok e) :
    (id, e) ∈ t := by
  unfold Table.get at h
  cases hl : t.lookup id with
  | none =>
    rw [hl] at h
    cases h
  | some a =>
    rw [hl] at h
    cases h
    obtain ⟨before, after, rfl, -⟩ := List.lookup_eq_some_iff.1 hl
    exact List.mem_append_right _ List.mem_cons_self

theorem cmdsAt_of_blockAt {id : Nat} {b : Block} (h : blockAt i id = .ok b) :
    i.cmdsAt id = b.cmds := by
  unfold blockAt at h
  unfold Implementation.cmdsAt
  cases hb : i.blocks[id]? with
  | none =>
    rw [hb] at h
    cases h
  | some b' =>
    rw [hb] at h
    cases h
    rfl

/-- The condition that a table has for a block is decided and says that the block is safe. -/
def Table.Describes (t : Table) (i : Implementation) (v : Valuation) (id : Nat) : Prop :=
  ∃ e, t.lookup id = some e ∧ e.Decided v ∧ (e.Holds v ↔ i.SafeFrom v id)

/-- The table of a final part of a topological order describes the blocks of that part. -/
theorem inlineTable_describes (ho : i.IsTopologicalOrder order)
    (h : ∀ id ∈ order, Cmd.AllDecided (i.cmdsAt id) v) :
    ∀ after before, order = before ++ after →
      ∃ t, inlineTable i after = .ok t ∧ ∀ id ∈ after, t.Describes i v id := by
  intro after
  induction after with
  | nil => exact fun _ _ => ⟨[], rfl, by simp⟩
  | cons id after ih =>
    intro before hsplit
    obtain ⟨t, ht, hdescribes⟩ := ih (before ++ [id]) (by simpa using hsplit)
    have hid : id ∈ order := by rw [hsplit]; simp
    obtain ⟨b, hb⟩ := ho.exists_block hid
    have hcmds : i.cmdsAt id = b.cmds := by rw [cmdsAt, hb]; rfl
    have hsucc : i.successors id = b.successors := by rw [successors, hb]; rfl
    -- The conditions of the successors, which come later in the order.
    choose! f hlookup hdecided hsafe using hdescribes
    have hafter : ∀ next ∈ b.successors, next ∈ after := fun next hnext =>
      ho.successors_after before id after hsplit next (hsucc ▸ hnext)
    have hpost : b.successors.mapM (t.get i) = .ok (b.successors.map f) :=
      Table.mapM_get fun next hnext => hlookup next (hafter next hnext)
    have hdec : ∀ e ∈ b.successors.map f, e.Decided v :=
      List.forall_mem_map.2 fun next hnext => hdecided next (hafter next hnext)
    have hall : (∀ e ∈ b.successors.map f, e.Holds v) ↔
        ∀ next ∈ i.successors id, i.SafeFrom v next := by
      rw [List.forall_mem_map, hsucc]
      exact forall₂_congr fun next hnext => hsafe next (hafter next hnext)
    -- The condition of the block itself.
    have hall' : Cmd.AllDecided b.cmds v := hcmds ▸ h id hid
    obtain ⟨e, he, hmeaning⟩ := ofCmds_eq_ok b.label fun c hc => (hall' c hc).1
    obtain ⟨hd, hh⟩ := hmeaning v hall' (Expr.decided_conjAll hdec)
    have hself : e.Holds v ↔ i.SafeFrom v id := by
      rw [hh, Expr.holds_conjAll_iff, hall, safeFrom_iff ho hid (h id hid), hcmds]
    refine ⟨(id, e) :: t, ?_, fun id' hid' => ?_⟩
    · rw [inlineTable, ht, blockAt, hb]
      change (do let post ← b.successors.mapM (t.get i); _) = _
      rw [hpost]
      change (do let e ← ofCmds b.label (.conjAll (b.successors.map f)) b.cmds; _) = _
      rw [he]
      rfl
    · by_cases heq : id' = id
      · exact ⟨e, by simp [heq], hd, heq ▸ hself⟩
      · have hid' : id' ∈ after := by simpa [heq] using hid'
        refine ⟨f id', ?_, hdecided id' hid', hsafe id' hid'⟩
        rw [List.lookup_cons, beq_false_of_ne heq]
        exact hlookup id' hid'

/-- The formula of a body exists, is decided, and says that the entry is safe. -/
theorem inlined_eq_ok (ho : i.IsTopologicalOrder order)
    (h : ∀ id ∈ order, Cmd.AllDecided (i.cmdsAt id) v) :
    ∃ f, inlined i order = .ok f ∧ f.Decided v ∧ (f.Holds v ↔ i.SafeFrom v i.entry) := by
  obtain ⟨t, ht, hdescribes⟩ := inlineTable_describes ho h order [] rfl
  obtain ⟨f, hlookup, hd, hh⟩ := hdescribes i.entry ho.entry_mem
  refine ⟨f, ?_, hd, hh⟩
  rw [inlined, ht]
  change t.get i i.entry = _
  rw [Table.get, hlookup]
  rfl

/-! ## The formula -/

/-- The formula with conditions copied exists, and it is true exactly if on every path from the
entry to a block without successors each assertion is true whenever all assumptions before it on the
path are. -/
theorem encode_inline_holds_iff (i : Implementation) (order : List Nat) (v : Valuation)
    (ho : i.IsTopologicalOrder order)
    (hpassive : ∀ id ∈ order, ∀ c ∈ i.cmdsAt id, c.isPassive = true)
    (hdecided : ∀ id ∈ order, ∀ c ∈ i.cmdsAt id, ∀ e, c.condition? = some e →
      ∃ b, e.eval v = .ok (.bool b)) :
    ∃ f, (encode i order .inline).outcome = .ok (f, []) ∧
      (f.eval v = .ok (.bool true) ↔
        ∀ ids last, i.Path i.entry ids last → i.successors last = [] →
          ∀ before a after, i.cmdsAlong ids = before ++ .assert a :: after →
            (∀ e, .assume e ∈ before → e.eval v = .ok (.bool true)) →
              a.condition.eval v = .ok (.bool true)) := by
  have h : ∀ id ∈ order, Cmd.AllDecided (i.cmdsAt id) v :=
    fun id hid c hc => ⟨hpassive id hid c hc, hdecided id hid c hc⟩
  obtain ⟨f, hf, -, hh⟩ := inlined_eq_ok ho h
  refine ⟨f, ?_, hh⟩
  rw [encode]
  simp only [Minting.outcome_bind]
  change (inlined i order >>= _) = _
  rw [hf]
  rfl

/-- A body with a repeated target, a join, folded literals and an empty `goto`. -/
def diamond : Implementation where
  name := ⟨"P"⟩
  inputs := []
  outputs := []
  locals := []
  attributes := []
  entry := 0
  blocks :=
    [⟨⟨"entry"⟩, [.assume (.symbol ⟨"a"⟩)], [], .goto [1, 2, 1]⟩,
     ⟨⟨"left"⟩, [.assert ⟨.bool true, .plain, none, none⟩], [0, 0], .goto [3]⟩,
     ⟨⟨"right"⟩, [.assume (.bool false)], [0], .goto [3, 4]⟩,
     ⟨⟨"join"⟩, [.assert ⟨.symbol ⟨"b"⟩, .plain, none, none⟩], [1, 2], .goto []⟩,
     ⟨⟨"exit"⟩, [], [2], .ret⟩]

/-- A valuation under which `a` is true and `b` is false. -/
def diamondValuation : Valuation where
  symbol n :=
    if n.text = "a" then some (.bool true)
    else if n.text = "b" then some (.bool false)
    else none

theorem diamond_isTopologicalOrder : diamond.IsTopologicalOrder [0, 1, 2, 3, 4] :=
  isTopologicalOrder (by cbv) (by decide)

theorem diamond_allDecided : ∀ id ∈ [0, 1, 2, 3, 4],
    Cmd.AllDecided (diamond.cmdsAt id) diamondValuation := by
  simp only [List.forall_mem_cons, List.not_mem_nil, false_imp_iff, implies_true, and_true]
  refine ⟨?_, ?_, ?_, ?_, ?_⟩ <;> intro c hc
  · cases List.mem_singleton.mp hc
    exact ⟨rfl, fun e he => by cases he; exact ⟨true, by decide⟩⟩
  · cases List.mem_singleton.mp hc
    exact ⟨rfl, fun e he => by cases he; exact ⟨true, by decide⟩⟩
  · cases List.mem_singleton.mp hc
    exact ⟨rfl, fun e he => by cases he; exact ⟨false, by decide⟩⟩
  · cases List.mem_singleton.mp hc
    exact ⟨rfl, fun e he => by cases he; exact ⟨false, by decide⟩⟩
  · simp [cmdsAt, diamond] at hc

theorem encode_inline_holds_iff_diamond :
    diamond.IsTopologicalOrder [0, 1, 2, 3, 4] ∧
      ∃ f, (encode diamond [0, 1, 2, 3, 4] .inline).outcome = .ok (f, []) ∧
        (f.eval diamondValuation = .ok (.bool true) ↔
          ∀ ids last, diamond.Path diamond.entry ids last → diamond.successors last = [] →
            ∀ before a after, diamond.cmdsAlong ids = before ++ .assert a :: after →
              (∀ e, .assume e ∈ before → e.eval diamondValuation = .ok (.bool true)) →
                a.condition.eval diamondValuation = .ok (.bool true)) :=
  ⟨diamond_isTopologicalOrder,
    encode_inline_holds_iff diamond [0, 1, 2, 3, 4] diamondValuation diamond_isTopologicalOrder
      (fun id hid c hc => (diamond_allDecided id hid c hc).1)
      (fun id hid c hc => (diamond_allDecided id hid c hc).2)⟩

end Condition

end Obligations
