import Obligations.Proofs.Condition.Inline

/-!
# The weakest precondition with block variables

Every block has a symbol, and the formula says that the symbol of the entry holds if each symbol is
equivalent to the condition of its block over the symbols of its successors. Such equivalences leave
one choice only: taken from the end of a topological order, they make each symbol say that its block
is safe (`Condition.holds_symbol_iff_safeFrom`). So the formula holds for all values of the symbols
exactly if the entry is safe, which is what the formula with conditions copied says.
-/

namespace Obligations

/-- A valuation that gives truth values to some symbols and agrees with another one elsewhere. -/
structure Valuation.Extends (w v : Valuation) (symbols : List Name) : Prop where
  /-- The symbols have truth values. -/
  isBool : ∀ n ∈ symbols, ∃ b, w.symbol n = some (.bool b)
  /-- Other names have the values that they had. -/
  symbol : ∀ n, n ∉ symbols → w.symbol n = v.symbol n
  /-- So do names on entry. -/
  onEntry : w.onEntry = v.onEntry
  /-- So do applications. -/
  application : w.application = v.application

namespace Expr

/-- A symbol whose value is a truth value is decided. -/
theorem decided_symbol {v : Valuation} {n : Name} (h : ∃ b, v.symbol n = some (.bool b)) :
    (symbol n).Decided v := by
  obtain ⟨b, hb⟩ := h
  exact ⟨b, by rw [eval, evalAt, Valuation.read, hb]; rfl⟩

/-- The value of an expression in which none of the symbols occurs is the same under an
extension. -/
theorem eval_of_extends {v w : Valuation} {symbols : List Name} (hw : w.Extends v symbols)
    {e : Expr} (he : ∀ n ∈ symbols, n ∉ e.names) : e.eval w = e.eval v := by
  refine evalAt_congr e .current (fun f _ => congrFun hw.application f) fun r hr => ?_
  cases ht : r.1 with
  | entry => rw [Valuation.read, Valuation.read, hw.onEntry]
  | current =>
    have hn : r.2 ∉ symbols := fun hmem => he r.2 hmem (List.mem_map_of_mem hr)
    rw [Valuation.read, Valuation.read, hw.symbol _ hn]

end Expr

namespace Cmd

variable {cmds : List Cmd} {v w : Valuation}

/-- Decided commands have the same assumptions and assertions under a valuation that gives their
conditions the same values. -/
theorem AllDecided.transfer (h : AllDecided cmds v)
    (heq : ∀ c ∈ cmds, ∀ e, c.condition? = some e → e.eval w = e.eval v) :
    AllDecided cmds w ∧ (AssumptionsHold cmds w ↔ AssumptionsHold cmds v) ∧
      (AssertionsHold cmds w ↔ AssertionsHold cmds v) := by
  have hholds : ∀ c ∈ cmds, ∀ e, c.condition? = some e → (e.Holds w ↔ e.Holds v) := by
    intro c hc e he
    unfold Expr.Holds
    rw [heq c hc e he]
  have hassume : ∀ cmds' ⊆ cmds, AssumptionsHold cmds' w ↔ AssumptionsHold cmds' v :=
    fun cmds' hsub => forall₂_congr fun e he => hholds _ (hsub he) e rfl
  refine ⟨fun c hc => ⟨(h c hc).1, fun e he => ?_⟩, hassume cmds fun _ => id, ?_⟩
  · unfold Expr.Decided
    rw [heq c hc e he]
    exact (h c hc).2 e he
  · refine forall₃_congr fun before a after => forall_congr' fun hsplit => ?_
    rw [hassume before (by simp [hsplit]), hholds (.assert a) (by simp [hsplit]) _ rfl]

end Cmd

namespace Condition

open Implementation

variable {i : Implementation} {v w : Valuation} {order : List Nat}

/-! ## The symbols -/

/-- Symbols are made for the blocks of a list, in order. -/
theorem blockSymbols_eq_ok {ids : List Nat} (h : ∀ id ∈ ids, id < i.blocks.length)
    (taken : List Name) :
    ∃ symbols, blockSymbols i taken ids = .ok symbols ∧ symbols.map (·.1) = ids := by
  induction ids generalizing taken with
  | nil => exact ⟨[], rfl, rfl⟩
  | cons id ids ih =>
    have hb := List.getElem?_eq_getElem (h id List.mem_cons_self)
    obtain ⟨n, hn⟩ : ∃ n : Name, blockSymbols i taken (id :: ids) =
        blockSymbols i (n :: taken) ids >>= fun rest => .ok ((id, n) :: rest) := by
      rw [blockSymbols, blockAt, hb]
      exact ⟨_, rfl⟩
    obtain ⟨symbols, hs, hkeys⟩ := ih (fun id' hid' => h id' (List.mem_cons_of_mem _ hid'))
      (n :: taken)
    exact ⟨(id, n) :: symbols, by rw [hn, hs]; rfl, by rw [List.map_cons, hkeys]⟩

/-- The last symbol made for a block. -/
def symbolOf (symbols : List (Nat × Name)) (id : Nat) : Name :=
  (symbols.reverse.lookup id).getD ⟨""⟩

/-- A block for which a symbol was made has one. -/
theorem lookup_reverse_eq {symbols : List (Nat × Name)} {id : Nat}
    (h : id ∈ symbols.map (·.1)) : symbols.reverse.lookup id = some (symbolOf symbols id) := by
  have hsome : (symbols.reverse.lookup id).isSome = true := by
    rw [List.lookup_isSome_iff]
    obtain ⟨p, hp, hid⟩ := List.mem_map.mp h
    exact ⟨p, List.mem_reverse.2 hp, by simp [hid]⟩
  obtain ⟨n, hn⟩ := Option.isSome_iff_exists.mp hsome
  rw [symbolOf, hn]
  rfl

/-- The table that gives the symbols has the symbol of each block. -/
theorem lookup_map_symbol {symbols : List (Nat × Name)} {id : Nat}
    (h : id ∈ symbols.map (·.1)) :
    List.lookup id (symbols.reverse.map fun (id, n) => (id, Expr.symbol n)) =
      some (.symbol (symbolOf symbols id)) := by
  have hlookup := lookup_reverse_eq h
  -- Both find the same entry, for the keys are the same.
  rw [List.lookup_eq_findSome?] at hlookup ⊢
  rw [List.findSome?_map]
  obtain ⟨l, p, r, hsplit, hp, hl⟩ := List.findSome?_eq_some_iff.1 hlookup
  refine List.findSome?_eq_some_iff.2 ⟨l, p, r, hsplit, ?_, fun q hq => ?_⟩
  · simp only [Option.ite_none_right_eq_some, Option.some.injEq, beq_iff_eq] at hp
    simp [hp.1, hp.2]
  · have := hl q hq
    simpa using this

/-! ## The definitions -/

/-- The condition of a block over the symbols of its successors. -/
def Defines (i : Implementation) (name : Nat → Name) (id : Nat) (e : Expr) : Prop :=
  ∃ b, i.blocks[id]? = some b ∧
    ofCmds b.label (.conjAll (b.successors.map fun next => .symbol (name next))) b.cmds = .ok e

/-- The definitions are made if the table has the symbols of the blocks and of their successors and
each block has a condition. -/
theorem definitions_eq_ok {t : Table} {name : Nat → Name} {body : Nat → Expr} {ids : List Nat}
    (hself : ∀ id ∈ ids, t.lookup id = some (.symbol (name id)))
    (hnext : ∀ id ∈ ids, ∀ next ∈ i.successors id, t.lookup next = some (.symbol (name next)))
    (hbody : ∀ id ∈ ids, Defines i name id (body id)) :
    definitions i t ids = .ok (ids.map fun id => .binary .iff (.symbol (name id)) (body id)) := by
  induction ids with
  | nil => rfl
  | cons id ids ih =>
    have ih := ih (fun id' hid' => hself id' (List.mem_cons_of_mem _ hid'))
      (fun id' hid' => hnext id' (List.mem_cons_of_mem _ hid'))
      (fun id' hid' => hbody id' (List.mem_cons_of_mem _ hid'))
    obtain ⟨b, hb, hcond⟩ := hbody id List.mem_cons_self
    have hsucc : i.successors id = b.successors := by rw [successors, hb]; rfl
    have hpost : b.successors.mapM (t.get i) =
        .ok (b.successors.map fun next => .symbol (name next)) :=
      Table.mapM_get fun next hmem => hnext id List.mem_cons_self next (hsucc ▸ hmem)
    have hn : t.get i id = .ok (.symbol (name id)) := by
      rw [Table.get, hself id List.mem_cons_self]
      rfl
    -- The successors, the symbol of the block, its condition and the other blocks in turn.
    rw [definitions, blockAt, hb]
    change (do let post ← b.successors.mapM (t.get i); _) = _
    rw [hpost]
    change (do let n ← t.get i id; _) = _
    rw [hn]
    change (do let e ← ofCmds b.label _ b.cmds; _) = _
    rw [hcond]
    change (do let rest ← definitions i t ids; _) = _
    rw [ih]
    rfl

/-- The condition of a passive block over the symbols of its successors says, whatever the values of
these, that no assertion of the block fails and that the symbols hold if its assumptions do. -/
theorem exists_defines (ho : i.IsTopologicalOrder order) (name : Nat → Name) {id : Nat}
    (hid : id ∈ order) (h : ∀ c ∈ i.cmdsAt id, c.isPassive = true) :
    ∃ e, Defines i name id e ∧
      ∀ w, Cmd.AllDecided (i.cmdsAt id) w →
        (∀ next ∈ i.successors id, (Expr.symbol (name next)).Decided w) →
        e.Decided w ∧ (e.Holds w ↔ Cmd.AssertionsHold (i.cmdsAt id) w ∧
          (Cmd.AssumptionsHold (i.cmdsAt id) w →
            ∀ next ∈ i.successors id, (Expr.symbol (name next)).Holds w)) := by
  obtain ⟨b, hb⟩ := ho.exists_block hid
  have hcmds : i.cmdsAt id = b.cmds := by rw [cmdsAt, hb]; rfl
  have hsucc : i.successors id = b.successors := by rw [successors, hb]; rfl
  rw [hcmds] at h
  -- What comes after the block is what its successors are, as a list of symbols.
  let post : Expr := .conjAll (b.successors.map fun next => .symbol (name next))
  obtain ⟨e, he, hmeaning⟩ : ∃ e, ofCmds b.label post b.cmds = .ok e ∧ _ := ofCmds_eq_ok b.label h
  refine ⟨e, ⟨b, hb, he⟩, fun w hw hnext => ?_⟩
  rw [hsucc] at hnext
  have hdec : ∀ e ∈ b.successors.map fun next => Expr.symbol (name next), e.Decided w :=
    List.forall_mem_map.2 hnext
  obtain ⟨hd, hh⟩ := hmeaning w (hcmds ▸ hw) (Expr.decided_conjAll hdec)
  refine ⟨hd, ?_⟩
  rw [hh, Expr.holds_conjAll_iff, List.forall_mem_map, hcmds, hsucc]

/-! ## What the symbols say -/

/-- The symbols of the blocks of an order have truth values that make the definitions true. -/
structure Solves (i : Implementation) (order : List Nat) (name : Nat → Name) (w : Valuation) :
    Prop where
  /-- The symbols have truth values. -/
  decided : ∀ id ∈ order, (Expr.symbol (name id)).Decided w
  /-- Each says what its definition says. -/
  holds_iff : ∀ id ∈ order, (Expr.symbol (name id)).Holds w ↔
    Cmd.AssertionsHold (i.cmdsAt id) w ∧ (Cmd.AssumptionsHold (i.cmdsAt id) w →
      ∀ next ∈ i.successors id, (Expr.symbol (name next)).Holds w)

/-- Symbols that make the definitions true say which blocks are safe. -/
theorem holds_symbol_iff_safeFrom (ho : i.IsTopologicalOrder order) {name : Nat → Name}
    (h : ∀ id ∈ order, Cmd.AllDecided (i.cmdsAt id) w) (hw : Solves i order name w) :
    ∀ after before, order = before ++ after →
      ∀ id ∈ after, ((Expr.symbol (name id)).Holds w ↔ i.SafeFrom w id) := by
  intro after
  induction after with
  | nil => simp
  | cons a after ih =>
    intro before hsplit id hid
    have ih := ih (before ++ [a]) (by simpa using hsplit)
    rcases List.mem_cons.mp hid with rfl | hid
    · have hid : id ∈ order := by rw [hsplit]; simp
      -- The successors come later in the order, where the symbols are known to say so.
      have hnext : (∀ next ∈ i.successors id, (Expr.symbol (name next)).Holds w) ↔
          ∀ next ∈ i.successors id, i.SafeFrom w next :=
        forall₂_congr fun next edge =>
          ih next (ho.successors_after before id after hsplit next edge)
      rw [hw.holds_iff id hid, safeFrom_iff ho hid (h id hid), hnext]
    · exact ih id hid

/-- A valuation and an extension by symbols that occur in no condition agree on which blocks are
safe. -/
theorem safeFrom_of_extends (ho : i.IsTopologicalOrder order) {symbols : List Name}
    (hw : w.Extends v symbols) (h : ∀ id ∈ order, Cmd.AllDecided (i.cmdsAt id) v)
    (hfresh : ∀ n ∈ symbols, ∀ id ∈ order, ∀ c ∈ i.cmdsAt id, ∀ e, c.condition? = some e →
      n ∉ e.names) {id : Nat} (hid : id ∈ order) : i.SafeFrom w id ↔ i.SafeFrom v id := by
  refine forall₂_congr fun ids last => forall₂_congr fun hp _ => ?_
  have hids : ∀ id' ∈ ids, id' ∈ order := fun id' hid' =>
    (ho.mem_iff id').2 (hp.reachable ((ho.mem_iff id).1 hid) id' hid')
  -- The commands on the path are those of blocks of the order.
  have hmem : ∀ c ∈ i.cmdsAlong ids, ∃ id' ∈ order, c ∈ i.cmdsAt id' := by
    intro c hc
    obtain ⟨id', hid', hc⟩ := List.mem_flatMap.mp hc
    exact ⟨id', hids id' hid', hc⟩
  have hall : Cmd.AllDecided (i.cmdsAlong ids) v := by
    intro c hc
    obtain ⟨id', hid', hc⟩ := hmem c hc
    exact h id' hid' c hc
  refine (hall.transfer fun c hc e he => Expr.eval_of_extends hw fun n hn => ?_).2.2
  obtain ⟨id', hid', hc⟩ := hmem c hc
  exact hfresh n hn id' hid' c hc e he

/-- The extension in which the symbol of each block says whether the block is safe. -/
noncomputable def safetyValuation (i : Implementation) (order : List Nat) (name : Nat → Name)
    (v : Valuation) : Valuation :=
  open Classical in
  { v with
    symbol n :=
      if n ∈ order.map name then some (.bool (∃ id ∈ order, name id = n ∧ i.SafeFrom v id))
      else v.symbol n }

theorem safetyValuation_extends (i : Implementation) (order : List Nat) (name : Nat → Name)
    (v : Valuation) : (safetyValuation i order name v).Extends v (order.map name) where
  isBool _ hn := ⟨_, if_pos hn⟩
  symbol _ hn := if_neg hn
  onEntry := rfl
  application := rfl

/-- Distinct symbols say in that extension which blocks are safe. -/
theorem holds_symbol_safetyValuation {name : Nat → Name} (hnodup : (order.map name).Nodup)
    {id : Nat} (hid : id ∈ order) :
    (Expr.symbol (name id)).Holds (safetyValuation i order name v) ↔ i.SafeFrom v id := by
  have hmem : name id ∈ order.map name := List.mem_map_of_mem hid
  have hex : (∃ id' ∈ order, name id' = name id ∧ i.SafeFrom v id') ↔ i.SafeFrom v id := by
    constructor
    · rintro ⟨id', hid', hname, hs⟩
      rwa [List.inj_on_of_nodup_map hnodup hid' hid hname] at hs
    · exact fun hs => ⟨id, hid, rfl, hs⟩
  unfold Expr.Holds
  rw [Expr.eval, Expr.evalAt, Valuation.read, safetyValuation]
  simp only [if_pos hmem, Option.elim_some, Except.ok.injEq, Value.bool.injEq,
    decide_eq_true_eq]
  exact hex

/-! ## The two encodings -/

/-- The formula with block variables, taken apart: it says that the symbol of the entry holds if all
definitions do. -/
theorem defined_eq_ok (ho : i.IsTopologicalOrder order)
    (h : ∀ id ∈ order, ∀ c ∈ i.cmdsAt id, c.isPassive = true) :
    ∃ symbols e, blockSymbols i [] order = .ok symbols ∧ symbols.map (·.1) = order ∧
      defined i order symbols = .ok e ∧
      ∀ w, (∀ id ∈ order, Cmd.AllDecided (i.cmdsAt id) w) →
        (∀ id ∈ order, (Expr.symbol (symbolOf symbols id)).Decided w) →
        (e.Holds w ↔ (Solves i order (symbolOf symbols) w →
          (Expr.symbol (symbolOf symbols i.entry)).Holds w)) := by
  obtain ⟨symbols, hs, hkeys⟩ := blockSymbols_eq_ok ho.lt_length []
  have hlookup : ∀ id ∈ order,
      List.lookup id (symbols.reverse.map fun (id, n) => (id, Expr.symbol n)) =
        some (.symbol (symbolOf symbols id)) :=
    fun id hid => lookup_map_symbol (hkeys.symm ▸ hid)
  choose! body hbody hmeaning using
    fun id hid => exists_defines ho (symbolOf symbols) hid (h id hid)
  have hdefs := definitions_eq_ok hlookup
    (fun id hid next edge => hlookup next (ho.successor_mem hid edge)) hbody
  let definition (id : Nat) : Expr := .binary .iff (.symbol (symbolOf symbols id)) (body id)
  refine ⟨symbols, .binary .implies (.conjAll (order.map definition))
    (.symbol (symbolOf symbols i.entry)), hs, hkeys, ?_, fun w hw hsym => ?_⟩
  · have hentry : Table.get i (symbols.reverse.map fun (id, n) => (id, .symbol n)) i.entry =
        .ok (.symbol (symbolOf symbols i.entry)) := by
      rw [Table.get, hlookup _ ho.entry_mem]
      rfl
    rw [defined]
    change (do let ds ← definitions i _ order; _) = _
    rw [hdefs]
    change (do let start ← Table.get i _ i.entry; _) = _
    rw [hentry]
    rfl
  · have hbodies : ∀ id ∈ order, (body id).Decided w ∧ _ := fun id hid =>
      hmeaning id hid w (hw id hid) fun next edge => hsym next (ho.successor_mem hid edge)
    have hdec : ∀ e ∈ order.map definition, e.Decided w :=
      List.forall_mem_map.2 fun id hid => (hsym id hid).iff (hbodies id hid).1
    -- The definitions hold exactly if the symbols solve them.
    have hsolves : (∀ e ∈ order.map definition, e.Holds w) ↔
        Solves i order (symbolOf symbols) w := by
      have hone : ∀ id ∈ order, (definition id).Holds w ↔
          ((Expr.symbol (symbolOf symbols id)).Holds w ↔ (body id).Holds w) :=
        fun id hid => Expr.holds_iff_iff (hsym id hid) (hbodies id hid).1
      rw [List.forall_mem_map]
      constructor
      · exact fun hall => ⟨hsym, fun id hid =>
          ((hone id hid).1 (hall id hid)).trans (hbodies id hid).2⟩
      · exact fun hall id hid =>
          (hone id hid).2 ((hall.holds_iff id hid).trans (hbodies id hid).2.symm)
    rw [Expr.holds_implies_iff (Expr.decided_conjAll hdec) (hsym _ ho.entry_mem),
      Expr.holds_conjAll_iff, hsolves]

/-- The symbols listed with the formula are those of the blocks of the order. -/
theorem filterMap_lookup_reverse {symbols : List (Nat × Name)}
    (h : symbols.map (·.1) = order) :
    (order.filterMap fun id => symbols.reverse.lookup id) = order.map (symbolOf symbols) := by
  rw [← List.filterMap_eq_map]
  exact List.filterMap_congr fun id hid => lookup_reverse_eq (h.symm ▸ hid)

/-- The two encodings of a body are equivalent: where conditions are copied, the formula is true
under a valuation exactly if the formula with block variables is true under every extension that
gives truth values to the block variables, provided that these are distinct and new. -/
theorem encode_inline_iff_blockVariables (i : Implementation) (order : List Nat) (v : Valuation)
    (ho : i.IsTopologicalOrder order)
    (hpassive : ∀ id ∈ order, ∀ c ∈ i.cmdsAt id, c.isPassive = true)
    (hdecided : ∀ id ∈ order, ∀ c ∈ i.cmdsAt id, ∀ e, c.condition? = some e →
      ∃ b, e.eval v = .ok (.bool b)) :
    ∃ f g symbols, (encode i order .inline).outcome = .ok (f, []) ∧
      (encode i order .blockVariables).outcome = .ok (g, symbols) ∧
      (symbols.Nodup →
        (∀ n ∈ symbols, ∀ id ∈ order, ∀ c ∈ i.cmdsAt id, ∀ e, c.condition? = some e →
          n ∉ e.names) →
        (f.eval v = .ok (.bool true) ↔
          ∀ w : Valuation, w.Extends v symbols → g.eval w = .ok (.bool true))) := by
  have h : ∀ id ∈ order, Cmd.AllDecided (i.cmdsAt id) v :=
    fun id hid c hc => ⟨hpassive id hid c hc, hdecided id hid c hc⟩
  obtain ⟨f, hf, -, hinline⟩ := inlined_eq_ok ho h
  obtain ⟨symbols, g, hs, hkeys, hg, hmeaning⟩ := defined_eq_ok ho hpassive
  refine ⟨f, g, order.map (symbolOf symbols), ?_, ?_, fun hnodup hfresh => ?_⟩
  · rw [encode]
    simp only [Minting.outcome_bind]
    change (inlined i order >>= _) = _
    rw [hf]
    rfl
  · rw [encode]
    simp only [Minting.outcome_bind]
    change (blockSymbols i [] order >>= _) = _
    rw [hs]
    change (defined i order symbols >>= _) = _
    rw [hg]
    change Except.ok (g, _) = _
    rw [filterMap_lookup_reverse hkeys]
  · -- Extensions keep the conditions of the blocks as they are.
    have hall : ∀ w : Valuation, w.Extends v (order.map (symbolOf symbols)) →
        ∀ id ∈ order, Cmd.AllDecided (i.cmdsAt id) w := fun w hw id hid =>
      ((h id hid).transfer fun c hc e he =>
        Expr.eval_of_extends hw fun n hn => hfresh n hn id hid c hc e he).1
    have hsym : ∀ w : Valuation, w.Extends v (order.map (symbolOf symbols)) →
        ∀ id ∈ order, (Expr.symbol (symbolOf symbols id)).Decided w := fun w hw id hid =>
      Expr.decided_symbol (hw.isBool _ (List.mem_map_of_mem hid))
    change f.Holds v ↔ ∀ w : Valuation, w.Extends v _ → g.Holds w
    rw [hinline]
    constructor
    · -- Symbols that solve the definitions say which blocks are safe.
      intro hsafe w hw
      rw [hmeaning w (hall w hw) (hsym w hw)]
      intro hsolves
      rw [holds_symbol_iff_safeFrom ho (hall w hw) hsolves order [] rfl _ ho.entry_mem,
        safeFrom_of_extends ho hw h hfresh ho.entry_mem]
      exact hsafe
    · -- Under the extension that tells the safe blocks, the symbols solve the definitions.
      intro hvalid
      have hw := safetyValuation_extends i order (symbolOf symbols) v
      have htell : ∀ id ∈ order, (Expr.symbol (symbolOf symbols id)).Holds
          (safetyValuation i order (symbolOf symbols) v) ↔
          i.SafeFrom (safetyValuation i order (symbolOf symbols) v) id := fun id hid => by
        rw [holds_symbol_safetyValuation hnodup hid, safeFrom_of_extends ho hw h hfresh hid]
      have hsolves : Solves i order (symbolOf symbols)
          (safetyValuation i order (symbolOf symbols) v) := by
        refine ⟨hsym _ hw, fun id hid => ?_⟩
        have hnext := forall₂_congr fun next edge => htell next (ho.successor_mem hid edge)
        rw [htell id hid, hnext, safeFrom_iff ho hid (hall _ hw id hid)]
      have hstart := (hmeaning _ (hall _ hw) (hsym _ hw)).1 (hvalid _ hw) hsolves
      exact (holds_symbol_safetyValuation hnodup ho.entry_mem).1 hstart

theorem encode_inline_iff_blockVariables_diamond :
    diamond.IsTopologicalOrder [0, 1, 2, 3, 4] ∧
      ∃ f g symbols, (encode diamond [0, 1, 2, 3, 4] .inline).outcome = .ok (f, []) ∧
        (encode diamond [0, 1, 2, 3, 4] .blockVariables).outcome = .ok (g, symbols) ∧
        (f.eval diamondValuation = .ok (.bool true) ↔
          ∀ w : Valuation, w.Extends diamondValuation symbols → g.eval w = .ok (.bool true)) := by
  refine ⟨diamond_isTopologicalOrder, ?_⟩
  obtain ⟨f, g, symbols, hf, hg, hiff⟩ := encode_inline_iff_blockVariables diamond [0, 1, 2, 3, 4]
    diamondValuation diamond_isTopologicalOrder
    (fun id hid c hc => (diamond_allDecided id hid c hc).1)
    (fun id hid c hc => (diamond_allDecided id hid c hc).2)
  -- The variables are given by the theorem, and computing the encoding tells which they are.
  have hsymbols : symbols = [⟨"entry_correct"⟩, ⟨"left_correct"⟩, ⟨"right_correct"⟩,
      ⟨"join_correct"⟩, ⟨"exit_correct"⟩] := by
    have hout : ((encode diamond [0, 1, 2, 3, 4] .blockVariables).outcome.map (·.2)) =
        .ok [⟨"entry_correct"⟩, ⟨"left_correct"⟩, ⟨"right_correct"⟩, ⟨"join_correct"⟩,
          ⟨"exit_correct"⟩] := by rfl
    rw [hg] at hout
    exact Except.ok.inj hout
  have hfresh : ∀ n ∈ symbols, ∀ id ∈ [0, 1, 2, 3, 4], ∀ c ∈ diamond.cmdsAt id,
      ∀ e ∈ c.condition?, n ∉ e.names := by
    rw [hsymbols]
    decide
  exact ⟨f, g, symbols, hf, hg, hiff (by rw [hsymbols]; decide) hfresh⟩

end Condition

end Obligations
