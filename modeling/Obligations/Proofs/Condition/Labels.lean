import Mathlib.Data.List.Perm.Subperm
import Obligations.Proofs.Condition.BlockNames
import Obligations.Proofs.Passive.NormalForm
import Obligations.Proofs.Typing.Condition

/-!
# Labels of blocks

The stages that make a body ready make up labels for the blocks that they add: from fixed texts with
counters, from labels of the contract's blocks and from two labels of the body. Whatever the text,
the label is looked up among those of all blocks that there are by then: `freshLabel` gives the text
itself or the text with the least number that no block has (`Implementation.exists_freshLabel`), and
there is such a number because the body has fewer labels than there are candidates. So every stage
only adds labels, and distinct labels stay distinct (`Implementation.AddsLabels`).

Of a body with distinct labels every passive form has distinct labels, and then the block variables
of its condition are the labels of the reachable blocks, each with `_correct` added
(`Implementation.passiveForm_labels`).
-/

namespace Obligations

namespace Implementation

variable {i j k : Implementation} {base : String}

/-- The labels of the blocks, in order of index. -/
def labels (i : Implementation) : List Name := i.blocks.map (·.label)

theorem label?_eq (i : Implementation) (id : Nat) : i.label? id = i.labels[id]? :=
  (List.getElem?_map).symm

/-! ## Fresh labels -/

/-- The candidates for a label are distinct. -/
theorem numbered_injective (base : String) : Function.Injective (numbered base) := by
  -- A number makes the text longer, and numbers are told apart after the last separator.
  have hlength : ∀ n, numbered base 0 ≠ numbered base (n + 1) := by
    intro n heq
    have htext := congrArg (fun l : Name => l.text.toList.length) heq
    simp [numbered, String.toList_append] at htext
  intro m n h
  match m, n, h with
  | 0, 0, _ => rfl
  | 0, n + 1, h => exact absurd h (hlength n)
  | m + 1, 0, h => exact absurd h.symm (hlength m)
  | m + 1, n + 1, h => exact (Name.numbered_injective (k := ⟨base⟩) (l := ⟨base⟩) h).2

theorem findBlock?_isNone {l : Name} : (i.findBlock? l).isNone = true ↔ l ∉ i.labels := by
  unfold findBlock? labels
  rw [Option.isNone_iff_eq_none, List.findIdx?_eq_none_iff]
  simp

/-- Not all candidates are labels: there is one more of them than there are blocks. -/
theorem exists_numbered_not_mem (i : Implementation) (base : String) :
    ∃ n < i.blocks.length + 1, numbered base n ∉ i.labels := by
  by_contra hall
  push Not at hall
  have hnodup : ((List.range (i.blocks.length + 1)).map (numbered base)).Nodup :=
    List.nodup_range.map (numbered_injective base)
  have hsub : (List.range (i.blocks.length + 1)).map (numbered base) ⊆ i.labels := by
    intro l hl
    obtain ⟨n, hn, rfl⟩ := List.mem_map.1 hl
    exact hall n (List.mem_range.1 hn)
  have hle := (hnodup.subperm hsub).length_le
  rw [List.length_map, List.length_range, labels, List.length_map] at hle
  omega

/-- A fresh label is the first candidate that no block has. -/
theorem exists_freshLabel (i : Implementation) (base : String) :
    ∃ n, i.freshLabel base = numbered base n ∧ numbered base n ∉ i.labels ∧
      ∀ m < n, numbered base m ∈ i.labels := by
  unfold freshLabel
  rw [List.find?_map]
  cases hfound : (List.range (i.blocks.length + 1)).find?
      ((fun l => (i.findBlock? l).isNone) ∘ numbered base) with
  | none =>
    obtain ⟨n, hn, hfresh⟩ := i.exists_numbered_not_mem base
    exact absurd (findBlock?_isNone.2 hfresh)
      (List.find?_eq_none.1 hfound n (List.mem_range.2 hn))
  | some n =>
    obtain ⟨hfresh, -, hleast⟩ := List.find?_range_eq_some.1 hfound
    refine ⟨n, rfl, findBlock?_isNone.1 hfresh, fun m hm => ?_⟩
    by_contra hnot
    have hm := hleast m hm
    rw [Function.comp_apply, findBlock?_isNone.2 hnot] at hm
    cases hm

theorem freshLabel_not_mem (i : Implementation) (base : String) :
    i.freshLabel base ∉ i.labels := by
  obtain ⟨n, hn, hfresh, -⟩ := i.exists_freshLabel base
  exact hn ▸ hfresh

/-- A text that no block has for its label is a fresh label itself. -/
theorem freshLabel_eq_self (h : ⟨base⟩ ∉ i.labels) : i.freshLabel base = ⟨base⟩ := by
  obtain ⟨n, hn, -, hleast⟩ := i.exists_freshLabel base
  cases n with
  | zero => exact hn
  | succ n => exact absurd (hleast 0 (Nat.succ_pos n)) h

/-- To any other text the least number is added that makes a label that no block has. -/
theorem exists_freshLabel_numbered (h : ⟨base⟩ ∈ i.labels) :
    ∃ n, 0 < n ∧ i.freshLabel base = ⟨base ++ "_" ++ toString n⟩ ∧
      i.freshLabel base ∉ i.labels ∧
        ∀ m, 0 < m → m < n → ⟨base ++ "_" ++ toString m⟩ ∈ i.labels := by
  obtain ⟨n, hn, hfresh, hleast⟩ := i.exists_freshLabel base
  cases n with
  | zero => exact absurd h hfresh
  | succ n =>
    refine ⟨n + 1, Nat.succ_pos n, hn, i.freshLabel_not_mem base, fun m hpos hm => ?_⟩
    cases m with
    | zero => exact absurd hpos (Nat.lt_irrefl 0)
    | succ m => exact hleast (m + 1) hm

/-! ## Changes of a body -/

/-- The blocks keep their labels, and labels that are added leave distinct labels distinct. -/
structure AddsLabels (i j : Implementation) : Prop where
  /-- The labels that there were come first. -/
  kept : i.labels <+: j.labels
  /-- Distinct labels stay distinct. -/
  nodup : i.labels.Nodup → j.labels.Nodup

theorem AddsLabels.of_eq (h : j.labels = i.labels) : AddsLabels i j :=
  ⟨h ▸ List.prefix_refl _, fun hi => h ▸ hi⟩

theorem AddsLabels.trans (h : AddsLabels i j) (h' : AddsLabels j k) : AddsLabels i k :=
  ⟨h.kept.trans h'.kept, fun hi => h'.nodup (h.nodup hi)⟩

theorem labels_of_outline_eq (h : j.outline = i.outline) : j.labels = i.labels := by
  have hmap := congrArg (List.map (·.label)) h
  unfold outline at hmap
  rwa [List.map_map, List.map_map] at hmap

theorem labels_setTransfer (i : Implementation) (id : Nat) (t : Transfer) :
    (i.setTransfer id t).labels = i.labels := by
  by_cases hid : id < i.blocks.length
  · refine List.ext_getElem? fun p => ?_
    rw [← label?_eq, ← label?_eq, label?, label?, getElem?_setTransfer hid, Option.map_map]
    rfl
  · unfold setTransfer
    rw [if_neg hid]

theorem labels_pushCmd (i : Implementation) (id : Nat) (c : Cmd) :
    (i.pushCmd id c).labels = i.labels :=
  labels_of_outline_eq (outline_modifyBlock i id fun cs => cs ++ [c])

theorem addsLabels_setTransfer (i : Implementation) (id : Nat) (t : Transfer) :
    AddsLabels i (i.setTransfer id t) :=
  .of_eq (labels_setTransfer i id t)

/-- A new block under a fresh label. -/
theorem addsLabels_addBlock (i : Implementation) (base : String) (cmds : List Cmd) :
    AddsLabels i (i.addBlock (i.freshLabel base) cmds) := by
  have hlabels : (i.addBlock (i.freshLabel base) cmds).labels =
      i.labels ++ [i.freshLabel base] := List.map_append
  constructor
  · exact hlabels ▸ List.prefix_append _ _
  · intro hi
    rw [hlabels, List.nodup_append]
    refine ⟨hi, List.nodup_singleton _, fun l hl l' hl' heq => ?_⟩
    rw [List.mem_singleton.1 hl'] at heq
    exact i.freshLabel_not_mem base (heq ▸ hl)

theorem addsLabels_addFreshBlock {ε : Type} {cmds : List Cmd} {id : Nat}
    (h : (i.addFreshBlock base cmds : Minting ε _).outcome = .ok (j, id)) : AddsLabels i j := by
  obtain ⟨rfl, -⟩ := addFreshBlock_eq_ok h
  exact addsLabels_addBlock i base cmds

/-! ## The stages -/

theorem addsLabels_unifyExits {s : SingleExit} (hs : i.unifyExits.outcome = .ok s) :
    AddsLabels i s.body := by
  unfold unifyExits at hs
  split at hs
  · cases hs
  · cases hs
    exact .of_eq rfl
  · obtain ⟨⟨j, exit⟩, hj, hs⟩ := Minting.bind_eq_ok.1 hs
    cases hs
    exact List.foldlRecOn (motive := fun k => AddsLabels i k) _ _ (addsLabels_addFreshBlock hj)
      fun k hk id _ => hk.trans (addsLabels_setTransfer k id _)

theorem addsLabels_splitCriticalEdges {ε : Type}
    (hj : (i.splitCriticalEdges : Minting ε _).outcome = .ok j) : AddsLabels i j := by
  refine Minting.foldlM_induction (fun target _ b c hb hc => ?_) (.of_eq rfl) hj
  refine Minting.foldlM_induction (fun source _ b c hb hc => ?_) hb hc
  split_ifs at hc
  · cases hc
    exact hb
  · obtain ⟨⟨k, middle⟩, hk, hc⟩ := Minting.bind_eq_ok.1 hc
    cases hc
    exact ((hb.trans (addsLabels_addFreshBlock hk)).trans (addsLabels_setTransfer _ _ _)).trans
      (addsLabels_setTransfer _ _ _)

theorem addsLabels_addConditionBlocks : ∀ {bs : List ContractBlock} {i j : Implementation}
    {ids : List Nat}, (addConditionBlocks i bs).outcome = .ok (j, ids) → AddsLabels i j
  | [], _, _, _, hj => by
    cases hj
    exact .of_eq rfl
  | _ :: _, _, _, _, hj => by
    obtain ⟨⟨k, id⟩, hk, hj⟩ := Minting.bind_eq_ok.1 hj
    obtain ⟨⟨l, ids⟩, hl, hj⟩ := Minting.bind_eq_ok.1 hj
    cases hj
    exact (addsLabels_addFreshBlock hk).trans (addsLabels_addConditionBlocks hl)

theorem labels_setConditionExits {ids : List Nat} {continuation : Nat} {s : Splice} :
    ∀ {bs : List (ContractBlock × Nat)} {i j : Implementation},
      setConditionExits ids continuation s i bs = .ok j → j.labels = i.labels
  | [], _, _, hj => by
    cases hj
    rfl
  | (b, id) :: bs, i, _, hj => by
    rw [setConditionExits] at hj
    cases hexit : b.exit with
    | goto targets =>
      simp only [hexit] at hj
      obtain ⟨targets', -, hj⟩ := bind_eq_ok.1 hj
      exact (labels_setConditionExits hj).trans (labels_setTransfer i id _)
    | ret value =>
      simp only [hexit] at hj
      exact (labels_setConditionExits hj).trans
        ((labels_setTransfer _ id _).trans (labels_pushCmd i id _))

theorem addsLabels_threadCondition {insertion continuation : Nat} {bs : List ContractBlock}
    {s : Splice} (hj : (threadCondition i insertion continuation bs s).outcome = .ok j) :
    AddsLabels i j := by
  unfold threadCondition at hj
  obtain ⟨⟨k, ids⟩, hk, hj⟩ := Minting.bind_eq_ok.1 hj
  cases ids with
  | nil => cases hj
  | cons first ids =>
    obtain ⟨l, hl, hj⟩ := Minting.bind_eq_ok.1 hj
    cases hj
    have hexits : AddsLabels k l := .of_eq (labels_setConditionExits hl)
    exact (((addsLabels_addConditionBlocks hk).trans hexits).trans
      (addsLabels_setTransfer _ _ _)).trans (addsLabels_setTransfer _ _ _)

theorem addsLabels_addClause {g g' : Growth} {title : String} {s : Splice} {c : Condition}
    (hg : (g.addClause title s c).outcome = .ok g') : AddsLabels g.body g'.body := by
  cases c with
  | formula e =>
    cases hg
    exact .of_eq (labels_pushCmd _ _ _)
  | blocks bs =>
    rw [Growth.addClause] at hg
    obtain ⟨⟨k, next⟩, hk, hg⟩ := Minting.bind_eq_ok.1 hg
    obtain ⟨l, hl, hg⟩ := Minting.bind_eq_ok.1 hg
    cases hg
    exact (addsLabels_addFreshBlock hk).trans (addsLabels_threadCondition hl)

theorem addsLabels_addClauses {title : String} : ∀ {cs : List (Splice × Condition)}
    {g g' : Growth}, (g.addClauses title cs).outcome = .ok g' → AddsLabels g.body g'.body
  | [], _, _, hg => by
    cases hg
    exact .of_eq rfl
  | (_, _) :: _, _, _, hg => by
    rw [Growth.addClauses] at hg
    obtain ⟨g₁, hg₁, hg⟩ := Minting.bind_eq_ok.1 hg
    exact (addsLabels_addClause hg₁).trans (addsLabels_addClauses hg)

section

variable {p : Program} {q : Procedure}

theorem addsLabels_assertPostconditions {exit exit' : Nat}
    (hj : (assertPostconditions q i exit).outcome = .ok (j, exit')) : AddsLabels i j := by
  obtain ⟨formals, -, hj⟩ := Minting.bind_eq_ok.1 hj
  obtain ⟨g, hg, hj⟩ := Minting.bind_eq_ok.1 hj
  cases hj
  exact addsLabels_addClauses hg

theorem addsLabels_assumePreconditions (hj : (assumePreconditions q i).outcome = .ok j) :
    AddsLabels i j := by
  obtain ⟨formals, -, hj⟩ := Minting.bind_eq_ok.1 hj
  obtain ⟨⟨k, entry⟩, hk, hj⟩ := Minting.bind_eq_ok.1 hj
  obtain ⟨g, hg, hj⟩ := Minting.bind_eq_ok.1 hj
  cases hj
  -- Neither the conditions on the formals nor the entry concern the labels.
  have hadded := addsLabels_addFreshBlock hk
  have hentry : AddsLabels i { k with entry } := ⟨hadded.kept, hadded.nodup⟩
  exact (hentry.trans (addsLabels_addClauses hg)).trans (addsLabels_setTransfer _ _ _)

/-- Making a body ready only adds labels that no block had before. -/
theorem addsLabels_prepare {e : SingleExit} (h : (i.prepare p).outcome = .ok (q, e)) :
    AddsLabels i e.body := by
  obtain ⟨-, -, expanded, unified, asserted, assumed, hexpanded, hunified, hasserted, hassumed, -,
    hbody, -⟩ := prepare_eq_ok.1 h
  have hcalls : AddsLabels i expanded :=
    .of_eq (labels_of_outline_eq (expandCalls_eq_ok hexpanded).1)
  have hcontract : AddsLabels unified.body assumed :=
    (addsLabels_assertPostconditions hasserted).trans (addsLabels_assumePreconditions hassumed)
  exact ((hcalls.trans (addsLabels_unifyExits hunified)).trans hcontract).trans
    (addsLabels_splitCriticalEdges hbody)

/-- A passive body has the labels of the body that was made ready. -/
theorem exists_prepare_of_passiveForm {o : GenerationOptions} {b : PassiveImplementation}
    {l l' : Lexicon} (h : (i.passiveForm p o).run l = (.ok b, l')) :
    ∃ q e, (i.prepare p).outcome = .ok (q, e) ∧ b.body.labels = e.body.labels ∧
      b.body.IsTopologicalOrder b.order := by
  obtain ⟨q, e, hprepare, hpassify⟩ := passiveForm_cases h
  obtain ⟨houtline, -⟩ := Passive.passify_obeys (D := .all) (fun _ _ _ => trivial)
    (fun id => Cmd.obeysAll_all _) hpassify
  have hnormal := Passive.passify_normalForm (prepare_returning hprepare)
    (uncritical_prepare hprepare) hpassify
  exact ⟨q, e, hprepare, labels_of_outline_eq houtline, hnormal.order⟩

end

end Implementation

/-! ## Block variables -/

namespace Condition

open Implementation

variable {i : Implementation} {order : List Nat} {f : Expr} {names : List Name}

/-- Blocks with distinct labels are told apart by them. -/
theorem nodup_map_label? (h : i.labels.Nodup) (horder : order.Nodup)
    (hlt : ∀ id ∈ order, id < i.blocks.length) : (order.map i.label?).Nodup := by
  refine horder.map_on fun a ha b hb heq => ?_
  have hlength : i.labels.length = i.blocks.length := List.length_map _
  rw [label?_eq, label?_eq, List.getElem?_eq_getElem (hlength ▸ hlt a ha),
    List.getElem?_eq_getElem (hlength ▸ hlt b hb)] at heq
  exact (h.getElem_inj_iff).1 (Option.some.inj heq)

/-- Where no two blocks of an order have one label, the block variables are the labels, each with
`_correct` added. -/
theorem mem_blockVariables_iff (h : (encode i order .blockVariables).outcome = .ok (f, names))
    (hlabels : (order.map i.label?).Nodup) (n : Name) :
    n ∈ names ↔ ∃ id ∈ order, ∃ l, i.label? id = some l ∧ n = l.correct := by
  obtain ⟨symbols, hs, -, rfl⟩ := encode_blockVariables_eq_ok.1 h
  rw [map_symbolOf (keys_of_blockSymbols_eq_ok hs) (List.Nodup.of_map _ hlabels),
    (blockSymbols_symbols hs).mem_iff]
  constructor
  · rintro ⟨before, id, after, rfl, hname⟩
    have hmem : id ∈ before ++ id :: after := List.mem_append_right _ List.mem_cons_self
    cases hname with
    | plain hl _ => exact ⟨id, hmem, _, hl, rfl⟩
    | numbered hl taken => exact absurd hlabels (not_taken_of_labels taken id after hl)
  · rintro ⟨id, hid, l, hl, rfl⟩
    obtain ⟨before, after, rfl⟩ := List.append_of_mem hid
    refine ⟨before, id, after, rfl, .plain hl fun taken => ?_⟩
    exact not_taken_of_labels taken id after hl hlabels

/-- The block variables of a condition are those of its formula. -/
theorem blockVariables_of_condition {b : PassiveImplementation} {p : Program}
    {o : GenerationOptions} {l l' : Lexicon} {vc : VerificationCondition}
    (h : (b.condition p o).run l = (.ok vc, l')) :
    ∃ f, (encode b.body b.order o.encoding).outcome = .ok (f, vc.blockVariables) := by
  obtain ⟨⟨f, names⟩, l₁, hencode, h⟩ := NamingExcept.bind_eq_ok.1 h
  rw [Minting.run_record] at hencode
  obtain ⟨l₂, l₃, -, h⟩ := NamingExcept.bind_eq_ok.1 h
  have hclose : closeFormula l₂ p b.body f names = .ok vc := (Prod.ext_iff.1 h).1
  obtain ⟨symbols, -, hclose⟩ := bind_eq_ok.1 hclose
  obtain ⟨functions, -, hclose⟩ := bind_eq_ok.1 hclose
  cases hclose
  exact ⟨f, (Prod.ext_iff.1 hencode).1⟩

/-- Of a body with distinct labels, the block variables are distinct, and they are the
labels of the reachable blocks, each with `_correct` added. -/
theorem blockVariables_eq_labels (horder : i.IsTopologicalOrder order) (hlabels : i.labels.Nodup)
    (h : (encode i order .blockVariables).outcome = .ok (f, names)) :
    names.Nodup ∧ ∀ n, n ∈ names ↔
      ∃ id l, i.Reachable id ∧ i.label? id = some l ∧ n = l.correct := by
  have hdistinct : (order.map i.label?).Nodup :=
    nodup_map_label? hlabels horder.nodup horder.lt_length
  refine ⟨nodup_of_labels h hdistinct, fun n => ?_⟩
  rw [mem_blockVariables_iff h hdistinct]
  constructor
  · rintro ⟨id, hid, l, hl, rfl⟩
    exact ⟨id, l, (horder.mem_iff id).1 hid, hl, rfl⟩
  · rintro ⟨id, l, hid, hl, rfl⟩
    exact ⟨id, (horder.mem_iff id).2 hid, l, hl, rfl⟩

/-- Without block variables the condition declares none. -/
theorem encode_inline_names (h : (encode i order .inline).outcome = .ok (f, names)) : names = [] := by
  obtain ⟨f', -, h⟩ := Minting.bind_eq_ok.1 h
  cases h
  rfl

end Condition

/-! ## Passive forms -/

/-- A fresh label is the text itself where no block has it, and otherwise the text with the least
positive number that no block has. If the labels of a body are distinct, so are those of its passive
form, which come after the ones of the body. The block variables of its condition are then distinct
too: one for each reachable block, its label with `_correct` added. -/
theorem Implementation.passiveForm_labels (i : Implementation) (p : Program)
    (o : GenerationOptions) (l : Lexicon) :
    (∀ base : String,
      (⟨base⟩ ∉ i.labels → i.freshLabel base = ⟨base⟩) ∧
      (⟨base⟩ ∈ i.labels → ∃ n, 0 < n ∧ i.freshLabel base = ⟨base ++ "_" ++ toString n⟩ ∧
        i.freshLabel base ∉ i.labels ∧
          ∀ m, 0 < m → m < n → ⟨base ++ "_" ++ toString m⟩ ∈ i.labels)) ∧
    (i.labels.Nodup → ∀ b l', (i.passiveForm p o).run l = (.ok b, l') →
      i.labels <+: b.body.labels ∧ b.body.labels.Nodup ∧
      ∀ l₁ vc l₂, (b.condition p o).run l₁ = (.ok vc, l₂) →
        (o.encoding = .blockVariables → vc.blockVariables.Nodup ∧
          ∀ n, n ∈ vc.blockVariables ↔ ∃ id label, b.body.Reachable id ∧
            b.body.label? id = some label ∧ n = label.correct) ∧
        (o.encoding = .inline → vc.blockVariables = [])) := by
  refine ⟨fun base => ⟨freshLabel_eq_self, exists_freshLabel_numbered⟩, ?_⟩
  intro hdistinct b l' hb
  obtain ⟨q, e, hprepare, hlabels, horder⟩ := exists_prepare_of_passiveForm hb
  -- Only making the body ready adds blocks.
  have hadded : AddsLabels i e.body := addsLabels_prepare hprepare
  have hnodup : b.body.labels.Nodup := hlabels ▸ hadded.nodup hdistinct
  refine ⟨hlabels ▸ hadded.kept, hnodup, fun l₁ vc l₂ hvc => ?_⟩
  obtain ⟨f, hencode⟩ := Condition.blockVariables_of_condition hvc
  constructor
  · intro hencoding
    rw [hencoding] at hencode
    exact Condition.blockVariables_eq_labels horder hnodup hencode
  · intro hencoding
    rw [hencoding] at hencode
    exact Condition.encode_inline_names hencode

theorem Implementation.passiveForm_labels_skipping :
    ∃ b l vc l₂, (skippingBody.passiveForm skippingProgram {}).run .initial = (.ok b, l) ∧
      (b.condition skippingProgram {}).run l = (.ok vc, l₂) ∧
      skippingBody.labels.Nodup ∧ b.body.labels.Nodup ∧ vc.blockVariables.Nodup ∧
      ∀ n, n ∈ vc.blockVariables ↔ ∃ id label, b.body.Reachable id ∧
        b.body.label? id = some label ∧ n = label.correct := by
  have hdistinct : skippingBody.labels.Nodup := by decide
  -- What the passification and the encoding give is computed for every lexicon, since they name no
  -- function.
  obtain ⟨b, f, names, hb, hf, hdeclared, hfunctions⟩ : ∃ b f names,
      (∀ l, (Passive.passify l true skippingProgram skippingProcedure
        ⟨skippingReadied, 2, []⟩).outcome = .ok b) ∧
      (Condition.encode b.body b.order .blockVariables).outcome = .ok (f, names) ∧
      (f.names.all fun n => (symbolType skippingProgram b.body names n).isOk) = true ∧
      f.functions = [] :=
    ⟨_, _, _, fun l => by cbv, by cbv, by cbv, by cbv⟩
  have htypes : ∀ n ∈ f.names, ∃ ty, symbolType skippingProgram b.body names n = .ok ty := by
    intro n hn
    have hok := List.all_eq_true.1 hdeclared n hn
    cases htype : symbolType skippingProgram b.body names n with
    | ok ty => exact ⟨ty, rfl⟩
    | error err =>
      rw [htype] at hok
      cases hok
  obtain ⟨l, hl⟩ := Implementation.exists_passiveForm (o := {}) .initial prepare_skippingBody hb
  obtain ⟨symbols, functions, hclose⟩ := exists_closeFormula
    ((Condition.encode b.body b.order .blockVariables).names.foldl Lexicon.mention l)
    htypes (fun g hg => absurd (hfunctions ▸ hg) List.not_mem_nil)
  obtain ⟨l₂, hvc⟩ := PassiveImplementation.condition_eq_ok (o := {}) hf hclose
  obtain ⟨-, hnodup, hcondition⟩ :=
    (Implementation.passiveForm_labels _ _ _ _).2 hdistinct b l hl
  obtain ⟨hvariables, hmem⟩ := (hcondition l _ l₂ hvc).1 rfl
  exact ⟨b, l, _, l₂, hl, hvc, hdistinct, hnodup, hvariables, hmem⟩

end Obligations
