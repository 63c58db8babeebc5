import Mathlib.Tactic.Tauto
import Obligations.Proofs.Condition.BlockVariables
import Obligations.Proofs.Name

/-!
# The names of blocks in a formula

The symbol of a block is named for the label of the block, or, if that name is taken, for its label
and its index. The name with the index is not looked up again, and neither of them is looked up
among the names that the body reads. Which names are taken depends on the labels of the blocks
before only (`Condition.Taken`), and this tells for which bodies the symbols are distinct names that
no condition of the body reads (`Condition.blockVariables_unambiguous_iff`). If no two blocks have
one label, the symbols are distinct (`Condition.nodup_of_labels`).

Where the symbols are ambiguous, the definitions of two blocks can contradict each other, and so can
the definition of a block what the block reads. The formula is then true although the body fails:
`Condition.clashing_vacuous` and `Condition.capturing_vacuous` are a body for each case.
-/

namespace Obligations

namespace Name

/-- A label followed by the index of its block. -/
def numbered (label : Name) (id : Nat) : Name := ⟨label.text ++ "_" ++ toString id⟩

/-- The symbol that is named for a label. -/
def correct (label : Name) : Name := ⟨label.text ++ "_correct"⟩

/-- Labels with one symbol are one label. -/
theorem correct_injective : Function.Injective correct := by
  intro k l h
  have htext := congrArg (fun n : Name => n.text.toList) h
  have hlists : k.text.toList ++ "_correct".toList = l.text.toList ++ "_correct".toList := by
    simpa [correct, String.toList_append] using htext
  have hlabel : k.text.toList = l.text.toList := List.append_cancel_right hlists
  cases k
  cases l
  simpa [String.toList_inj] using hlabel

/-- A label with an index tells the label and the index. -/
theorem numbered_injective {k l : Name} {m n : Nat} (h : k.numbered m = l.numbered n) :
    k = l ∧ m = n := by
  have htext := congrArg (fun n : Name => n.text.toList) h
  have hlists : k.text.toList ++ '_' :: Nat.toDigits 10 m =
      l.text.toList ++ '_' :: Nat.toDigits 10 n := by
    simpa [numbered, String.toList_append, Nat.toString_eq_repr, Nat.toList_repr] using htext
  exact eq_of_append_number (by decide) hlists

end Name

namespace Implementation

/-- An assertion or an assumption of the body reads a name. -/
def Reads (i : Implementation) (n : Name) : Prop :=
  ∃ b ∈ i.blocks, ∃ c ∈ b.cmds, ∃ e, c.condition? = some e ∧ n ∈ e.names

end Implementation

/-- Where a list with one more item can be split: where it could without it, and at that item. -/
theorem exists_split_concat_iff {α : Type} {as : List α} {a : α} {P : List α → α → Prop} :
    (∃ before b after, as ++ [a] = before ++ b :: after ∧ P before b) ↔
      (∃ before b after, as = before ++ b :: after ∧ P before b) ∨ P as a := by
  constructor
  · rintro ⟨before, b, after, hsplit, hP⟩
    rcases List.eq_nil_or_concat after with rfl | ⟨after, last, rfl⟩
    · obtain ⟨rfl, hb⟩ := List.append_inj' hsplit rfl
      cases hb
      exact .inr hP
    · rw [List.concat_eq_append, ← List.cons_append, ← List.append_assoc] at hsplit
      obtain ⟨rfl, -⟩ := List.append_inj' hsplit rfl
      exact .inl ⟨before, b, after, rfl, hP⟩
  · rintro (⟨before, b, after, rfl, hP⟩ | hP)
    · exact ⟨before, b, after ++ [a], by simp, hP⟩
    · exact ⟨as, a, [], rfl, hP⟩

namespace Condition

open Implementation

variable {i : Implementation} {order before after : List Nat} {symbols : List (Nat × Name)}

/-- The symbol named for a label is taken once the blocks of a list have theirs: one of them has
that label, or has that label for its own label with its index, because the symbol named for its own
label was taken before. -/
inductive Taken (i : Implementation) : List Nat → Name → Prop where
  /-- A block has the label. -/
  | label {before after : List Nat} {id : Nat} {l : Name} (hl : i.label? id = some l) :
    Taken i (before ++ id :: after) l
  /-- A block whose own label was taken got the name. -/
  | number {before after : List Nat} {id : Nat} {l : Name} (hl : i.label? id = some l)
    (earlier : Taken i before l) : Taken i (before ++ id :: after) (l.numbered id)

/-- The name of the symbol of a block that comes after the blocks of a list. -/
inductive Names (i : Implementation) (before : List Nat) (id : Nat) : Name → Prop where
  /-- A block is named for its label. -/
  | plain {l : Name} (hl : i.label? id = some l) (free : ¬ Taken i before l) :
    Names i before id l.correct
  /-- Where that name is taken, the index is added. -/
  | numbered {l : Name} (hl : i.label? id = some l) (taken : Taken i before l) :
    Names i before id (l.numbered id).correct

/-! ## Which names are taken -/

/-- No name is taken before the first block. -/
theorem not_taken_nil {l : Name} : ¬ Taken i [] l := by
  intro h
  generalize hlist : ([] : List Nat) = list at h
  cases h <;> simp at hlist

/-- The name is taken at some block, for its label or for its label with its index. -/
theorem taken_iff {l : Name} :
    Taken i order l ↔ ∃ before id after, order = before ++ id :: after ∧
      ∃ k, i.label? id = some k ∧ (l = k ∨ Taken i before k ∧ l = k.numbered id) := by
  constructor
  · intro h
    cases h with
    | label hl => exact ⟨_, _, _, rfl, _, hl, .inl rfl⟩
    | number hl earlier => exact ⟨_, _, _, rfl, _, hl, .inr ⟨earlier, rfl⟩⟩
  · rintro ⟨before, id, after, rfl, k, hk, rfl | ⟨earlier, rfl⟩⟩
    · exact .label hk
    · exact .number hk earlier

/-- What is taken after one more block: what was, the label of the block and, if that was taken,
the label with the index. -/
theorem taken_concat_iff {id : Nat} {k l : Name} (hk : i.label? id = some k) :
    Taken i (before ++ [id]) l ↔
      Taken i before l ∨ l = k ∨ (Taken i before k ∧ l = k.numbered id) := by
  have hlabel : ∀ P : Name → Prop, (∃ k', i.label? id = some k' ∧ P k') ↔ P k := by
    intro P
    simp [hk]
  rw [taken_iff, exists_split_concat_iff, ← taken_iff, hlabel]

/-- The label with the index of a block that does not come before is taken only as the label of a
block. -/
theorem taken_numbered_iff {id : Nat} {l : Name} (hid : id ∉ before) :
    Taken i before (l.numbered id) ↔ ∃ k ∈ before, i.label? k = some (l.numbered id) := by
  constructor
  · intro h
    generalize hname : l.numbered id = name at h
    cases h with
    | label hl => exact ⟨_, by simp, hl⟩
    | number hl earlier =>
      obtain ⟨-, rfl⟩ := Name.numbered_injective hname
      exact absurd (by simp) hid
  · rintro ⟨k, hk, hl⟩
    obtain ⟨b, a, rfl⟩ := List.append_of_mem hk
    exact .label hl

/-! ## The symbols that are made -/

/-- The block of an index is the one that the body has there. -/
theorem blockAt_eq_ok {id : Nat} {b : Block} : blockAt i id = .ok b ↔ i.blocks[id]? = some b := by
  unfold blockAt
  cases i.blocks[id]? <;> simp

/-- The symbols of the blocks of a list and of one more block after them. -/
theorem blockSymbols_concat_eq_ok {taken : List Name} {ids : List Nat} {id : Nat}
    (h : blockSymbols i taken (ids ++ [id]) = .ok symbols) :
    ∃ earlier l n, blockSymbols i taken ids = .ok earlier ∧ symbols = earlier ++ [(id, n)] ∧
      i.label? id = some l ∧
      ((l.correct ∈ earlier.map (·.2) ∨ l.correct ∈ taken) ∧ n = (l.numbered id).correct ∨
        ¬ (l.correct ∈ earlier.map (·.2) ∨ l.correct ∈ taken) ∧ n = l.correct) := by
  induction ids generalizing taken symbols with
  | nil =>
    rw [List.nil_append, blockSymbols] at h
    obtain ⟨b, hb, h⟩ := bind_eq_ok.1 h
    have hlabel : i.label? id = some b.label := by
      rw [label?, blockAt_eq_ok.1 hb]
      rfl
    cases h
    refine ⟨[], b.label, _, rfl, rfl, hlabel, ?_⟩
    by_cases htaken : b.label.correct ∈ taken
    · exact .inl ⟨.inr htaken, if_pos htaken⟩
    · exact .inr ⟨by simpa using htaken, if_neg htaken⟩
  | cons k ids ih =>
    rw [List.cons_append, blockSymbols] at h
    obtain ⟨b, hb, h⟩ := bind_eq_ok.1 h
    obtain ⟨rest, hrest, h⟩ := bind_eq_ok.1 h
    cases h
    obtain ⟨earlier, l, n, hearlier, rfl, hl, hn⟩ := ih hrest
    -- What the first block takes is the first of what the blocks before the last one take.
    refine ⟨_ :: earlier, l, n, ?_, rfl, hl, ?_⟩
    · rw [blockSymbols, hb]
      change (do let rest ← blockSymbols i _ ids; _) = _
      rw [hearlier]
      rfl
    · simpa only [List.map_cons, List.mem_cons, or_assoc, or_left_comm] using hn

/-- What is known of the symbols that the blocks of an order get. -/
structure Symbols (i : Implementation) (order : List Nat) (names : List Name) : Prop where
  /-- Each is the name of a block after the blocks before it. -/
  mem_iff : ∀ n, n ∈ names ↔
    ∃ before id after, order = before ++ id :: after ∧ Names i before id n
  /-- The names of labels among them are the ones taken. -/
  taken_iff : ∀ l : Name, l.correct ∈ names ↔ Taken i order l
  /-- One occurs twice if a label and the label with the index are both taken. -/
  not_nodup_iff : ¬ names.Nodup ↔ ∃ before id after, order = before ++ id :: after ∧
    ∃ l, i.label? id = some l ∧ Taken i before l ∧ Taken i before (l.numbered id)

/-- One more block gets one more symbol: its own name if that is free, the name with its index
otherwise. -/
theorem Symbols.concat {names : List Name} {id : Nat} {l n : Name} (h : Symbols i order names)
    (hl : i.label? id = some l)
    (hn : l.correct ∈ names ∧ n = (l.numbered id).correct ∨ l.correct ∉ names ∧ n = l.correct) :
    Symbols i (order ++ [id]) (names ++ [n]) := by
  have hlabel : ∀ P : Name → Prop, (∃ k, i.label? id = some k ∧ P k) ↔ P l := by
    intro P
    simp [hl]
  have hcorrect : ∀ k m : Name, k.correct = m.correct ↔ k = m := fun _ _ =>
    Name.correct_injective.eq_iff
  rw [h.taken_iff] at hn
  have hnames : ∀ m, m = n ↔ Names i order id m := by
    intro m
    constructor
    · rintro rfl
      rcases hn with ⟨htaken, rfl⟩ | ⟨hfree, rfl⟩
      · exact .numbered hl htaken
      · exact .plain hl hfree
    · rintro (⟨hk, hfree⟩ | ⟨hk, htaken⟩)
      · obtain rfl := Option.some.inj (hk.symm.trans hl)
        exact (hn.resolve_left fun hn => hfree hn.1).2.symm
      · obtain rfl := Option.some.inj (hk.symm.trans hl)
        exact (hn.resolve_right fun hn => hn.1 htaken).2.symm
  -- The new symbol repeats one exactly if it is the name with the index and that was taken.
  have hrepeats : n ∈ names ↔ Taken i order l ∧ Taken i order (l.numbered id) := by
    rcases hn with ⟨htaken, rfl⟩ | ⟨hfree, rfl⟩
    · rw [h.taken_iff]
      exact (and_iff_right htaken).symm
    · rw [h.taken_iff]
      exact iff_of_false hfree fun hboth => hfree hboth.1
  refine ⟨fun m => ?_, fun k => ?_, ?_⟩
  · rw [exists_split_concat_iff, ← h.mem_iff, ← hnames]
    simp
  · rw [taken_concat_iff hl, List.mem_append, h.taken_iff, List.mem_singleton]
    rcases hn with ⟨htaken, rfl⟩ | ⟨hfree, rfl⟩
    · -- A block whose label is taken takes no label but the one with its index.
      have hown : k = l → Taken i order k := fun hk => hk ▸ htaken
      rw [hcorrect]
      tauto
    · rw [hcorrect]
      tauto
  · rw [exists_split_concat_iff, ← h.not_nodup_iff, hlabel, ← hrepeats, List.nodup_append]
    simp only [List.nodup_singleton, List.mem_singleton, true_and, forall_eq]
    by_cases hnodup : names.Nodup
    · simp only [hnodup, true_and, not_true_eq_false, false_or, not_forall, not_not]
      constructor
      · rintro ⟨m, hm, rfl⟩
        exact hm
      · exact fun hmem => ⟨n, hmem, rfl⟩
    · simp [hnodup]

/-- The symbols that the blocks of an order get. -/
theorem blockSymbols_symbols (h : blockSymbols i [] order = .ok symbols) :
    Symbols i order (symbols.map (·.2)) := by
  induction order using List.reverseRecOn generalizing symbols with
  | nil =>
    cases h
    exact ⟨by simp, fun l => iff_of_false (by simp) not_taken_nil, by simp⟩
  | append_singleton before id ih =>
    obtain ⟨earlier, l, n, hearlier, rfl, hl, hn⟩ := blockSymbols_concat_eq_ok h
    simp only [List.not_mem_nil, or_false] at hn
    rw [List.map_append]
    exact (ih hearlier).concat hl hn

/-- The blocks that get symbols are those of the order. -/
theorem keys_of_blockSymbols_eq_ok (h : blockSymbols i [] order = .ok symbols) :
    symbols.map (·.1) = order := by
  induction order using List.reverseRecOn generalizing symbols with
  | nil =>
    cases h
    rfl
  | append_singleton before id ih =>
    obtain ⟨earlier, l, n, hearlier, rfl, -, -⟩ := blockSymbols_concat_eq_ok h
    rw [List.map_append, ih hearlier]
    rfl

/-- Of an order without repetitions the symbols are listed as they are made. -/
theorem map_symbolOf (hkeys : symbols.map (·.1) = order) (hnodup : order.Nodup) :
    order.map (symbolOf symbols) = symbols.map (·.2) := by
  rw [← hkeys, List.map_map]
  refine List.map_congr_left fun p hp => ?_
  obtain ⟨after, before, hsplit⟩ := List.append_of_mem (List.mem_reverse.2 hp)
  have hreverse : (symbols.reverse.map (·.1)).Nodup := by
    rw [List.map_reverse, List.nodup_reverse, hkeys]
    exact hnodup
  rw [hsplit, List.map_append, List.map_cons, List.nodup_append] at hreverse
  have hlookup : symbols.reverse.lookup p.1 = some p.2 := by
    refine List.lookup_eq_some_iff.2 ⟨after, before, hsplit, fun q hq => ?_⟩
    have hne := hreverse.2.2 _ (List.mem_map_of_mem hq) _ List.mem_cons_self
    simpa using fun h => hne h.symm
  rw [Function.comp_apply, symbolOf, hlookup]
  rfl

/-- The formula with block variables, taken apart. -/
theorem encode_blockVariables_eq_ok {f : Expr} {names : List Name} :
    (encode i order .blockVariables).outcome = .ok (f, names) ↔
      ∃ symbols, blockSymbols i [] order = .ok symbols ∧ defined i order symbols = .ok f ∧
        order.map (symbolOf symbols) = names := by
  rw [encode, Minting.bind_eq_ok]
  refine exists_congr fun symbols => and_congr_right fun hs => ?_
  rw [← filterMap_lookup_reverse (keys_of_blockSymbols_eq_ok hs), Minting.bind_eq_ok]
  constructor
  · rintro ⟨-, -, h⟩
    obtain ⟨e, he, h⟩ := Minting.bind_eq_ok.1 h
    cases h
    exact ⟨he, rfl⟩
  · rintro ⟨hdefined, rfl⟩
    exact ⟨(), rfl, Minting.bind_eq_ok.2 ⟨f, hdefined, rfl⟩⟩

/-- If no two blocks of an order have one label, no label is taken when its block gets a symbol. -/
theorem not_taken_of_labels {l : Name} (h : Taken i before l) :
    ∀ id after, i.label? id = some l → ¬ ((before ++ id :: after).map i.label?).Nodup := by
  induction h with
  | @label earlier between k l hk =>
    intro id after hid hnodup
    rw [List.map_append, List.nodup_append] at hnodup
    have hmem : k ∈ earlier ++ k :: between := List.mem_append_right _ List.mem_cons_self
    exact hnodup.2.2 _ (List.mem_map_of_mem hmem) _ List.mem_cons_self (hk.trans hid.symm)
  | @number earlier between k l hk _ ih =>
    intro id after _ hnodup
    refine ih k (between ++ id :: after) hk ?_
    rwa [List.append_assoc, List.cons_append] at hnodup

/-- The block variables of a formula are distinct if no two blocks have one label. -/
theorem nodup_of_labels {f : Expr} {names : List Name}
    (h : (encode i order .blockVariables).outcome = .ok (f, names))
    (hlabels : (order.map i.label?).Nodup) : names.Nodup := by
  obtain ⟨symbols, hs, -, rfl⟩ := encode_blockVariables_eq_ok.1 h
  rw [map_symbolOf (keys_of_blockSymbols_eq_ok hs) (List.Nodup.of_map _ hlabels)]
  by_contra hrepeats
  obtain ⟨before, id, after, rfl, l, hl, htaken, -⟩ :=
    (blockSymbols_symbols hs).not_nodup_iff.1 hrepeats
  exact not_taken_of_labels htaken id after hl hlabels

/-- The block variables of a formula are distinct names that no assertion or assumption of the body
reads exactly if the order has no repetition and the name that each block gets is unambiguous: for a
block whose label is taken, no block before it has the label with the index for its own label, and
in either case the body does not read the name. -/
theorem blockVariables_unambiguous_iff (i : Implementation) (order : List Nat) (f : Expr)
    (names : List Name) (h : (encode i order .blockVariables).outcome = .ok (f, names)) :
    (names.Nodup ∧ ∀ n ∈ names, ¬ i.Reads n) ↔
      order.Nodup ∧ ∀ before id after l, order = before ++ id :: after → i.label? id = some l →
        (Taken i before l → (∀ k ∈ before, i.label? k ≠ some (l.numbered id)) ∧
          ¬ i.Reads (l.numbered id).correct) ∧
        (¬ Taken i before l → ¬ i.Reads l.correct) := by
  obtain ⟨symbols, hs, -, rfl⟩ := encode_blockVariables_eq_ok.1 h
  have hsymbols := blockSymbols_symbols hs
  have hkeys := keys_of_blockSymbols_eq_ok hs
  -- A block that the order lists twice is named twice, so then both sides fail.
  by_cases hnodup : order.Nodup
  swap
  · exact iff_of_false (fun hnames => hnodup (List.Nodup.of_map _ hnames.1)) fun h => hnodup h.1
  rw [map_symbolOf hkeys hnodup, and_iff_right hnodup]
  -- Without repetition a block does not come before itself.
  have hfresh : ∀ before id after, order = before ++ id :: after → id ∉ before := by
    rintro before id after rfl hid
    exact (List.nodup_append.1 hnodup).2.2 id hid id List.mem_cons_self rfl
  constructor
  · rintro ⟨hdistinct, hunread⟩ before id after l hsplit hl
    have hname : ∀ n, Names i before id n → ¬ i.Reads n := fun n hn =>
      hunread n ((hsymbols.mem_iff n).2 ⟨before, id, after, hsplit, hn⟩)
    refine ⟨fun htaken => ⟨fun k hk hlabel => ?_, hname _ (.numbered hl htaken)⟩,
      fun hfree => hname _ (.plain hl hfree)⟩
    have hclash : Taken i before (l.numbered id) :=
      (taken_numbered_iff (hfresh before id after hsplit)).2 ⟨k, hk, hlabel⟩
    exact hsymbols.not_nodup_iff.2 ⟨before, id, after, hsplit, l, hl, htaken, hclash⟩ hdistinct
  · intro hblocks
    constructor
    · by_contra hrepeats
      obtain ⟨before, id, after, hsplit, l, hl, htaken, hclash⟩ :=
        hsymbols.not_nodup_iff.1 hrepeats
      obtain ⟨k, hk, hlabel⟩ := (taken_numbered_iff (hfresh before id after hsplit)).1 hclash
      exact ((hblocks before id after l hsplit hl).1 htaken).1 k hk hlabel
    · intro n hn
      obtain ⟨before, id, after, hsplit, hname⟩ := (hsymbols.mem_iff n).1 hn
      cases hname with
      | plain hl hfree => exact (hblocks before id after _ hsplit hl).2 hfree
      | numbered hl htaken => exact ((hblocks before id after _ hsplit hl).1 htaken).2

/-- Two blocks with the label `A`, the second of which is named like the block `A_3`, and fails. -/
def clashing : Implementation where
  name := ⟨"P"⟩
  inputs := []
  outputs := []
  locals := []
  attributes := []
  entry := 0
  blocks :=
    [⟨⟨"entry"⟩, [], [], .goto [1, 2, 3]⟩,
     ⟨⟨"A_3"⟩, [], [0], .goto [4]⟩,
     ⟨⟨"A"⟩, [], [0], .goto [4]⟩,
     ⟨⟨"A"⟩, [.assert ⟨.bool false, .plain, none, none⟩], [0], .goto [4]⟩,
     ⟨⟨"exit"⟩, [], [1, 2, 3], .ret⟩]

/-- A block whose own symbol is the variable that it asserts to be false. -/
def capturing : Implementation where
  name := ⟨"P"⟩
  inputs := [⟨⟨"entry_correct"⟩, .bool, none, .input⟩]
  outputs := []
  locals := []
  attributes := []
  entry := 0
  blocks :=
    [⟨⟨"entry"⟩, [.assert ⟨.unary .not (.symbol ⟨"entry_correct"⟩), .plain, none, none⟩], [], .ret⟩]

/-- The second block `A` gets the name that the block `A_3` has. -/
theorem blockVariables_unambiguous_iff_clashing :
    ∃ f names, (encode clashing [0, 1, 2, 3, 4] .blockVariables).outcome = .ok (f, names) ∧
      ¬ (names.Nodup ∧ ∀ n ∈ names, ¬ clashing.Reads n) := by
  refine ⟨_, _, rfl, ?_⟩
  rw [blockVariables_unambiguous_iff clashing [0, 1, 2, 3, 4] _ _ rfl]
  rintro ⟨-, hblocks⟩
  have htaken : Taken clashing [0, 1, 2] ⟨"A"⟩ := taken_iff.2 ⟨[0, 1], 2, [], rfl, _, rfl, .inl rfl⟩
  exact ((hblocks [0, 1, 2] 3 [4] ⟨"A"⟩ rfl rfl).1 htaken).1 1 (by decide) rfl

theorem clashing_isTopologicalOrder : clashing.IsTopologicalOrder [0, 1, 2, 3, 4] :=
  isTopologicalOrder (by cbv) (by decide)

theorem clashing_literals : ∀ id ∈ [0, 1, 2, 3, 4], ∀ c ∈ clashing.cmdsAt id,
    c = .assert ⟨.bool false, .plain, none, none⟩ := by
  simp [cmdsAt, clashing]

/-- The definitions of the two blocks with one name contradict each other: as the block `A_3`, which
does not fail, is safe, so is the second block `A`, which fails. -/
theorem clashing_vacuous :
    ∃ f g names, (encode clashing [0, 1, 2, 3, 4] .inline).outcome = .ok (f, []) ∧
      (encode clashing [0, 1, 2, 3, 4] .blockVariables).outcome = .ok (g, names) ∧
      ¬ names.Nodup ∧ (∀ v, ¬ f.Holds v) ∧
      ∀ w : Valuation, (∀ n ∈ names, ∃ b, w.symbol n = some (.bool b)) → g.Holds w := by
  have hpassive : ∀ id ∈ [0, 1, 2, 3, 4], ∀ c ∈ clashing.cmdsAt id, c.isPassive = true :=
    fun id hid c hc => by rw [clashing_literals id hid c hc]; rfl
  have hdecided : ∀ (w : Valuation), ∀ id ∈ [0, 1, 2, 3, 4],
      Cmd.AllDecided (clashing.cmdsAt id) w := by
    intro w id hid c hc
    rw [clashing_literals id hid c hc]
    exact ⟨rfl, fun e he => by cases he; exact Expr.decided_bool false⟩
  obtain ⟨symbols, g, hs, hkeys, hg, hmeaning⟩ :=
    defined_eq_ok clashing_isTopologicalOrder hpassive
  have hsymbols : symbols = [(0, ⟨"entry_correct"⟩), (1, ⟨"A_3_correct"⟩), (2, ⟨"A_correct"⟩),
      (3, ⟨"A_3_correct"⟩), (4, ⟨"exit_correct"⟩)] :=
    Except.ok.inj (hs.symm.trans rfl)
  refine ⟨.bool false, g, _, rfl, encode_blockVariables_eq_ok.2 ⟨symbols, hs, hg, rfl⟩, ?_, ?_, ?_⟩
  · rw [hsymbols]
    decide
  · intro v hv
    cases hv
  · intro w hw
    have hsym : ∀ id ∈ [0, 1, 2, 3, 4], (Expr.symbol (symbolOf symbols id)).Decided w :=
      fun id hid => Expr.decided_symbol (hw _ (List.mem_map_of_mem hid))
    rw [hmeaning w (hdecided w) hsym]
    intro hsolves
    exfalso
    -- The exit asserts nothing, so its symbol holds, and with it that of the block leading there.
    have hexit : (Expr.symbol (symbolOf symbols 4)).Holds w := by
      rw [hsolves.holds_iff 4 (by decide)]
      refine ⟨Cmd.assertionsHold_nil, fun _ next edge => ?_⟩
      cases edge
    have hshort : (Expr.symbol (symbolOf symbols 1)).Holds w := by
      rw [hsolves.holds_iff 1 (by decide)]
      refine ⟨Cmd.assertionsHold_nil, fun _ => ?_⟩
      simpa [successors, clashing, Block.successors, Transfer.targets] using hexit
    have hfail : ¬ (Expr.symbol (symbolOf symbols 3)).Holds w := by
      rw [hsolves.holds_iff 3 (by decide)]
      rintro ⟨hassertions, -⟩
      have hfalse : (Expr.bool false).Holds w :=
        hassertions [] ⟨.bool false, .plain, none, none⟩ [] rfl fun _ => List.not_mem_nil.elim
      cases hfalse
    have hname : symbolOf symbols 3 = symbolOf symbols 1 := by
      rw [hsymbols]
      rfl
    exact hfail (hname ▸ hshort)

/-- The definition of the block contradicts itself: the block is safe exactly if it is not. -/
theorem capturing_vacuous :
    ∃ f g names, (encode capturing [0] .inline).outcome = .ok (f, []) ∧
      (encode capturing [0] .blockVariables).outcome = .ok (g, names) ∧
      (∃ n ∈ names, capturing.Reads n) ∧ (∃ v, ¬ f.Holds v) ∧
      ∀ w : Valuation, (∀ n ∈ names, ∃ b, w.symbol n = some (.bool b)) → g.Holds w := by
  let own : Expr := .symbol ⟨"entry_correct"⟩
  refine ⟨.unary .not own, .binary .implies (.binary .iff own (.unary .not own)) own,
    [⟨"entry_correct"⟩], rfl, rfl, ⟨⟨"entry_correct"⟩, List.mem_singleton_self _, ?_⟩, ?_, ?_⟩
  · exact ⟨_, List.mem_cons_self, _, List.mem_cons_self, _, rfl, List.mem_cons_self⟩
  · refine ⟨⟨fun _ => some (.bool true), fun _ => none, fun _ _ => none⟩, ?_⟩
    intro hv
    cases hv
  · intro w hw
    obtain ⟨b, hb⟩ := hw _ List.mem_cons_self
    have hown : own.evalAt w .current = .ok (.bool b) := by
      simp only [own, Expr.evalAt, Valuation.read, hb]
      rfl
    unfold Expr.Holds Expr.eval
    simp only [Expr.evalAt, hown]
    cases b <;> rfl

end Condition

end Obligations
