import Obligations.Proofs.Solver.Reading

/-!
# The language of S-expressions

Which texts are read at all, and what is read of a text that was printed. `Splits` says of a text that
it can be cut into blanks, comments, parentheses, strings, symbols between bars and bare atoms, so that
every parenthesis that is closed was open and none stays open; where a text can be cut in several ways,
as between two quotes, it does not matter which is chosen. A text is read exactly if it splits
(`exists_readAll_iff`). `Printed` relates tokens to their texts with separators between them, which are
read as these tokens (`Printed.layout`). `readAll_language` puts these together with the law that two
texts one after the other, with a line feed between them, are read one after the other.
-/

namespace Obligations.Solver

variable {c : Char} {cs g rest : List Char} {t : Token} {ts : List Token} {m : Mode}
  {depth : Nat} {outer : List (List SExpr)} {items es : List SExpr}

/-- The text can be cut into blanks, comments, parentheses, strings, symbols between bars and bare
atoms, where `depth` lists are open at its beginning and none at its end. A comment lasts to the end
of a line or of the text. -/
inductive Splits : Nat → List Char → Prop where
  | nil : Splits 0 []
  | lastComment {line : List Char} : '\n' ∉ line → Splits 0 (';' :: line)
  | comment {depth : Nat} {line rest : List Char} : '\n' ∉ line → Splits depth rest →
    Splits depth (';' :: (line ++ '\n' :: rest))
  | blank {depth : Nat} {c : Char} {rest : List Char} : Text.isBlank c = true → Splits depth rest →
    Splits depth (c :: rest)
  | opening {depth : Nat} {rest : List Char} : Splits (depth + 1) rest → Splits depth ('(' :: rest)
  | closing {depth : Nat} {rest : List Char} : Splits depth rest → Splits (depth + 1) (')' :: rest)
  | string {depth : Nat} {cs rest : List Char} : Splits depth rest →
    Splits depth ('"' :: (doubled cs ++ '"' :: rest))
  | bars {depth : Nat} {cs rest : List Char} : '|' ∉ cs → Splits depth rest →
    Splits depth ('|' :: (cs ++ '|' :: rest))
  | bare {depth : Nat} {cs rest : List Char} : cs ≠ [] → (∀ c ∈ cs, isDelimiter c = false) →
    Splits depth rest → Splits depth (cs ++ rest)

/-- How a token is printed. An atom stands bare only if it has characters, none of which would end
it. -/
inductive Spelled : Token → List Char → Prop where
  | opening : Spelled .opening ['(']
  | closing : Spelled .closing [')']
  | bare {cs : List Char} : cs ≠ [] → (∀ c ∈ cs, isDelimiter c = false) →
    Spelled (.leaf (.atom (.ofList cs))) cs
  | bars {cs : List Char} : '|' ∉ cs → Spelled (.leaf (.atom (.ofList cs))) ('|' :: (cs ++ ['|']))
  | string {cs : List Char} : Spelled (.leaf (.string (.ofList cs))) ('"' :: (doubled cs ++ ['"']))

/-- Tokens are printed one after another, with at least one blank or comment between each two, and any
number of them before and after. -/
inductive Printed : List Token → List Char → Prop where
  | nil : Printed [] []
  | last {t : Token} {cs : List Char} : Spelled t cs → Printed [t] cs
  | token {t : Token} {ts : List Token} {cs g rest : List Char} :
    Spelled t cs → Gap g → g ≠ [] → Printed ts rest → Printed (t :: ts) (cs ++ (g ++ rest))
  | gap {ts : List Token} {g rest : List Char} : Gap g → Printed ts rest → Printed ts (g ++ rest)

/-! ## Texts that are read -/

/-- Tokens are put together when so many lists are open. -/
def Assembles (depth : Nat) (ts : List Token) : Prop :=
  ∀ outer items, outer.length = depth → ∃ es, assemble outer items ts = .ok es

theorem Assembles.nil : Assembles 0 [] := by
  intro outer items hdepth
  rw [List.length_eq_zero_iff.1 hdepth]
  exact ⟨_, rfl⟩

theorem Assembles.leaf {e : SExpr} (h : Assembles depth ts) : Assembles depth (.leaf e :: ts) :=
  fun outer items hdepth => h outer (e :: items) hdepth

theorem Assembles.opening (h : Assembles (depth + 1) ts) : Assembles depth (.opening :: ts) :=
  fun outer items hdepth => h (items :: outer) [] (congrArg Nat.succ hdepth)

theorem Assembles.closing (h : Assembles depth ts) : Assembles (depth + 1) (.closing :: ts) := by
  intro outer items hdepth
  obtain ⟨around, outer, rfl⟩ := List.exists_cons_of_length_eq_add_one hdepth
  exact h outer _ (Nat.succ.inj hdepth)

/-- The automaton stands in a mode in which the text may end or go on with another part. -/
inductive Rests : Mode → Prop where
  | between : Rests .between
  | atom (read : List Char) : Rests (.atom read)
  | quote (read : List Char) : Rests (.quote read)

/-- A character that is neither a quote nor part of an atom completes what has been begun. -/
theorem assembles_of_rests (hm : Rests m) (hc : isDelimiter c = true) (hquote : c ≠ '"')
    (h : Assembles depth (tokens .between (c :: cs))) : Assembles depth (tokens m (c :: cs)) := by
  cases hm with
  | between => exact h
  | atom read =>
    rw [tokens_atom_of_isDelimiter hc]
    exact h.leaf
  | quote read =>
    rw [tokens_quote_of_ne hquote]
    exact h.leaf

/-- A string is read in every such mode; after another string it is part of that. -/
theorem assembles_string (hm : Rests m) (h : ∀ m', Rests m' → Assembles depth (tokens m' rest)) :
    Assembles depth (tokens m ('"' :: (doubled cs ++ '"' :: rest))) := by
  have hstring (read : List Char) :
      Assembles depth (tokens (.string read) (doubled cs ++ '"' :: rest)) := by
    rw [tokens_string_append]
    exact h _ (.quote _)
  cases hm with
  | between => exact hstring []
  | atom read =>
    rw [tokens_atom_of_isDelimiter rfl]
    exact (hstring []).leaf
  | quote read =>
    -- The quote before and this one are a doubled quote, and the string goes on.
    exact hstring ('"' :: read)

/-- An atom that stands right after another one is part of it. -/
theorem assembles_bare (hm : Rests m) (hne : cs ≠ []) (hcs : ∀ c ∈ cs, isDelimiter c = false)
    (h : ∀ m', Rests m' → Assembles depth (tokens m' rest)) :
    Assembles depth (tokens m (cs ++ rest)) := by
  have hatom (read : List Char) : Assembles depth (tokens (.atom read) (cs ++ rest)) := by
    rw [tokens_atom_append hcs]
    exact h _ (.atom _)
  obtain ⟨c, cs, rfl⟩ := List.exists_cons_of_ne_nil hne
  obtain ⟨hc, hcs⟩ := List.forall_mem_cons.1 hcs
  have hbetween : Assembles depth (tokens .between (c :: cs ++ rest)) := by
    have hstep : step .between c = ([], .atom [c]) := enter_of_not_isDelimiter hc
    rw [List.cons_append, tokens_skip hstep, tokens_atom_append hcs]
    exact h _ (.atom _)
  cases hm with
  | between => exact hbetween
  | atom read => exact hatom read
  | quote read =>
    have hquote : c ≠ '"' := (isDelimiter_eq_false hc).2.2.2.2.1
    rw [List.cons_append, tokens_quote_of_ne hquote]
    exact hbetween.leaf

theorem isDelimiter_of_isBlank (hc : Text.isBlank c = true) : isDelimiter c = true := by
  simp [isDelimiter, hc]

theorem ne_quote_of_isBlank (hc : Text.isBlank c = true) : c ≠ '"' := by
  rintro rfl
  exact absurd hc (by decide)

/-- A text that splits is read. The induction is over its parts, from every mode in which one of them
may begin. -/
theorem assembles_of_splits (h : Splits depth cs) :
    ∀ m, Rests m → Assembles depth (tokens m cs) := by
  induction h with
  | nil =>
    intro m hm
    cases hm with
    | between => exact .nil
    | atom read => exact Assembles.nil.leaf
    | quote read => exact Assembles.nil.leaf
  | @lastComment line hline =>
    intro m hm
    refine assembles_of_rests hm rfl (by decide) ?_
    have hstep : step .between ';' = ([], .comment) := rfl
    rw [tokens_skip hstep, tokens_comment_eq_nil hline]
    exact .nil
  | @comment depth line rest hline _ ih =>
    intro m hm
    refine assembles_of_rests hm rfl (by decide) ?_
    have hstep : step .between ';' = ([], .comment) := rfl
    rw [tokens_skip hstep, tokens_comment hline]
    exact ih _ .between
  | @blank depth c rest hc _ ih =>
    intro m hm
    refine assembles_of_rests hm (isDelimiter_of_isBlank hc) (ne_quote_of_isBlank hc) ?_
    have hgap : tokens .between ([c] ++ rest) = tokens .between rest := tokens_gap (.blank hc .nil)
    exact hgap ▸ ih _ .between
  | opening _ ih => exact fun m hm => assembles_of_rests hm rfl (by decide) (ih _ .between).opening
  | closing _ ih => exact fun m hm => assembles_of_rests hm rfl (by decide) (ih _ .between).closing
  | string _ ih => exact fun m hm => assembles_string hm ih
  | @bars depth cs rest hcs _ ih =>
    intro m hm
    refine assembles_of_rests hm rfl (by decide) ?_
    -- A symbol between bars is one token, whatever is written between them.
    have hsymbol : tokens .between ('|' :: (cs ++ ['|']) ++ rest) =
        .leaf (.atom (.ofList cs)) :: tokens .between rest := tokens_written (.bars hcs)
    rw [List.cons_append, List.append_assoc] at hsymbol
    exact hsymbol ▸ (ih _ .between).leaf
  | bare hne hcs _ ih => exact fun m hm => assembles_bare hm hne hcs ih

theorem Splits.after (hg : Gap g) (h : Splits depth cs) : Splits depth (g ++ cs) := by
  induction hg with
  | nil => exact h
  | blank hc _ ih => exact .blank hc ih
  | @comment line g hline _ ih =>
    rw [List.cons_append, List.append_assoc]
    exact .comment hline ih

/-- A text that consists of tokens splits, where as many lists are open as when the tokens are put
together. -/
theorem splits_of_layout (h : Layout ts cs) (hread : assemble outer items ts = .ok es) :
    Splits outer.length cs := by
  induction h generalizing outer items with
  | @finish g hg =>
    -- At the end no list is open, or the tokens are not put together.
    cases outer with
    | nil =>
      have hsplits : Splits 0 (g ++ []) := Splits.nil.after hg
      rwa [List.append_nil] at hsplits
    | cons => cases hread
  | comment hg hline =>
    cases outer with
    | nil => exact (Splits.lastComment hline).after hg
    | cons => cases hread
  | token hg hwritten _ ih =>
    refine Splits.after hg ?_
    cases hwritten with
    | opening => exact .opening (ih hread)
    | closing =>
      cases outer with
      | nil => cases hread
      | cons around outer => exact .closing (ih hread)
    | bare hne hcs => exact .bare hne hcs (ih hread)
    | bars hcs =>
      rw [List.cons_append, List.append_assoc]
      exact .bars hcs (ih hread)
    | string =>
      rw [List.cons_append, List.append_assoc]
      exact .string (ih hread)

/-- The texts that are read are those that split. -/
theorem exists_readAll_iff {text : String} :
    (∃ es, readAll text = .ok es) ↔ Splits 0 text.toList := by
  constructor
  · rintro ⟨es, hread⟩
    have hlayout := layout_iff.2 ⟨rfl, fault_notMem_of_assemble hread⟩
    exact splits_of_layout hlayout hread
  · exact fun h => assembles_of_splits h .between .between [] [] rfl

/-! ## Texts that were printed -/

/-- What a nonempty gap begins with ends an atom, and a string. -/
theorem Gap.head (hg : Gap g) (hne : g ≠ []) :
    ∃ c g', g = c :: g' ∧ isDelimiter c = true ∧ c ≠ '"' := by
  cases hg with
  | nil => exact absurd rfl hne
  | blank hc => exact ⟨_, _, rfl, isDelimiter_of_isBlank hc, ne_quote_of_isBlank hc⟩
  | comment => exact ⟨';', _, rfl, rfl, by decide⟩

theorem Spelled.written (h : Spelled t cs) (hends : Ends rest) (hquote : rest.head? ≠ some '"') :
    Written rest t cs := by
  cases h with
  | opening => exact .opening
  | closing => exact .closing
  | bare hne hcs => exact .bare hne hcs hends
  | bars hcs => exact .bars hcs
  | string => exact .string hquote

/-- A text that tokens are printed as consists of these. -/
theorem Printed.layout (h : Printed ts cs) : Layout ts cs := by
  induction h with
  | nil => exact .finish .nil
  | @last t cs hspelled =>
    have hlayout : Layout [t] (cs ++ []) := .written (hspelled.written nofun nofun) (.finish .nil)
    rwa [List.append_nil] at hlayout
  | token hspelled hg hne _ ih =>
    -- The gap ends a bare atom, and does not go on with a string.
    refine .written (hspelled.written ?_ ?_) (ih.after hg)
    all_goals obtain ⟨c, g, rfl, hc, hquote⟩ := hg.head hne
    · rintro _ ⟨⟩
      exact hc
    · exact fun heq => hquote (Option.some.inj heq)
  | gap hg _ ih => exact ih.after hg

/-- Tokens that can be printed one by one can be printed together. -/
theorem exists_printed (h : ∀ t ∈ ts, ∃ cs, Spelled t cs) : ∃ cs, Printed ts cs := by
  induction ts with
  | nil => exact ⟨[], .nil⟩
  | cons t ts ih =>
    obtain ⟨⟨cs, hspelled⟩, hts⟩ := List.forall_mem_cons.1 h
    obtain ⟨rest, hrest⟩ := ih hts
    have hgap : Gap ['\n'] := .blank (by decide) .nil
    exact ⟨_, .token hspelled hgap (List.cons_ne_nil _ _) hrest⟩

mutual

/-- Every token of an expression without bars can be printed. -/
theorem exists_spelled : ∀ e : SExpr, e.BarFree → ∀ t ∈ e.tokens, ∃ cs, Spelled t cs
  | .atom text, hbar, t, ht => by
    rw [SExpr.tokens, List.mem_singleton] at ht
    subst ht
    have hspelled := Spelled.bars (hbar text List.mem_cons_self)
    rw [String.ofList_toList] at hspelled
    exact ⟨_, hspelled⟩
  | .string text, _, t, ht => by
    rw [SExpr.tokens, List.mem_singleton] at ht
    subst ht
    have hspelled := @Spelled.string text.toList
    rw [String.ofList_toList] at hspelled
    exact ⟨_, hspelled⟩
  | .list es, hbar, t, ht => by
    have hes : ∀ e ∈ es, e.BarFree := fun e he a ha => hbar a (SExpr.mem_atomsAll.2 ⟨e, he, ha⟩)
    rw [SExpr.tokens, List.mem_cons, List.mem_append, List.mem_singleton] at ht
    rcases ht with rfl | ht | rfl
    · exact ⟨_, .opening⟩
    · exact exists_spelled_all es hes t ht
    · exact ⟨_, .closing⟩

/-- The same for several expressions. -/
theorem exists_spelled_all :
    ∀ es : List SExpr, (∀ e ∈ es, e.BarFree) → ∀ t ∈ SExpr.tokensAll es, ∃ cs, Spelled t cs
  | [], _, t, ht => absurd ht List.not_mem_nil
  | e :: es, hbar, t, ht => by
    obtain ⟨he, hes⟩ := List.forall_mem_cons.1 hbar
    rcases List.mem_append.1 ht with ht | ht
    · exact exists_spelled e he t ht
    · exact exists_spelled_all es hes t ht

end

theorem readAll_of_printed {text : String} (h : Printed (SExpr.tokensAll es) text.toList) :
    readAll text = .ok es :=
  readAll_eq_ok_iff.2 h.layout

/-- Expressions can be printed exactly if no atom in them contains a bar. -/
theorem exists_printed_iff :
    (∃ text : String, Printed (SExpr.tokensAll es) text.toList) ↔ ∀ e ∈ es, e.BarFree := by
  constructor
  · rintro ⟨text, h⟩
    exact barFree_of_readAll (readAll_of_printed h)
  · intro h
    obtain ⟨cs, hcs⟩ := exists_printed (exists_spelled_all es h)
    exact ⟨.ofList cs, by rwa [String.toList_ofList]⟩

/-! ## The language -/

theorem readAll_append_newline {a b : String} {fs : List SExpr} (ha : readAll a = .ok es)
    (hb : readAll b = .ok fs) : readAll (a ++ "\n" ++ b) = .ok (es ++ fs) := by
  have htokens : tokens .between b.toList = SExpr.tokensAll fs := (readAll_eq_ok_iff.1 hb).tokens_eq
  have hread := assemble_tokens_append_newline ha htokens
  rw [readAll, String.toList_append, String.toList_append, List.append_assoc]
  exact hread

/-- A text is read exactly if it splits into parts in which every parenthesis matches. Expressions
without bars in their atoms, and only these, can be printed, and are read again however they are
printed; and two texts, with a line feed between them, are read one after the other. -/
theorem readAll_language :
    (∀ text, (∃ es, readAll text = .ok es) ↔ Splits 0 text.toList) ∧
    (∀ es, ((∀ e ∈ es, e.BarFree) ↔ ∃ text : String, Printed (SExpr.tokensAll es) text.toList) ∧
      ∀ text : String, Printed (SExpr.tokensAll es) text.toList → readAll text = .ok es) ∧
    ∀ a b es fs, readAll a = .ok es → readAll b = .ok fs →
      readAll (a ++ "\n" ++ b) = .ok (es ++ fs) :=
  ⟨fun _ => exists_readAll_iff,
    fun _ => ⟨exists_printed_iff.symm, fun _ => readAll_of_printed⟩,
    fun _ _ _ _ => readAll_append_newline⟩

/-- A list printed with a comment after its parenthesis, and more text on the next line. -/
theorem readAll_language_commented :
    let text := "(;c\n|x y| \"a\"\"b\" )"
    let es : List SExpr := [.list [.atom "x y", .string "a\"b"]]
    Printed (SExpr.tokensAll es) text.toList ∧ readAll text = .ok es ∧
      readAll "sat ;" = .ok [.atom "sat"] ∧
      readAll (text ++ "\n" ++ "sat ;") = .ok (es ++ [.atom "sat"]) := by
  intro text es
  obtain ⟨-, hprinted, happend⟩ := readAll_language
  have hblank : Gap [' '] := .blank (by decide) .nil
  have hcomment : Gap [';', 'c', '\n'] := @Gap.comment ['c'] _ (by decide) .nil
  have hbars : Spelled (.leaf (.atom "x y")) ['|', 'x', ' ', 'y', '|'] :=
    @Spelled.bars ['x', ' ', 'y'] (by decide)
  have hstring : Spelled (.leaf (.string "a\"b")) ['"', 'a', '"', '"', 'b', '"'] :=
    @Spelled.string ['a', '"', 'b']
  -- The text is the tokens in turn, with a comment or a blank behind some of them.
  have htext : Printed (SExpr.tokensAll es) text.toList := by
    have hchars : text.toList = ['('] ++ ([';', 'c', '\n'] ++ (['|', 'x', ' ', 'y', '|'] ++
        ([' '] ++ (['"', 'a', '"', '"', 'b', '"'] ++ ([' '] ++ [')']))))) := by decide
    rw [hchars]
    exact .token .opening hcomment (List.cons_ne_nil _ _) <|
      .token hbars hblank (List.cons_ne_nil _ _) <|
      .token hstring hblank (List.cons_ne_nil _ _) <| .last .closing
  have hread := (hprinted es).2 text htext
  have hsat : readAll "sat ;" = .ok [.atom "sat"] := by rfl
  exact ⟨htext, hread, hsat, happend text "sat ;" es _ hread hsat⟩

end Obligations.Solver
