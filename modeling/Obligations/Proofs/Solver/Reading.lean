import Mathlib.Data.List.Basic
import Mathlib.Data.List.Forall2
import Obligations.Solver.SExpr
import Obligations.Proofs.Outcome

/-!
# Texts of S-expressions

An S-expression can be written in many ways: an atom bare or between bars, with blanks and comments
between the tokens. `Layout` relates a list of tokens to the texts that consist of them: scanning such
a text gives the tokens, and no other text gives them (`layout_iff`), so that `readAll` reads exactly
the layouts of an expression as that expression (`readAll_eq_ok_iff`). What is read of a text does not
depend on what follows a line feed (`assemble_tokens_append_newline`), and no atom that is read
contains a bar (`barFree_of_readAll`).
-/

namespace Obligations.Solver

/-! ## Tokens of expressions -/

/- The tokens of an expression and of several expressions. -/
mutual

/-- The tokens of an expression. -/
def SExpr.tokens : SExpr → List Token
  | .atom text => [.leaf (.atom text)]
  | .string text => [.leaf (.string text)]
  | .list items => .opening :: (SExpr.tokensAll items ++ [.closing])

/-- The tokens of several expressions. -/
def SExpr.tokensAll : List SExpr → List Token
  | [] => []
  | e :: es => e.tokens ++ SExpr.tokensAll es

end

theorem SExpr.tokensAll_eq_flatten (es : List SExpr) :
    SExpr.tokensAll es = (es.map SExpr.tokens).flatten := by
  induction es with
  | nil => rfl
  | cons e es ih => rw [SExpr.tokensAll, ih, List.map_cons, List.flatten_cons]

theorem SExpr.tokensAll_append (es fs : List SExpr) :
    SExpr.tokensAll (es ++ fs) = SExpr.tokensAll es ++ SExpr.tokensAll fs := by
  simp [SExpr.tokensAll_eq_flatten]

mutual

/-- The tokens of an expression are put together to the expression. -/
theorem assemble_tokens (outer : List (List SExpr)) (items : List SExpr) (ts : List Token) :
    ∀ e : SExpr, assemble outer items (e.tokens ++ ts) = assemble outer (e :: items) ts
  | .atom _ => rfl
  | .string _ => rfl
  | .list es => by
    rw [SExpr.tokens, List.cons_append, List.append_assoc, assemble,
      assemble_tokensAll (items :: outer) [] _ es]
    simp [assemble]

/-- The same for several expressions. -/
theorem assemble_tokensAll (outer : List (List SExpr)) (items : List SExpr) (ts : List Token) :
    ∀ es : List SExpr,
      assemble outer items (SExpr.tokensAll es ++ ts) = assemble outer (es.reverse ++ items) ts
  | [] => rfl
  | e :: es => by
    rw [SExpr.tokensAll, List.append_assoc, assemble_tokens outer items _ e,
      assemble_tokensAll outer (e :: items) ts es]
    simp

end

/-- What has the tokens of some expressions is read as these. -/
theorem readAll_of_tokens {text : String} {es : List SExpr}
    (h : tokens .between text.toList = SExpr.tokensAll es) : readAll text = .ok es := by
  have hes := assemble_tokensAll [] [] [] es
  rw [List.append_nil, List.append_nil] at hes
  rw [readAll, h, hes]
  simp [assemble]

/-! ## Layouts -/

/-- An atom may end before this text. -/
def Ends (rest : List Char) : Prop := ∀ c, rest.head? = some c → isDelimiter c = true

/-- What may stand between two tokens: blanks, and comments that end with a line. -/
inductive Gap : List Char → Prop where
  | nil : Gap []
  | blank {c : Char} {g : List Char} : Text.isBlank c = true → Gap g → Gap (c :: g)
  | comment {line g : List Char} : '\n' ∉ line → Gap g → Gap (';' :: (line ++ '\n' :: g))

/-- The characters of a string with each quote doubled. -/
def doubled (cs : List Char) : List Char := cs.flatMap fun c => if c = '"' then ['"', '"'] else [c]

/-- How a token may be written before the text `rest`. An atom stands bare only if it has
characters, none of which would end it, and if `rest` ends it. -/
inductive Written (rest : List Char) : Token → List Char → Prop where
  | opening : Written rest .opening ['(']
  | closing : Written rest .closing [')']
  | bare {cs : List Char} : cs ≠ [] → (∀ c ∈ cs, isDelimiter c = false) → Ends rest →
    Written rest (.leaf (.atom (.ofList cs))) cs
  | bars {cs : List Char} : '|' ∉ cs →
    Written rest (.leaf (.atom (.ofList cs))) ('|' :: (cs ++ ['|']))
  | string {cs : List Char} : rest.head? ≠ some '"' →
    Written rest (.leaf (.string (.ofList cs))) ('"' :: (doubled cs ++ ['"']))

/-- The texts that consist of some tokens, with gaps before, between and after them. The last line
may end in a comment. -/
inductive Layout : List Token → List Char → Prop where
  | finish {g : List Char} : Gap g → Layout [] g
  | comment {g line : List Char} : Gap g → '\n' ∉ line → Layout [] (g ++ ';' :: line)
  | token {t : Token} {ts : List Token} {g cs rest : List Char} :
    Gap g → Written rest t cs → Layout ts rest → Layout (t :: ts) (g ++ (cs ++ rest))

/-! ## Reading characters -/

section

variable {c : Char} {cs rest read : List Char}

theorem tokens_step (m : Mode) : tokens m (c :: cs) = (step m c).1 ++ tokens (step m c).2 cs := rfl

theorem tokens_cons {m m' : Mode} {ts : List Token} (h : step m c = (ts, m')) :
    tokens m (c :: cs) = ts ++ tokens m' cs := by
  rw [tokens_step, h]

theorem tokens_skip {m m' : Mode} (h : step m c = ([], m')) : tokens m (c :: cs) = tokens m' cs :=
  tokens_cons h

theorem isDelimiter_eq_false (h : isDelimiter c = false) :
    Text.isBlank c = false ∧ c ≠ '(' ∧ c ≠ ')' ∧ c ≠ ';' ∧ c ≠ '"' ∧ c ≠ '|' := by
  simpa [isDelimiter, and_assoc] using h

theorem enter_of_not_isDelimiter (h : isDelimiter c = false) : enter c = ([], .atom [c]) := by
  obtain ⟨hblank, hopening, hclosing, hcomment, hquote, hbar⟩ := isDelimiter_eq_false h
  simp [enter, hblank, hopening, hclosing, hcomment, hquote, hbar]

theorem step_between (c : Char) : step .between c = ((enter c).1, (enter c).2) := rfl

theorem tokens_comment (h : '\n' ∉ cs) : tokens .comment (cs ++ '\n' :: rest) = tokens .between rest := by
  induction cs with
  | nil => rfl
  | cons c cs ih =>
    rw [List.mem_cons, not_or] at h
    have hstep : step .comment c = ([], .comment) := by simp [step, Ne.symm h.1]
    rw [List.cons_append, tokens_skip hstep, ih h.2]

theorem tokens_comment_eq_nil (h : '\n' ∉ cs) : tokens .comment cs = [] := by
  induction cs with
  | nil => rfl
  | cons c cs ih =>
    rw [List.mem_cons, not_or] at h
    have hstep : step .comment c = ([], .comment) := by simp [step, Ne.symm h.1]
    rw [tokens_skip hstep, ih h.2]

/-- A gap has no tokens. -/
theorem tokens_gap {g : List Char} (h : Gap g) : tokens .between (g ++ rest) = tokens .between rest := by
  induction h with
  | nil => rfl
  | @blank c g hc _ ih =>
    have hstep : step .between c = ([], .between) := by simp [step, enter, hc]
    rw [List.cons_append, tokens_skip hstep, ih]
  | @comment line g hline _ ih =>
    have hstep : step .between ';' = ([], .comment) := rfl
    rw [List.cons_append, List.append_assoc, tokens_skip hstep, List.cons_append,
      tokens_comment hline, ih]

/-- An atom before a delimiter. -/
theorem tokens_atom_of_isDelimiter (hc : isDelimiter c = true) :
    tokens (.atom read) (c :: cs) = .leaf (.atom (textOf read)) :: tokens .between (c :: cs) := by
  have hstep : step (.atom read) c = (.leaf (.atom (textOf read)) :: (enter c).1, (enter c).2) := by
    simp [step, hc]
  rw [tokens_cons hstep, tokens_cons (step_between c), List.cons_append]

/-- A string after which no other quote stands. -/
theorem tokens_quote_of_ne (hc : c ≠ '"') :
    tokens (.quote read) (c :: cs) = .leaf (.string (textOf read)) :: tokens .between (c :: cs) := by
  have hstep : step (.quote read) c =
      (.leaf (.string (textOf read)) :: (enter c).1, (enter c).2) := by
    simp [step, hc]
  rw [tokens_cons hstep, tokens_cons (step_between c), List.cons_append]

/-- The characters of an atom are kept. -/
theorem tokens_atom_append (hcs : ∀ c ∈ cs, isDelimiter c = false) :
    tokens (.atom read) (cs ++ rest) = tokens (.atom (cs.reverse ++ read)) rest := by
  induction cs generalizing read with
  | nil => rfl
  | cons c cs ih =>
    obtain ⟨hc, hcs⟩ := List.forall_mem_cons.1 hcs
    have hstep : step (.atom read) c = ([], .atom (c :: read)) := by simp [step, hc]
    rw [List.cons_append, tokens_skip hstep, ih hcs, List.reverse_cons, List.append_assoc]
    rfl

/-- An atom that has been begun goes on to the next delimiter. -/
theorem tokens_atom (hcs : ∀ c ∈ cs, isDelimiter c = false) (hrest : Ends rest) :
    tokens (.atom read) (cs ++ rest) =
      .leaf (.atom (.ofList (read.reverse ++ cs))) :: tokens .between rest := by
  rw [tokens_atom_append hcs]
  cases rest with
  | nil => simp [tokens, finish, textOf]
  | cons c rest =>
    rw [tokens_atom_of_isDelimiter (hrest c rfl), textOf, List.reverse_append, List.reverse_reverse]

/-- A symbol between bars goes on to the second bar. -/
theorem tokens_symbol (hcs : '|' ∉ cs) :
    tokens (.symbol read) (cs ++ '|' :: rest) =
      .leaf (.atom (.ofList (read.reverse ++ cs))) :: tokens .between rest := by
  induction cs generalizing read with
  | nil => simp [tokens, step, textOf]
  | cons c cs ih =>
    rw [List.mem_cons, not_or] at hcs
    have hstep : step (.symbol read) c = ([], .symbol (c :: read)) := by
      simp [step, Ne.symm hcs.1]
    rw [List.cons_append, tokens_skip hstep, ih hcs.2]
    simp

/-- The characters of a string are kept up to a quote that is not doubled. -/
theorem tokens_string_append : tokens (.string read) (doubled cs ++ '"' :: rest) =
    tokens (.quote (cs.reverse ++ read)) rest := by
  induction cs generalizing read with
  | nil =>
    have hstep : step (.string read) '"' = ([], .quote read) := by simp [step]
    rw [doubled, List.flatMap_nil, List.nil_append, tokens_skip hstep]
    rfl
  | cons c cs ih =>
    have hread : tokens (.string read) (doubled (c :: cs) ++ '"' :: rest) =
        tokens (.string (c :: read)) (doubled cs ++ '"' :: rest) := by
      by_cases hc : c = '"'
      · subst hc
        rfl
      · have hdoubled : doubled (c :: cs) = c :: doubled cs := by simp [doubled, hc]
        have hstep : step (.string read) c = ([], .string (c :: read)) := by simp [step, hc]
        rw [hdoubled, List.cons_append, tokens_skip hstep]
    rw [hread, ih, List.reverse_cons, List.append_assoc]
    rfl

/-- A string goes on to a quote after which no other one stands. -/
theorem tokens_string (hrest : rest.head? ≠ some '"') :
    tokens (.string read) (doubled cs ++ '"' :: rest) =
      .leaf (.string (.ofList (read.reverse ++ cs))) :: tokens .between rest := by
  rw [tokens_string_append]
  cases rest with
  | nil => simp [tokens, finish, textOf]
  | cons c rest =>
    have hc : c ≠ '"' := fun h => hrest (congrArg some h)
    rw [tokens_quote_of_ne hc, textOf, List.reverse_append, List.reverse_reverse]

/-- A token that is written is read. -/
theorem tokens_written {t : Token} (h : Written rest t cs) :
    tokens .between (cs ++ rest) = t :: tokens .between rest := by
  cases h with
  | opening => rfl
  | closing => rfl
  | bare hne hcs hrest =>
    obtain ⟨c, cs, rfl⟩ := List.exists_cons_of_ne_nil hne
    obtain ⟨hc, hcs⟩ := List.forall_mem_cons.1 hcs
    have hstep : step .between c = ([], .atom [c]) := enter_of_not_isDelimiter hc
    rw [List.cons_append, tokens_cons hstep, List.nil_append, tokens_atom hcs hrest]
    rfl
  | @bars cs hcs =>
    have hstep : step .between '|' = ([], .symbol []) := rfl
    rw [List.cons_append, List.append_assoc, tokens_skip hstep]
    exact tokens_symbol hcs
  | @string cs hrest =>
    have hstep : step .between '"' = ([], .string []) := rfl
    rw [List.cons_append, List.append_assoc, tokens_skip hstep]
    exact tokens_string hrest

end

/-- A text that consists of tokens is read as these. -/
theorem Layout.tokens_eq {ts : List Token} {cs : List Char} (h : Layout ts cs) :
    tokens .between cs = ts := by
  induction h with
  | @finish g hg =>
    have hgap : tokens .between (g ++ []) = tokens .between [] := tokens_gap hg
    rwa [List.append_nil] at hgap
  | @comment g line hg hline =>
    have hstep : step .between ';' = ([], .comment) := rfl
    rw [tokens_gap hg, tokens_skip hstep, tokens_comment_eq_nil hline]
  | token hg hwritten _ ih => rw [tokens_gap hg, tokens_written hwritten, ih]

/-! ## Every text that can be read -/

section

variable {c : Char} {cs g pre read : List Char} {ts : List Token}

theorem Gap.append {g' : List Char} (hg : Gap g) (hg' : Gap g') : Gap (g ++ g') := by
  induction hg with
  | nil => exact hg'
  | blank hc _ ih => exact .blank hc ih
  | @comment line g hline _ ih =>
    rw [List.cons_append, List.append_assoc, List.cons_append]
    exact .comment hline ih

/-- A gap may stand before every text. -/
theorem Layout.after (hg : Gap g) (h : Layout ts cs) : Layout ts (g ++ cs) := by
  cases h with
  | finish hg' => exact .finish (hg.append hg')
  | comment hg' hline =>
    rw [← List.append_assoc]
    exact .comment (hg.append hg') hline
  | token hg' hwritten hrest =>
    rw [← List.append_assoc]
    exact .token (hg.append hg') hwritten hrest

theorem Layout.written {t : Token} {rest : List Char} (hwritten : Written rest t cs)
    (hrest : Layout ts rest) : Layout (t :: ts) (cs ++ rest) :=
  .token .nil hwritten hrest

/-- What has been read of a token or a comment when the automaton is in a mode. -/
inductive Begun : Mode → List Char → Prop where
  | between : Begun .between []
  | comment {line : List Char} : '\n' ∉ line → Begun .comment (';' :: line)
  | atom {read : List Char} : read ≠ [] → (∀ c ∈ read, isDelimiter c = false) →
    Begun (.atom read) read.reverse
  | symbol {read : List Char} : '|' ∉ read → Begun (.symbol read) ('|' :: read.reverse)
  | string {read : List Char} : Begun (.string read) ('"' :: doubled read.reverse)
  | quote {read : List Char} : Begun (.quote read) ('"' :: (doubled read.reverse ++ ['"']))

/-- A text whose tokens from some mode on have no fault is, after what has been read before, a
layout of these. -/
theorem layout_of_begun {m : Mode} (hpre : Begun m pre) (h : ∀ cause, .fault cause ∉ tokens m cs) :
    Layout (tokens m cs) (pre ++ cs) := by
  induction cs generalizing m pre with
  | nil =>
    rw [List.append_nil]
    cases hpre with
    | between => exact .finish .nil
    | comment hline => exact .comment .nil hline
    | @atom read hne hread =>
      have hcs : ∀ c ∈ read.reverse, isDelimiter c = false := by simpa using hread
      have hwritten : Written [] (.leaf (.atom (textOf read))) read.reverse :=
        .bare (by simpa using hne) hcs nofun
      simpa [tokens, Solver.finish] using Layout.written hwritten (.finish .nil)
    | symbol => exact absurd (List.mem_singleton_self _) (h .unterminatedSymbol)
    | string => exact absurd (List.mem_singleton_self _) (h .unterminatedString)
    | @quote read =>
      have hwritten : Written [] (.leaf (.string (textOf read)))
          ('"' :: (doubled read.reverse ++ ['"'])) := .string nofun
      simpa [tokens, Solver.finish] using Layout.written hwritten (.finish .nil)
  | cons c cs ih =>
    -- Where no token has begun, the next character is a gap, is a token by itself or begins one.
    have hbetween (h : ∀ cause, .fault cause ∉ tokens .between (c :: cs)) :
        Layout (tokens .between (c :: cs)) (c :: cs) := by
      rw [tokens_cons (step_between c)] at h ⊢
      have hrest : ∀ cause, .fault cause ∉ tokens (enter c).2 cs := fun cause hmem =>
        h cause (List.mem_append_right _ hmem)
      revert hrest
      unfold enter
      split_ifs with hblank hcomment hopening hclosing hquote hbar <;> intro hrest
      · exact (ih .between hrest).after (.blank hblank .nil)
      · subst hcomment
        have hbegun : Begun .comment [';'] := .comment List.not_mem_nil
        exact ih hbegun hrest
      · subst hopening
        exact .written .opening (ih .between hrest)
      · subst hclosing
        exact .written .closing (ih .between hrest)
      · subst hquote
        have hbegun : Begun (.string []) ['"'] := .string
        exact ih hbegun hrest
      · subst hbar
        have hbegun : Begun (.symbol []) ['|'] := .symbol List.not_mem_nil
        exact ih hbegun hrest
      · have hc : isDelimiter c = false := by
          simp [isDelimiter, hblank, hcomment, hopening, hclosing, hquote, hbar]
        exact ih (.atom (List.cons_ne_nil _ _) (List.forall_mem_singleton.2 hc)) hrest
    have hrest : ∀ cause, .fault cause ∉ tokens (step m c).2 cs := fun cause hmem =>
      h cause (List.mem_append_right _ hmem)
    cases hpre with
    | between => exact hbetween h
    | @comment line hline =>
      by_cases hc : c = '\n'
      · subst hc
        have hgap : Gap (';' :: (line ++ ['\n'])) := .comment hline .nil
        simpa [tokens_step, step] using (ih .between hrest).after hgap
      · have hstep : step .comment c = ([], .comment) := by simp [step, hc]
        have hline' : '\n' ∉ line ++ [c] := by simp [hline, Ne.symm hc]
        rw [hstep] at hrest
        rw [tokens_cons hstep]
        simpa using ih (.comment hline') hrest
    | @atom read hne hread =>
      by_cases hc : isDelimiter c = true
      · rw [tokens_atom_of_isDelimiter hc] at h ⊢
        have hcs : ∀ c ∈ read.reverse, isDelimiter c = false := by simpa using hread
        have hends : Ends (c :: cs) := by
          rintro _ ⟨⟩
          exact hc
        exact .written (.bare (by simpa using hne) hcs hends)
          (hbetween fun cause hmem => h cause (List.mem_cons_of_mem _ hmem))
      · have hc : isDelimiter c = false := Bool.eq_false_iff.2 hc
        have hstep : step (.atom read) c = ([], .atom (c :: read)) := by simp [step, hc]
        rw [hstep] at hrest
        rw [tokens_cons hstep]
        simpa using ih (.atom (List.cons_ne_nil _ _) (List.forall_mem_cons.2 ⟨hc, hread⟩)) hrest
    | @symbol read hread =>
      by_cases hc : c = '|'
      · subst hc
        have hcs : '|' ∉ read.reverse := by simpa using hread
        have hwritten : Written cs (.leaf (.atom (textOf read))) ('|' :: (read.reverse ++ ['|'])) :=
          .bars hcs
        simpa [tokens_step, step] using Layout.written hwritten (ih .between hrest)
      · have hstep : step (.symbol read) c = ([], .symbol (c :: read)) := by simp [step, hc]
        have hread' : '|' ∉ c :: read := by simp [hread, Ne.symm hc]
        rw [hstep] at hrest
        rw [tokens_cons hstep]
        simpa using ih (.symbol hread') hrest
    | @string read =>
      by_cases hc : c = '"'
      · subst hc
        have hbegun : Begun (.quote read) ('"' :: (doubled read.reverse ++ ['"'])) := .quote
        simpa [tokens_step, step] using ih hbegun hrest
      · have hstep : step (.string read) c = ([], .string (c :: read)) := by simp [step, hc]
        have hread' : doubled (c :: read).reverse = doubled read.reverse ++ [c] := by
          simp [doubled, hc]
        rw [hstep] at hrest
        rw [tokens_cons hstep]
        have hbegun : Begun (.string (c :: read)) ('"' :: doubled (c :: read).reverse) := .string
        have hstring := ih hbegun hrest
        rw [hread'] at hstring
        simpa using hstring
    | @quote read =>
      by_cases hc : c = '"'
      · subst hc
        have hread' : doubled ('"' :: read).reverse = doubled read.reverse ++ ['"', '"'] := by
          simp [doubled]
        have hbegun : Begun (.string ('"' :: read)) ('"' :: doubled ('"' :: read).reverse) := .string
        have hstring := ih hbegun hrest
        rw [hread'] at hstring
        simpa [tokens_step, step] using hstring
      · rw [tokens_quote_of_ne hc] at h ⊢
        have hends : (c :: cs).head? ≠ some '"' := fun heq => hc (Option.some.inj heq)
        exact .written (.string hends)
          (hbetween fun cause hmem => h cause (List.mem_cons_of_mem _ hmem))

/-- The layouts of tokens are the texts that are read as these without a fault. -/
theorem layout_iff : Layout ts cs ↔ tokens .between cs = ts ∧ ∀ cause, .fault cause ∉ ts := by
  constructor
  · intro h
    refine ⟨h.tokens_eq, fun cause => ?_⟩
    induction h with
    | finish | comment => exact List.not_mem_nil
    | token _ hwritten _ ih =>
      refine List.not_mem_cons_of_ne_of_not_mem ?_ ih
      rintro rfl
      cases hwritten
  · rintro ⟨rfl, h⟩
    exact layout_of_begun .between h

end

theorem fault_notMem_of_assemble {outer : List (List SExpr)} {items es : List SExpr}
    {ts : List Token} (h : assemble outer items ts = .ok es) (cause : ResponseError) :
    .fault cause ∉ ts := by
  induction ts generalizing outer items with
  | nil => exact List.not_mem_nil
  | cons t ts ih =>
    cases t with
    | opening => simpa using ih h
    | leaf e => simpa using ih h
    | fault cause' => cases h
    | closing =>
      cases outer with
      | nil => cases h
      | cons around outer => simpa using ih h

/-- The tokens of lists that are not closed yet and of the items they have so far. -/
def openTokens : List (List SExpr) → List SExpr → List Token
  | [], items => SExpr.tokensAll items.reverse
  | around :: outer, items => openTokens outer around ++ .opening :: SExpr.tokensAll items.reverse

theorem openTokens_cons (outer : List (List SExpr)) (e : SExpr) (items : List SExpr) :
    openTokens outer (e :: items) = openTokens outer items ++ e.tokens := by
  cases outer <;> simp [openTokens, SExpr.tokensAll_append, SExpr.tokensAll]

/-- What is put together has the tokens that it is put together from. -/
theorem tokensAll_of_assemble {outer : List (List SExpr)} {items es : List SExpr} {ts : List Token}
    (hleaf : ∀ e, .leaf e ∈ ts → e.tokens = [.leaf e]) (h : assemble outer items ts = .ok es) :
    openTokens outer items ++ ts = SExpr.tokensAll es := by
  induction ts generalizing outer items with
  | nil =>
    cases outer with
    | nil =>
      cases h
      rw [List.append_nil, openTokens]
    | cons => cases h
  | cons t ts ih =>
    have hleaf' : ∀ e, .leaf e ∈ ts → e.tokens = [.leaf e] := fun e he =>
      hleaf e (List.mem_cons_of_mem _ he)
    -- What is open is put in front of the tokens left, and a closing parenthesis makes a list of
    -- the innermost.
    cases t with
    | opening => simpa [openTokens, SExpr.tokensAll] using ih hleaf' h
    | leaf e =>
      have hrest := ih hleaf' h
      rw [openTokens_cons, hleaf e List.mem_cons_self] at hrest
      simpa using hrest
    | fault cause => cases h
    | closing =>
      cases outer with
      | nil => cases h
      | cons around outer =>
        have hrest := ih hleaf' h
        rw [openTokens_cons, SExpr.tokens] at hrest
        simpa [openTokens] using hrest

theorem Layout.tokens_leaf {ts : List Token} {cs : List Char} (h : Layout ts cs) :
    ∀ e, .leaf e ∈ ts → e.tokens = [.leaf e] := by
  induction h with
  | finish | comment => nofun
  | token _ hwritten _ ih =>
    intro e he
    rcases List.mem_cons.1 he with rfl | he
    · cases hwritten <;> rfl
    · exact ih e he

/-- The texts that are read as some expressions are the layouts of their tokens. -/
theorem readAll_eq_ok_iff {text : String} {es : List SExpr} :
    readAll text = .ok es ↔ Layout (SExpr.tokensAll es) text.toList := by
  constructor
  · intro h
    have hlayout := layout_iff.2 ⟨rfl, fault_notMem_of_assemble h⟩
    have htokens := tokensAll_of_assemble hlayout.tokens_leaf h
    rw [openTokens, List.reverse_nil, SExpr.tokensAll, List.nil_append] at htokens
    rwa [htokens] at hlayout
  · exact fun h => readAll_of_tokens h.tokens_eq

/-! ## One text after another -/

/-- What has been read before a line feed does not depend on what comes after it. -/
theorem tokens_append_newline {m : Mode} {cs ds : List Char}
    (h : ∀ cause, .fault cause ∉ tokens m cs) :
    tokens m (cs ++ '\n' :: ds) = tokens m cs ++ tokens .between ds := by
  induction cs generalizing m with
  | nil =>
    cases m with
    | symbol read => exact absurd (List.mem_singleton_self _) (h .unterminatedSymbol)
    | string read => exact absurd (List.mem_singleton_self _) (h .unterminatedString)
    | between | comment | atom read | quote read => rfl
  | cons c cs ih =>
    rw [List.cons_append, tokens_step, tokens_step, List.append_assoc, ih]
    exact fun cause hmem => h cause (List.mem_append_right _ hmem)

/-- Tokens that are put together to expressions leave nothing open. -/
theorem assemble_append {outer : List (List SExpr)} {items es : List SExpr} {ts : List Token}
    (h : assemble outer items ts = .ok es) (us : List Token) :
    assemble outer items (ts ++ us) = assemble [] es.reverse us := by
  induction ts generalizing outer items with
  | nil =>
    cases outer with
    | nil =>
      cases h
      rw [List.nil_append, List.reverse_reverse]
    | cons => cases h
  | cons t ts ih =>
    cases t with
    | opening => exact ih h
    | leaf e => exact ih h
    | fault cause => cases h
    | closing =>
      cases outer with
      | nil => cases h
      | cons around outer => exact ih h

/-- After a text that is read, and a line feed, more is read. -/
theorem assemble_tokens_append_newline {cs ds : List Char} {es fs : List SExpr}
    (hcs : assemble [] [] (tokens .between cs) = .ok es)
    (hds : tokens .between ds = SExpr.tokensAll fs) :
    assemble [] [] (tokens .between (cs ++ '\n' :: ds)) = .ok (es ++ fs) := by
  have hfs := assemble_tokensAll [] es.reverse [] fs
  rw [List.append_nil] at hfs
  rw [tokens_append_newline (fault_notMem_of_assemble hcs), hds, assemble_append hcs, hfs]
  simp [assemble]

/-! ## Bars -/

/- The texts of the atoms in an expression and in several expressions. -/
mutual

/-- The texts of the atoms in an expression. -/
def SExpr.atoms : SExpr → List String
  | .atom text => [text]
  | .string _ => []
  | .list items => SExpr.atomsAll items

/-- The texts of the atoms in several expressions. -/
def SExpr.atomsAll : List SExpr → List String
  | [] => []
  | e :: es => e.atoms ++ SExpr.atomsAll es

end

theorem SExpr.mem_atomsAll {a : String} {es : List SExpr} :
    a ∈ SExpr.atomsAll es ↔ ∃ e ∈ es, a ∈ e.atoms := by
  induction es with
  | nil => simp [SExpr.atomsAll]
  | cons e es ih => simp [SExpr.atomsAll, ih]

/-- No atom of the expression contains a bar. -/
def SExpr.BarFree (e : SExpr) : Prop := ∀ a ∈ e.atoms, '|' ∉ a.toList

/-- No atom of the token contains a bar. -/
def Token.BarFree : Token → Prop
  | leaf e => e.BarFree
  | _ => True

/-- What has been read of an atom contains no bar. -/
def Mode.BarFree : Mode → Prop
  | atom read => '|' ∉ read
  | symbol read => '|' ∉ read
  | _ => True

theorem barFree_textOf {read : List Char} (h : '|' ∉ read) :
    Token.BarFree (.leaf (.atom (textOf read))) := by
  intro a ha
  cases List.mem_singleton.1 ha
  simpa [textOf] using h

theorem barFree_string (text : String) : Token.BarFree (.leaf (.string text)) := nofun

/-- Tokens and the mode after them contain no bar. -/
def BarFreeStep (r : List Token × Mode) : Prop := (∀ t ∈ r.1, t.BarFree) ∧ r.2.BarFree

theorem barFreeStep_nil {m : Mode} (h : m.BarFree) : BarFreeStep ([], m) := ⟨nofun, h⟩

theorem barFreeStep_enter (c : Char) : BarFreeStep (enter c) := by
  unfold enter
  split_ifs with hblank hcomment hopening hclosing hquote hbar
  all_goals simp [BarFreeStep, Token.BarFree, Mode.BarFree]
  exact Ne.symm hbar

theorem barFreeStep_step {m : Mode} (h : m.BarFree) (c : Char) : BarFreeStep (step m c) := by
  obtain ⟨htokens, hmode⟩ := barFreeStep_enter c
  -- Characters are kept for an atom, and of these only a bar would matter: it ends a symbol or is a
  -- delimiter.
  cases m with
  | between => exact ⟨htokens, hmode⟩
  | comment =>
    refine barFreeStep_nil ?_
    split_ifs <;> trivial
  | string read =>
    refine barFreeStep_nil ?_
    split_ifs <;> trivial
  | atom read =>
    simp only [step]
    split_ifs with hc
    · exact ⟨List.forall_mem_cons.2 ⟨barFree_textOf h, htokens⟩, hmode⟩
    · have hbar := (isDelimiter_eq_false (Bool.eq_false_iff.2 hc)).2.2.2.2.2
      exact barFreeStep_nil (List.not_mem_cons_of_ne_of_not_mem (Ne.symm hbar) h)
  | symbol read =>
    simp only [step]
    split_ifs with hc
    · exact ⟨List.forall_mem_singleton.2 (barFree_textOf h), trivial⟩
    · exact barFreeStep_nil (List.not_mem_cons_of_ne_of_not_mem (Ne.symm hc) h)
  | quote read =>
    simp only [step]
    split_ifs with hc
    · exact barFreeStep_nil trivial
    · exact ⟨List.forall_mem_cons.2 ⟨barFree_string _, htokens⟩, hmode⟩

theorem barFree_tokens {m : Mode} (h : m.BarFree) (cs : List Char) : ∀ t ∈ tokens m cs, t.BarFree := by
  induction cs generalizing m with
  | nil =>
    cases m with
    | between | comment => nofun
    | atom read => exact List.forall_mem_singleton.2 (barFree_textOf h)
    | symbol read | string read => exact List.forall_mem_singleton.2 trivial
    | quote read => exact List.forall_mem_singleton.2 (barFree_string _)
  | cons c cs ih =>
    obtain ⟨htokens, hmode⟩ := barFreeStep_step h c
    rw [tokens_step]
    exact List.forall_mem_append.2 ⟨htokens, ih hmode⟩

theorem barFree_list {es : List SExpr} (h : ∀ e ∈ es, e.BarFree) : (SExpr.list es).BarFree := by
  intro a ha
  obtain ⟨e, he, ha⟩ := SExpr.mem_atomsAll.1 ha
  exact h e he a ha

theorem barFree_of_assemble {outer : List (List SExpr)} {items es : List SExpr} {ts : List Token}
    (houter : ∀ is ∈ outer, ∀ e ∈ is, e.BarFree) (hitems : ∀ e ∈ items, e.BarFree)
    (hts : ∀ t ∈ ts, t.BarFree) (h : assemble outer items ts = .ok es) : ∀ e ∈ es, e.BarFree := by
  induction ts generalizing outer items with
  | nil =>
    cases outer with
    | nil =>
      cases h
      simpa using hitems
    | cons => cases h
  | cons t ts ih =>
    obtain ⟨ht, hts'⟩ := List.forall_mem_cons.1 hts
    cases t with
    | opening => exact ih (List.forall_mem_cons.2 ⟨hitems, houter⟩) (List.forall_mem_nil _) hts' h
    | leaf e => exact ih houter (List.forall_mem_cons.2 ⟨ht, hitems⟩) hts' h
    | fault cause => cases h
    | closing =>
      cases outer with
      | nil => cases h
      | cons around outer =>
        obtain ⟨haround, houter⟩ := List.forall_mem_cons.1 houter
        refine ih houter (List.forall_mem_cons.2 ⟨barFree_list ?_, haround⟩) hts' h
        simpa using hitems

/-- No atom that is read contains a bar. -/
theorem barFree_of_readAll {text : String} {es : List SExpr} (h : readAll text = .ok es) :
    ∀ e ∈ es, e.BarFree :=
  barFree_of_assemble (List.forall_mem_nil _) (List.forall_mem_nil _)
    (barFree_tokens (m := .between) trivial _) h

end Obligations.Solver
