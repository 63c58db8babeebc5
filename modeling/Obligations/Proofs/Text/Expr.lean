import Obligations.Expr.Printer
import Obligations.Proofs.Expr.Functions
import Obligations.Proofs.Text.Word

/-!
# Reading the text of an expression

The text of an expression starts with a word, a number or the sign of an operator (`lead`), which a
parenthesis, a comma, a space or the end of the text follows. Without a parenthesis the expression
is a constant or a name; with one, the word or the sign tells which operator or function is applied,
and each operand ends where its delimiter stands (`text_append_inj`). So an expression is told by
its text (`text_eq_iff`), except that a call without arguments looks like a call with the empty name
for its only argument (`text_ambiguous_call`).
-/

namespace Obligations

/-- The name can be told from the constants and from `old`. -/
structure Name.IsIdentifier (n : Name) : Prop where
  word : n.IsWord
  start : ∀ c ∈ n.text.toList.head?, c.isDigit = false
  ne_true : n.text ≠ "true"
  ne_false : n.text ≠ "false"
  ne_old : n.text ≠ "old"

theorem Name.isIdentifier_iff {n : Name} : n.IsIdentifier ↔
    (n.IsWord ∧ ∀ c ∈ n.text.toList.head?, c.isDigit = false) ∧
      n.text ≠ "true" ∧ n.text ≠ "false" ∧ n.text ≠ "old" :=
  ⟨fun h => ⟨⟨h.word, h.start⟩, h.ne_true, h.ne_false, h.ne_old⟩,
    fun h => ⟨h.1.1, h.1.2, h.2.1, h.2.2.1, h.2.2.2⟩⟩

instance : DecidablePred Name.IsIdentifier := fun _ => decidable_of_iff _ Name.isIdentifier_iff.symm

theorem Name.isIdentifier_empty : Name.IsIdentifier ⟨""⟩ := by decide

/-! ## Numbers -/

namespace Text

/-- The characters of the text of an integer. -/
def isSigned (c : Char) : Bool := c.isDigit || c = '-'

theorem toList_toString_int (i : Int) :
    ∃ c cs, (toString i).toList = c :: cs ∧ ∀ d ∈ c :: cs, isSigned d = true := by
  have hdigits : ∀ n : Nat, ∀ c ∈ (toString n).toList, isSigned c = true := fun n c hc => by
    simp [isSigned, isDigit_of_mem_toString hc]
  cases i with
  | ofNat n =>
    have htext : (toString (Int.ofNat n)).toList = (toString n).toList := rfl
    cases hcs : (toString n).toList with
    | nil => simp [Nat.toString_eq_repr, Nat.toList_repr, Nat.toDigits_ne_nil] at hcs
    | cons c cs => exact ⟨c, cs, htext.trans hcs, hcs ▸ hdigits n⟩
  | negSucc n =>
    refine ⟨'-', (toString (n + 1)).toList, by simp [Int.toString_eq_repr, Int.repr], ?_⟩
    exact List.forall_mem_cons.2 ⟨by decide, hdigits (n + 1)⟩

theorem isSigned_of_mem_toString {i : Int} : ∀ c ∈ (toString i).toList, isSigned c = true := by
  obtain ⟨c, cs, htext, hsigned⟩ := toList_toString_int i
  rw [htext]
  exact hsigned

/-- An integer is told by its text. -/
theorem toString_int_inj {i j : Int} (h : (toString i).toList = (toString j).toList) : i = j := by
  have hneg : ∀ n : Nat, (toString (Int.negSucc n)).toList = '-' :: (toString (n + 1)).toList :=
    fun n => by simp [Int.toString_eq_repr, Int.repr]
  have hminus : ∀ m n : Nat, (toString m).toList ≠ '-' :: (toString (n + 1)).toList := by
    intro m n h
    have hdigit := isDigit_of_mem_toString (n := m) (h ▸ List.mem_cons_self)
    exact absurd hdigit (by decide)
  cases i with
  | ofNat m =>
    cases j with
    | ofNat n => exact congrArg Int.ofNat (toString_nat_inj h)
    | negSucc n => exact absurd (h.trans (hneg n)) (hminus m n)
  | negSucc m =>
    cases j with
    | ofNat n => exact absurd (h.symm.trans (hneg m)) (hminus n m)
    | negSucc n =>
      rw [hneg, hneg] at h
      have hsucc := toString_nat_inj (List.cons.inj h).2
      rw [Nat.succ.inj hsucc]

/-- The text of an integer is not confused with a text that starts otherwise. -/
theorem toString_int_append_ne {i : Int} {r s : List Char}
    (hs : ∀ c ∈ s.head?, isSigned c = false) :
    (toString i).toList ++ r ≠ s := by
  obtain ⟨c, cs, htext, hsigned⟩ := toList_toString_int i
  rintro rfl
  have hc := hs c (by rw [htext]; rfl)
  exact absurd (hsigned c List.mem_cons_self) (by simp [hc])

end Text

/-! ## Constants and names -/

/-- Bit vectors show their width after the value, so that they are told from integers. -/
theorem Literal.toList_text_bv (width : Nat) (value : Int) :
    (bv width value).text.toList =
      (toString value).toList ++ 'b' :: 'v' :: (toString width).toList := by
  simp [text]

/-- A constant is told by its text. -/
theorem Literal.text_inj {v w : Literal} (h : v.text.toList = w.text.toList) : v = w := by
  -- A truth value starts with a letter and an integer does not, and behind the value of a bit
  -- vector comes its width.
  have hbool : ∀ (b : Bool) (i : Int) (r : List Char),
      (bool b).text.toList ≠ (toString i).toList ++ r := fun b i r h =>
    Text.toString_int_append_ne (s := (bool b).text.toList) (by cases b <;> decide) h.symm
  have hint : ∀ (i j : Int) (width : Nat), (int i).text.toList ≠ (bv width j).text.toList := by
    intro i j width h
    rw [toList_text_bv] at h
    have hrest := (Text.append_inj_of_class (r := []) Text.isSigned_of_mem_toString
      Text.isSigned_of_mem_toString (by simp) (by simp; decide) ((List.append_nil _).trans h)).2
    exact absurd hrest (List.cons_ne_nil _ _).symm
  cases v with
  | bool b =>
    cases w with
    | bool b' =>
      cases b <;> cases b'
      · rfl
      · exact absurd h (by decide)
      · exact absurd h (by decide)
      · rfl
    | int i => exact absurd (h.trans (List.append_nil _).symm) (hbool b i [])
    | bv width i => exact absurd (h.trans (toList_text_bv width i)) (hbool b i _)
  | int i =>
    cases w with
    | bool b => exact absurd (h.symm.trans (List.append_nil _).symm) (hbool b i [])
    | int j => rw [Text.toString_int_inj h]
    | bv width j => exact absurd h (hint i j width)
  | bv width i =>
    cases w with
    | bool b => exact absurd (h.symm.trans (toList_text_bv width i)) (hbool b i _)
    | int j => exact absurd h.symm (hint j i width)
    | bv width' j =>
      rw [toList_text_bv, toList_text_bv] at h
      obtain ⟨hvalue, hwidth⟩ := Text.append_inj_of_class Text.isSigned_of_mem_toString
        Text.isSigned_of_mem_toString (by simp; decide) (by simp; decide) h
      obtain rfl := Text.toString_int_inj hvalue
      obtain rfl := Text.toString_nat_inj (List.cons.inj (List.cons.inj hwidth).2).2
      rfl

/-- A constant is not confused with a name. -/
theorem Literal.text_ne_of_isIdentifier {n : Name} (hn : n.IsIdentifier) (v : Literal) :
    v.text.toList ≠ n.text.toList := by
  -- A name does not start like a number: neither with a digit nor with a minus.
  have hstart : ∀ c ∈ n.text.toList.head?, Text.isSigned c = false := by
    intro c hc
    have hword := hn.word c (List.mem_of_mem_head? hc)
    have hminus : c ≠ '-' := by
      rintro rfl
      exact absurd hword (by decide)
    simp [Text.isSigned, hn.start c hc, hminus]
  cases v with
  | bool b =>
    intro h
    cases b
    · exact hn.ne_false (String.toList_inj.1 h.symm)
    · exact hn.ne_true (String.toList_inj.1 h.symm)
  | int i => exact fun h => Text.toString_int_append_ne hstart ((List.append_nil _).trans h)
  | bv width i =>
    rw [toList_text_bv]
    exact Text.toString_int_append_ne hstart

namespace Expr

/-! ## How a text starts and goes on -/

/-- What stands before the first parenthesis of the text of an expression. -/
def lead : Expr → List Char
  | literal v => v.text.toList
  | symbol n => n.text.toList
  | old _ => "old".toList
  | unary op _ => op.text.toList
  | binary _ _ _ => []
  | apply f _ => f.text.toList

/-- The first parenthesis of the text of an expression and what follows it. -/
def afterLead : Expr → List Char
  | literal _ | symbol _ => []
  | old a | unary _ a => '(' :: (a.text.toList ++ [')'])
  | binary op a b =>
    '(' :: (a.text.toList ++ ' ' :: (op.text.toList ++ ' ' :: (b.text.toList ++ [')'])))
  | apply _ args => '(' :: ((commaSeparated (texts args)).toList ++ [')'])

theorem toList_text (e : Expr) : e.text.toList = e.lead ++ e.afterLead := by
  cases e <;> simp [text, lead, afterLead]

/-- What the operands after the first one add to the text of a call. -/
def moreText : List Expr → List Char
  | [] => []
  | a :: as => ',' :: ' ' :: (a.text.toList ++ moreText as)

theorem toList_commaSeparated (a : Expr) (as : List Expr) :
    (commaSeparated (texts (a :: as))).toList = a.text.toList ++ moreText as := by
  induction as generalizing a with
  | nil => simp [commaSeparated, texts, moreText]
  | cons b as ih =>
    rw [texts, texts, commaSeparated, String.intercalate_cons_cons, String.toList_append,
      String.toList_append]
    have hrest : (", ".intercalate (b.text :: texts as)).toList = b.text.toList ++ moreText as :=
      ih b
    rw [hrest, List.append_assoc]
    rfl

/-- The characters that end a word, a number or a sign. -/
def IsDelimiter (c : Char) : Prop := c = '(' ∨ c = ')' ∨ c = ',' ∨ c = ' '

instance : DecidablePred IsDelimiter := fun _ => inferInstanceAs (Decidable (_ ∨ _))

/-- The text of an operand ends here: nothing follows, or a delimiter does that opens nothing. -/
def Ends (r : List Char) : Prop := ∀ c ∈ r.head?, c = ')' ∨ c = ',' ∨ c = ' '

theorem Ends.nil : Ends [] := by
  rintro c ⟨⟩

theorem Ends.close (r : List Char) : Ends (')' :: r) := by
  rintro c ⟨⟩
  exact .inl rfl

theorem Ends.space (r : List Char) : Ends (' ' :: r) := by
  rintro c ⟨⟩
  exact .inr (.inr rfl)

variable {e e' a : Expr} {f : Name} {as bs : List Expr} {r s : List Char}

theorem ends_moreText_append (as : List Expr) (hr : Ends r) : Ends (moreText as ++ r) := by
  cases as with
  | nil => exact hr
  | cons a as =>
    rintro c ⟨⟩
    exact .inr (.inl rfl)

theorem not_ends_afterLead {r : List Char} : ¬ Ends ('(' :: r) := fun h => by
  rcases h '(' rfl with h | h | h <;> exact absurd h (by decide)

/-! ## Expressions that can be read back -/

/-- The names in the expression can be told from constants and from `old`, and no function is
applied to the empty name alone. -/
structure IsReadable (e : Expr) : Prop where
  symbols : ∀ n, symbol n ∈ e.subexprs → n.IsIdentifier
  functions : ∀ f args, apply f args ∈ e.subexprs → f.IsIdentifier
  args : ∀ f, apply f [symbol ⟨""⟩] ∉ e.subexprs

theorem IsReadable.mono (h : a.subexprs ⊆ e.subexprs) (he : e.IsReadable) : a.IsReadable :=
  ⟨fun n hn => he.symbols n (h hn), fun f args hf => he.functions f args (h hf),
    fun f hf => he.args f (h hf)⟩

theorem isReadable_empty : (symbol ⟨""⟩).IsReadable where
  symbols n hn := by
    cases List.mem_singleton.1 hn
    exact Name.isIdentifier_empty
  functions f args h := by simp [subexprs] at h
  args f h := by simp [subexprs] at h

theorem IsReadable.operand_old (h : (old a).IsReadable) : a.IsReadable :=
  h.mono (List.subset_cons_self _ _)

theorem IsReadable.operand_unary {op : UnaryOp} (h : (unary op a).IsReadable) : a.IsReadable :=
  h.mono (List.subset_cons_self _ _)

theorem IsReadable.left {op : BinaryOp} {b : Expr} (h : (binary op a b).IsReadable) :
    a.IsReadable :=
  h.mono (List.subset_cons_of_subset _ (List.subset_append_left _ _))

theorem IsReadable.right {op : BinaryOp} {b : Expr} (h : (binary op a b).IsReadable) :
    b.IsReadable :=
  h.mono (List.subset_cons_of_subset _ (List.subset_append_right _ _))

theorem IsReadable.arg (h : (apply f as).IsReadable) (ha : a ∈ as) : a.IsReadable :=
  h.mono (e := apply f as) fun _ hb => List.mem_cons_of_mem _ (mem_subexprsAll.2 ⟨a, ha, hb⟩)

theorem IsReadable.function (h : (apply f as).IsReadable) : f.IsIdentifier :=
  h.functions f as (List.mem_cons_self ..)

theorem IsReadable.args_ne (h : (apply f as).IsReadable) : as ≠ [symbol ⟨""⟩] := by
  rintro rfl
  exact h.args f (List.mem_cons_self ..)

theorem IsReadable.name {n : Name} (h : (symbol n).IsReadable) : n.IsIdentifier :=
  h.symbols n (List.mem_cons_self ..)

/-! ## The expression that a text starts with -/

theorem notDelimiter_of_isIdentifier {n : Name} (hn : n.IsIdentifier) :
    ∀ c ∈ n.text.toList, ¬ IsDelimiter c := by
  rintro c hc (rfl | rfl | rfl | rfl) <;> exact absurd (hn.word _ hc) (by decide)

theorem notDelimiter_of_isSigned {c : Char} (h : Text.isSigned c = true) : ¬ IsDelimiter c := by
  rintro (rfl | rfl | rfl | rfl) <;> exact absurd h (by decide)

theorem notDelimiter_unaryOp (op : UnaryOp) : ∀ c ∈ op.text.toList, ¬ IsDelimiter c := by
  cases op <;> decide

theorem notDelimiter_binaryOp (op : BinaryOp) : ∀ c ∈ op.text.toList, ¬ IsDelimiter c := by
  cases op <;> decide

theorem notDelimiter_lead (he : e.IsReadable) : ∀ c ∈ e.lead, ¬ IsDelimiter c := by
  cases e with
  | symbol n => exact notDelimiter_of_isIdentifier he.name
  | apply f args => exact notDelimiter_of_isIdentifier he.function
  | old a => exact show ∀ c ∈ "old".toList, ¬ IsDelimiter c by decide
  | unary op a => exact notDelimiter_unaryOp op
  | binary op a b => exact fun c hc => absurd hc List.not_mem_nil
  | literal v =>
    cases v with
    | bool b => cases b <;> decide
    | int i => exact fun c hc => notDelimiter_of_isSigned (Text.isSigned_of_mem_toString c hc)
    | bv width i =>
      have hbv : ∀ c ∈ ['b', 'v'], ¬ IsDelimiter c := by decide
      have hdigit : ∀ c ∈ (toString width).toList, ¬ IsDelimiter c := fun c hc =>
        notDelimiter_of_isSigned (by simp [Text.isSigned, Text.isDigit_of_mem_toString hc])
      intro c hc
      rw [lead, Literal.toList_text_bv] at hc
      rcases List.mem_append.1 hc with hc | hc
      · exact notDelimiter_of_isSigned (Text.isSigned_of_mem_toString c hc)
      · rcases List.mem_append.1 (show c ∈ ['b', 'v'] ++ _ from hc) with hc | hc
        · exact hbv c hc
        · exact hdigit c hc

theorem isDelimiter_afterLead (e : Expr) (hr : Ends r) :
    ∀ c ∈ (e.afterLead ++ r).head?, ¬ ¬ IsDelimiter c := by
  have hends : ∀ c ∈ r.head?, ¬ ¬ IsDelimiter c := fun c hc => not_not.2 (.inr (hr c hc))
  cases e with
  | literal _ | symbol _ => exact hends
  | old _ | unary _ _ | binary _ _ _ | apply _ _ =>
    rintro c ⟨⟩
    exact not_not.2 (.inl rfl)

/-- Two equal texts that start with an expression agree up to the first parenthesis. -/
theorem lead_inj (he : e.IsReadable) (he' : e'.IsReadable) (hr : Ends r) (hs : Ends s)
    (h : e.text.toList ++ r = e'.text.toList ++ s) :
    e.lead = e'.lead ∧ e.afterLead ++ r = e'.afterLead ++ s := by
  rw [toList_text, toList_text, List.append_assoc, List.append_assoc] at h
  exact Text.append_inj_of_class (notDelimiter_lead he) (notDelimiter_lead he')
    (isDelimiter_afterLead e hr) (isDelimiter_afterLead e' hs) h

/-- The expression is a constant or a name: its text has no parenthesis. -/
def IsLeaf : Expr → Prop
  | literal _ | symbol _ => True
  | _ => False

theorem exists_afterLead_of_not_isLeaf (h : ¬ e.IsLeaf) : ∃ cs, e.afterLead = '(' :: cs := by
  cases e with
  | literal _ | symbol _ => exact absurd trivial h
  | old _ | unary _ _ | binary _ _ _ | apply _ _ => exact ⟨_, rfl⟩

theorem afterLead_of_isLeaf (h : e.IsLeaf) : e.afterLead = [] := by
  cases e with
  | literal _ | symbol _ => rfl
  | old _ | unary _ _ | binary _ _ _ | apply _ _ => exact h.elim

/-- Constants and names are told by their texts. -/
theorem eq_of_lead_of_isLeaf (hleaf : e.IsLeaf) (hleaf' : e'.IsLeaf) (he : e.IsReadable)
    (he' : e'.IsReadable) (h : e.lead = e'.lead) : e = e' := by
  cases e with
  | literal v =>
    cases e' with
    | literal w => rw [Literal.text_inj h]
    | symbol n => exact absurd h (Literal.text_ne_of_isIdentifier he'.name v)
    | old _ | unary _ _ | binary _ _ _ | apply _ _ => exact hleaf'.elim
  | symbol n =>
    cases e' with
    | literal w => exact absurd h.symm (Literal.text_ne_of_isIdentifier he.name w)
    | symbol m => rw [Name.eq_of_toList h]
    | old _ | unary _ _ | binary _ _ _ | apply _ _ => exact hleaf'.elim
  | old _ | unary _ _ | binary _ _ _ | apply _ _ => exact hleaf.elim

/-- A text that starts with a constant or a name starts with no other expression. -/
theorem text_append_inj_of_isLeaf (hleaf : e.IsLeaf) (he : e.IsReadable) (he' : e'.IsReadable)
    (hr : Ends r) (hs : Ends s) (h : e.text.toList ++ r = e'.text.toList ++ s) :
    e = e' ∧ r = s := by
  obtain ⟨hlead, hrest⟩ := lead_inj he he' hr hs h
  rw [afterLead_of_isLeaf hleaf, List.nil_append] at hrest
  by_cases hleaf' : e'.IsLeaf
  · rw [afterLead_of_isLeaf hleaf', List.nil_append] at hrest
    exact ⟨eq_of_lead_of_isLeaf hleaf hleaf' he he' hlead, hrest⟩
  · obtain ⟨cs, hcs⟩ := exists_afterLead_of_not_isLeaf hleaf'
    rw [hrest, hcs] at hr
    exact absurd hr not_ends_afterLead

/-- Only the empty name leaves no trace in a text. -/
theorem eq_empty_of_text_append (he : e.IsReadable) (hr : Ends r) (hs : Ends s)
    (h : e.text.toList ++ r = s) : e = symbol ⟨""⟩ ∧ r = s := by
  obtain ⟨heq, hrest⟩ := text_append_inj_of_isLeaf (e := symbol ⟨""⟩) trivial isReadable_empty he
    hs hr h.symm
  exact ⟨heq.symm, hrest.symm⟩

/-! ## The operator at the root -/

theorem not_isLeaf_of_afterLead {cs : List Char} (hs : Ends s) (h : '(' :: cs = e.afterLead ++ s) :
    ¬ e.IsLeaf := fun hleaf => by
  rw [afterLead_of_isLeaf hleaf, List.nil_append] at h
  exact not_ends_afterLead (h ▸ hs)

/-- The signs of operators on one operand are told apart and are no words. -/
theorem unaryOp_text_inj {op op' : UnaryOp} (h : op.text.toList = op'.text.toList) : op = op' := by
  cases op <;> cases op' <;> first | rfl | exact absurd h (by decide)

theorem unaryOp_text_ne {op : UnaryOp} {cs : List Char} (h : ∀ c ∈ cs, Text.isWordChar c = true) :
    op.text.toList ≠ cs := by
  rintro rfl
  cases op <;> exact absurd h (by decide)

/-- The signs of operators on two operands are told apart. -/
theorem binaryOp_text_inj {op op' : BinaryOp} (h : op.text.toList = op'.text.toList) :
    op = op' := by
  cases op <;> cases op' <;> first | rfl | exact absurd h (by decide)

theorem exists_old_of_lead (he : e.IsReadable) (hleaf : ¬ e.IsLeaf) (h : "old".toList = e.lead) :
    ∃ a, e = old a := by
  cases e with
  | old a => exact ⟨a, rfl⟩
  | literal _ | symbol _ => exact absurd trivial hleaf
  | unary op a => exact absurd h.symm (unaryOp_text_ne (by decide))
  | binary op a b => exact absurd h (by simp [lead])
  | apply f args => exact absurd (String.toList_inj.1 h.symm) he.function.ne_old

theorem exists_unary_of_lead {op : UnaryOp} (he : e.IsReadable) (hleaf : ¬ e.IsLeaf)
    (h : op.text.toList = e.lead) : ∃ a, e = unary op a := by
  cases e with
  | literal _ | symbol _ => exact absurd trivial hleaf
  | old a => exact absurd h (unaryOp_text_ne (show ∀ c ∈ "old".toList, _ by decide))
  | unary op' a => exact ⟨a, by rw [unaryOp_text_inj h]⟩
  | binary op' a b => exact absurd h (unaryOp_text_ne (List.forall_mem_nil _))
  | apply f args => exact absurd h (unaryOp_text_ne he.function.word)

/-- Nothing stands before the first parenthesis of an operator between two operands, nor of an
application of the empty name. -/
theorem exists_binary_or_apply_of_lead (hleaf : ¬ e.IsLeaf) (h : [] = e.lead) :
    (∃ op a b, e = binary op a b) ∨ ∃ args, e = apply ⟨""⟩ args := by
  cases e with
  | literal _ | symbol _ => exact absurd trivial hleaf
  | old a => exact absurd h (by simp [lead])
  | unary op a => exact absurd h.symm (unaryOp_text_ne (List.forall_mem_nil _))
  | binary op a b => exact .inl ⟨op, a, b, rfl⟩
  | apply f args =>
    obtain rfl : f = ⟨""⟩ := Name.eq_of_toList h.symm
    exact .inr ⟨args, rfl⟩

theorem exists_apply_of_lead (hf : f.IsIdentifier) (hleaf : ¬ e.IsLeaf)
    (h : f.text.toList = e.lead) :
    (∃ args, e = apply f args) ∨ f = ⟨""⟩ ∧ ∃ op a b, e = binary op a b := by
  cases e with
  | literal _ | symbol _ => exact absurd trivial hleaf
  | old a => exact absurd (String.toList_inj.1 h) hf.ne_old
  | unary op a => exact absurd h.symm (unaryOp_text_ne hf.word)
  | binary op a b => exact .inr ⟨Name.eq_of_toList h, op, a, b, rfl⟩
  | apply g args =>
    obtain rfl := Name.eq_of_toList h
    exact .inl ⟨args, rfl⟩

/-! ## Operands -/

/-- What follows the first operand of a call is not what follows that of an operator. -/
theorem moreText_append_ne (as : List Expr) : moreText as ++ ')' :: r ≠ ' ' :: s := by
  cases as with
  | nil => exact fun h => absurd (List.cons.inj h).1 (by decide)
  | cons a as => exact fun h => absurd (List.cons.inj h).1 (by decide)

/-- The text of the operands of a call, with what follows it. -/
theorem afterLead_apply_nil : (apply f []).afterLead ++ r = '(' :: ')' :: r := rfl

theorem afterLead_apply_cons :
    (apply f (a :: as)).afterLead ++ r = '(' :: (a.text.toList ++ (moreText as ++ ')' :: r)) := by
  rw [afterLead, toList_commaSeparated]
  simp

theorem afterLead_binary {op : BinaryOp} {b : Expr} :
    (binary op a b).afterLead ++ r =
      '(' :: (a.text.toList ++ ' ' :: (op.text.toList ++ ' ' :: (b.text.toList ++ ')' :: r))) := by
  simp [afterLead]

theorem afterLead_old : (old a).afterLead ++ r = '(' :: (a.text.toList ++ ')' :: r) := by
  simp [afterLead]

theorem afterLead_unary {op : UnaryOp} :
    (unary op a).afterLead ++ r = '(' :: (a.text.toList ++ ')' :: r) := by
  simp [afterLead]

/-- A call without operands is not confused with one that has operands. -/
theorem afterLead_apply_nil_ne (he : (apply f (a :: as)).IsReadable) :
    ')' :: r ≠ a.text.toList ++ (moreText as ++ ')' :: s) := by
  intro h
  obtain ⟨rfl, hrest⟩ := eq_empty_of_text_append (he.arg List.mem_cons_self)
    (ends_moreText_append as (.close _)) (.close _) h.symm
  cases as with
  | nil => exact he.args_ne rfl
  | cons b bs => exact absurd (List.cons.inj hrest).1 (by decide)

/-- Nor with an operator between two operands. -/
theorem afterLead_binary_ne (ha : a.IsReadable) :
    ')' :: r ≠ a.text.toList ++ ' ' :: s := by
  intro h
  have hrest := (eq_empty_of_text_append ha (.space _) (.close _) h.symm).2
  exact absurd (List.cons.inj hrest).1 (by decide)

/- Induction on the first expression. It is generalized over what follows the two texts, because an
operand is followed by its delimiter and by the other operands. -/
mutual

/-- Two equal texts that start with an expression start with the same expression. -/
theorem text_append_inj : ∀ (e : Expr) {e' : Expr} {r s : List Char}, e.IsReadable →
    e'.IsReadable → Ends r → Ends s → e.text.toList ++ r = e'.text.toList ++ s → e = e' ∧ r = s
  | literal v, e', r, s, he, he', hr, hs, h =>
    text_append_inj_of_isLeaf trivial he he' hr hs h
  | symbol n, e', r, s, he, he', hr, hs, h =>
    text_append_inj_of_isLeaf trivial he he' hr hs h
  | old a, e', r, s, he, he', hr, hs, h => by
    obtain ⟨hlead, hrest⟩ := lead_inj he he' hr hs h
    rw [afterLead_old] at hrest
    obtain ⟨a', rfl⟩ := exists_old_of_lead he' (not_isLeaf_of_afterLead hs hrest) hlead
    rw [afterLead_old] at hrest
    obtain ⟨rfl, hclose⟩ := text_append_inj a he.operand_old he'.operand_old (.close _) (.close _)
      (List.cons.inj hrest).2
    exact ⟨rfl, (List.cons.inj hclose).2⟩
  | unary op a, e', r, s, he, he', hr, hs, h => by
    obtain ⟨hlead, hrest⟩ := lead_inj he he' hr hs h
    rw [afterLead_unary] at hrest
    obtain ⟨a', rfl⟩ := exists_unary_of_lead he' (not_isLeaf_of_afterLead hs hrest) hlead
    rw [afterLead_unary] at hrest
    obtain ⟨rfl, hclose⟩ := text_append_inj a he.operand_unary he'.operand_unary (.close _)
      (.close _) (List.cons.inj hrest).2
    exact ⟨rfl, (List.cons.inj hclose).2⟩
  | binary op a b, e', r, s, he, he', hr, hs, h => by
    obtain ⟨hlead, hrest⟩ := lead_inj he he' hr hs h
    rw [afterLead_binary] at hrest
    rcases exists_binary_or_apply_of_lead (not_isLeaf_of_afterLead hs hrest) hlead with
      ⟨op', a', b', rfl⟩ | ⟨args, rfl⟩
    · rw [afterLead_binary] at hrest
      obtain ⟨rfl, hop⟩ := text_append_inj a he.left he'.left (.space _) (.space _)
        (List.cons.inj hrest).2
      obtain ⟨hsign, hright⟩ := Text.append_inj_of_class (notDelimiter_binaryOp op)
        (notDelimiter_binaryOp op') (by simp [IsDelimiter]) (by simp [IsDelimiter])
        (List.cons.inj hop).2
      obtain rfl := binaryOp_text_inj hsign
      obtain ⟨rfl, hclose⟩ := text_append_inj b he.right he'.right (.close _) (.close _)
        (List.cons.inj hright).2
      exact ⟨rfl, (List.cons.inj hclose).2⟩
    -- An application of the empty name differs after its first operand.
    · cases args with
      | nil => exact absurd (List.cons.inj hrest).2.symm (afterLead_binary_ne he.left)
      | cons a' as =>
        rw [afterLead_apply_cons] at hrest
        have hmore := (text_append_inj a he.left (he'.arg List.mem_cons_self) (.space _)
          (ends_moreText_append as (.close _)) (List.cons.inj hrest).2).2
        exact absurd hmore.symm (moreText_append_ne as)
  | apply f args, e', r, s, he, he', hr, hs, h => by
    obtain ⟨hlead, hrest⟩ := lead_inj he he' hr hs h
    have hleaf' : ¬ e'.IsLeaf := not_isLeaf_of_afterLead hs hrest
    rcases exists_apply_of_lead he.function hleaf' hlead with
      ⟨args', rfl⟩ | ⟨rfl, op', a', b', rfl⟩
    · cases args with
      | nil =>
        cases args' with
        | nil => exact ⟨rfl, (List.cons.inj (List.cons.inj hrest).2).2⟩
        | cons a' as' =>
          rw [afterLead_apply_nil, afterLead_apply_cons] at hrest
          exact absurd (List.cons.inj hrest).2 (afterLead_apply_nil_ne he')
      | cons a as =>
        rw [afterLead_apply_cons] at hrest
        cases args' with
        | nil => exact absurd (List.cons.inj hrest).2.symm (afterLead_apply_nil_ne he)
        | cons a' as' =>
          rw [afterLead_apply_cons] at hrest
          obtain ⟨rfl, hmore⟩ := text_append_inj a (he.arg List.mem_cons_self)
            (he'.arg List.mem_cons_self) (ends_moreText_append as (.close _))
            (ends_moreText_append as' (.close _)) (List.cons.inj hrest).2
          obtain ⟨rfl, rfl⟩ := moreText_append_inj as
            (fun b hb => he.arg (List.mem_cons_of_mem _ hb))
            (fun b hb => he'.arg (List.mem_cons_of_mem _ hb)) hmore
          exact ⟨rfl, rfl⟩
    · rw [afterLead_binary] at hrest
      cases args with
      | nil => exact absurd (List.cons.inj hrest).2 (afterLead_binary_ne he'.left)
      | cons a as =>
        rw [afterLead_apply_cons] at hrest
        have hmore := (text_append_inj a (he.arg List.mem_cons_self) he'.left
          (ends_moreText_append as (.close _)) (.space _) (List.cons.inj hrest).2).2
        exact absurd hmore (moreText_append_ne as)

/-- Two calls that go on with the same text go on with the same operands. -/
theorem moreText_append_inj : ∀ (as : List Expr) {bs : List Expr} {r s : List Char},
    (∀ a ∈ as, a.IsReadable) → (∀ b ∈ bs, b.IsReadable) →
    moreText as ++ ')' :: r = moreText bs ++ ')' :: s → as = bs ∧ r = s
  | [], [], r, s, _, _, h => ⟨rfl, (List.cons.inj h).2⟩
  | [], b :: bs, r, s, _, _, h => absurd (List.cons.inj h).1 (by decide)
  | a :: as, [], r, s, _, _, h => absurd (List.cons.inj h).1 (by decide)
  | a :: as, b :: bs, r, s, hleft, hright, h => by
    obtain ⟨ha, has⟩ := List.forall_mem_cons.1 hleft
    obtain ⟨hb, hbs⟩ := List.forall_mem_cons.1 hright
    simp only [moreText, List.cons_append, List.append_assoc, List.cons.injEq, true_and] at h
    obtain ⟨rfl, hmore⟩ := text_append_inj a ha hb (ends_moreText_append as (.close _))
      (ends_moreText_append bs (.close _)) h
    obtain ⟨rfl, rfl⟩ := moreText_append_inj as has hbs hmore
    exact ⟨rfl, rfl⟩

end

/-! ## Expressions are told by their texts -/

/-- Of two expressions whose names can be told from the constants and from `old`, and in which no
function is applied to the empty name alone, only equal ones have the same text. -/
theorem text_eq_iff (he : e.IsReadable) (he' : e'.IsReadable) : e.text = e'.text ↔ e = e' := by
  refine ⟨fun h => ?_, congrArg text⟩
  have hlists : e.text.toList ++ [] = e'.text.toList ++ [] := by rw [h]
  exact (text_append_inj e he he' .nil .nil hlists).1

/-- `f(old(x@0), b)` is compared with a bit vector. -/
def equation (value : Expr) : Expr :=
  binary .eq (apply ⟨"f"⟩ [old (symbol ⟨"x@0"⟩), symbol ⟨"b"⟩]) value

theorem isReadable_equation {value : Expr} (hvalue : value.IsReadable) :
    (equation value).IsReadable where
  symbols n hn := by
    have hn : n = ⟨"x@0"⟩ ∨ n = ⟨"b"⟩ ∨ symbol n ∈ value.subexprs := by
      simpa [equation, subexprs, subexprsAll] using hn
    rcases hn with rfl | rfl | hn
    · decide
    · decide
    · exact hvalue.symbols n hn
  functions g args hg := by
    have hg : g = ⟨"f"⟩ ∧ args = [old (symbol ⟨"x@0"⟩), symbol ⟨"b"⟩] ∨
        apply g args ∈ value.subexprs := by
      simpa [equation, subexprs, subexprsAll] using hg
    rcases hg with ⟨rfl, -⟩ | hg
    · decide
    · exact hvalue.functions g args hg
  args g hg := by
    have hg : apply g [symbol ⟨""⟩] ∈ value.subexprs := by
      simpa [equation, subexprs, subexprsAll] using hg
    exact hvalue.args g hg

/-- `(f(old(x@0), b) == -3bv8)` and `(f(old(x@0), b) == -(3bv8))` are told apart. -/
theorem text_eq_iff_negative :
    (equation (literal (.bv 8 (-3)))).IsReadable ∧
      (equation (unary .neg (literal (.bv 8 3)))).IsReadable ∧
      ((equation (literal (.bv 8 (-3)))).text =
          (equation (unary .neg (literal (.bv 8 3)))).text ↔
        equation (literal (.bv 8 (-3))) = equation (unary .neg (literal (.bv 8 3)))) := by
  have hliteral : (literal (.bv 8 (-3))).IsReadable :=
    ⟨by simp [subexprs], by simp [subexprs], by simp [subexprs]⟩
  have hneg : (unary .neg (literal (.bv 8 3))).IsReadable :=
    ⟨by simp [subexprs], by simp [subexprs], by simp [subexprs]⟩
  exact ⟨isReadable_equation hliteral, isReadable_equation hneg,
    text_eq_iff (isReadable_equation hliteral) (isReadable_equation hneg)⟩

/-- A call without arguments looks like a call with the empty name for its only argument. -/
theorem text_ambiguous_call :
    (∀ n ∈ [⟨"f"⟩, ⟨""⟩], Name.IsIdentifier n) ∧
      apply ⟨"f"⟩ [] ≠ apply ⟨"f"⟩ [symbol ⟨""⟩] ∧
      (apply ⟨"f"⟩ []).text = (apply ⟨"f"⟩ [symbol ⟨""⟩]).text := by
  decide

end Expr

end Obligations
