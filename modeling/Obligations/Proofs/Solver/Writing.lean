import Obligations.Proofs.Outcome
import Obligations.Proofs.Solver.Reading
import Obligations.Solver.Script
import Obligations.Text.Numeral

/-!
# Texts that are written

What names, numbers and lists are written as is read as one expression wherever it stands before a
delimiter (`Shows`). A name is read as an atom with exactly its text if it contains no bar, be it
written bare or between bars (`shows_symbolText`).
-/

namespace Obligations.Solver

/-- The text is read as the given tokens wherever it stands before a delimiter. -/
def Shows (ts : List Token) (text : String) : Prop :=
  ∀ rest, Ends rest → tokens .between (text.toList ++ rest) = ts ++ tokens .between rest

/-- Texts that are read as one expression each. -/
abbrev ShowsEach (es : List SExpr) (texts : List String) : Prop :=
  List.Forall₂ (fun (e : SExpr) text => Shows e.tokens text) es texts

theorem ends_nil : Ends [] := nofun

theorem ends_cons {c : Char} (h : isDelimiter c = true) (rest : List Char) : Ends (c :: rest) := by
  rintro _ ⟨⟩
  exact h

/-- What is shown is read. -/
theorem Shows.readAll_eq {es : List SExpr} {text : String} (h : Shows (SExpr.tokensAll es) text) :
    readAll text = .ok es := by
  refine readAll_of_tokens ?_
  have htokens := h [] ends_nil
  rwa [List.append_nil, tokens, Solver.finish, List.append_nil] at htokens

/-! ## Atoms -/

section

variable {cs : List Char} {text : String}

/-- A text without delimiters is an atom. -/
theorem shows_bare (hne : text.toList ≠ []) (hcs : ∀ c ∈ text.toList, isDelimiter c = false) :
    Shows (SExpr.atom text).tokens text := by
  intro rest hrest
  have hwritten := tokens_written (.bare hne hcs hrest)
  rwa [String.ofList_toList] at hwritten

/-- Whether `text` is an atom as it stands. -/
def isWord (text : String) : Bool :=
  !text.toList.isEmpty && text.toList.all fun c => !isDelimiter c

theorem shows_word (h : isWord text = true) : Shows (SExpr.atom text).tokens text := by
  simp only [isWord, Bool.and_eq_true, Bool.not_eq_true', List.isEmpty_eq_false_iff,
    List.all_eq_true] at h
  exact shows_bare h.1 h.2

/-- Digits and letters are no delimiters. -/
theorem isDelimiter_of_toNat {c : Char} (h : 48 ≤ c.toNat ∧ c.toNat ≤ 57 ∨
    65 ≤ c.toNat ∧ c.toNat ≤ 90 ∨ 97 ≤ c.toNat ∧ c.toNat ≤ 122) : isDelimiter c = false := by
  have hblank : Text.isBlank c = false := by
    simp [Text.isBlank, Text.blankRanges]
    omega
  have hne : ∀ d ∈ ['(', ')', ';', '"', '|'], c ≠ d := by
    rintro d hd rfl
    simp only [List.mem_cons, List.not_mem_nil, or_false] at hd
    rcases hd with rfl | rfl | rfl | rfl | rfl <;> revert h <;> decide
  simp only [List.forall_mem_cons] at hne
  simp [isDelimiter, hblank, hne]

theorem isDelimiter_of_isDigit {c : Char} (h : c.isDigit = true) : isDelimiter c = false := by
  simp only [Char.isDigit, ge_iff_le, UInt32.le_iff_toNat_le, Bool.and_eq_true,
    decide_eq_true_eq] at h
  exact isDelimiter_of_toNat (.inl h)

theorem isDelimiter_of_isSymbolStart {c : Char} (h : isSymbolStart c = true) :
    isDelimiter c = false := by
  rw [isSymbolStart, Bool.or_eq_true] at h
  rcases h with h | h
  · change (decide (c.val ≥ 65 ∧ c.val ≤ 90) || (decide (c.val ≥ 97) && decide (c.val ≤ 122))) =
      true at h
    simp only [ge_iff_le, UInt32.le_iff_toNat_le, Bool.or_eq_true, Bool.and_eq_true,
      decide_eq_true_eq] at h
    exact isDelimiter_of_toNat (.inr h)
  · have hmarks : ("~!@$%^&*_+=<>.?/-".toList.all fun d => !isDelimiter d) = true := by decide
    simpa using List.all_eq_true.1 hmarks c (List.contains_iff_mem.1 h)

theorem isDelimiter_of_isSymbolChar {c : Char} (h : isSymbolChar c = true) :
    isDelimiter c = false := by
  rw [isSymbolChar, Bool.or_eq_true] at h
  exact h.elim isDelimiter_of_isSymbolStart isDelimiter_of_isDigit

/-- A simple symbol has characters, and none that would end it. -/
theorem bare_of_isSimpleSymbol (h : isSimpleSymbol text = true) :
    text.toList ≠ [] ∧ ∀ c ∈ text.toList, isDelimiter c = false := by
  unfold isSimpleSymbol at h
  cases hcs : text.toList with
  | nil => simp [hcs] at h
  | cons c cs =>
    simp only [hcs, Bool.and_eq_true, List.all_eq_true] at h
    obtain ⟨⟨hc, hcs⟩, -⟩ := h
    refine ⟨List.cons_ne_nil _ _, List.forall_mem_cons.2 ⟨isDelimiter_of_isSymbolStart hc, ?_⟩⟩
    exact fun c hc => isDelimiter_of_isSymbolChar (hcs c hc)

/-- A name without a bar is written as an atom with its text. -/
theorem written_symbolText {n : Name} {rest : List Char} (hn : '|' ∉ n.text.toList)
    (hrest : Ends rest) : Written rest (.leaf (.atom n.text)) (symbolText n).toList := by
  have htext : String.ofList n.text.toList = n.text := String.ofList_toList
  unfold symbolText
  split
  · next hsimple =>
    obtain ⟨hne, hcs⟩ := bare_of_isSimpleSymbol hsimple
    have hbare := Written.bare hne hcs hrest
    rwa [htext] at hbare
  · have hbars : Written rest (.leaf (.atom (.ofList n.text.toList)))
        ('|' :: (n.text.toList ++ ['|'])) := .bars hn
    rw [htext] at hbars
    simpa using hbars

theorem shows_symbolText {n : Name} (hn : '|' ∉ n.text.toList) :
    Shows (SExpr.atom n.text).tokens (symbolText n) :=
  fun _ hrest => tokens_written (written_symbolText hn hrest)

end

/-! ## Lists -/

/-- Texts with a blank between them are read in turn. -/
theorem tokens_intercalate {sep : String} {c : Char} (hsep : sep.toList = [c])
    (hc : Text.isBlank c = true) {tss : List (List Token)} {texts : List String}
    (h : List.Forall₂ Shows tss texts) {rest : List Char} (hrest : Ends rest) :
    tokens .between ((sep.intercalate texts).toList ++ rest) =
      tss.flatten ++ tokens .between rest := by
  induction h with
  | nil => rfl
  | @cons ts text tss texts htext htexts ih =>
    cases texts with
    | nil =>
      cases htexts
      simpa using htext rest hrest
    | cons text' texts =>
      have hblank : tokens .between (c :: ((sep.intercalate (text' :: texts)).toList ++ rest)) =
          tss.flatten ++ tokens .between rest := by
        have hstep : step .between c = ([], .between) := by simp [step, enter, hc]
        rw [tokens_skip hstep, ih]
      -- The blank ends the text before it, so this is read by itself.
      have hdelimiter : isDelimiter c = true := by simp [isDelimiter, hc]
      have hfirst := htext _ (ends_cons hdelimiter
        ((sep.intercalate (text' :: texts)).toList ++ rest))
      rw [hblank, ← List.append_assoc] at hfirst
      rw [String.intercalate_cons_cons, List.flatten_cons, ← hfirst]
      simp [hsep]

/-- The list of expressions is written as the list of their texts. -/
theorem shows_listText {es : List SExpr} {texts : List String} (h : ShowsEach es texts) :
    Shows (SExpr.list es).tokens (listText texts) := by
  intro rest _
  have hsep : " ".toList = [' '] := by decide
  have hitems := tokens_intercalate hsep (by decide) (List.forall₂_map_left_iff.2 h)
    (ends_cons (c := ')') (by decide) rest)
  have hclosing : tokens .between (')' :: rest) = .closing :: tokens .between rest := rfl
  have htext : (listText texts).toList ++ rest =
      '(' :: ((" ".intercalate texts).toList ++ ')' :: rest) := by
    simp [listText]
  have hopening : step .between '(' = ([.opening], .between) := rfl
  rw [htext, tokens_cons hopening, hitems, hclosing, SExpr.tokens, SExpr.tokensAll_eq_flatten]
  simp

/-- A list of words. -/
theorem shows_words (text : String) (words : List String) (htext : text = listText words)
    (hwords : words.all isWord = true) : Shows (SExpr.list (words.map .atom)).tokens text := by
  rw [htext]
  refine shows_listText (List.forall₂_map_left_iff.2 (List.forall₂_same.2 fun w hw => ?_))
  exact shows_word (List.all_eq_true.1 hwords w hw)

theorem ShowsEach.append {es fs : List SExpr} {texts texts' : List String} (h : ShowsEach es texts)
    (h' : ShowsEach fs texts') : ShowsEach (es ++ fs) (texts ++ texts') :=
  List.rel_append h h'

section

variable {α : Type} {as : List α} {g : α → SExpr}

theorem showsEach_map {f : α → String} (h : ∀ a ∈ as, Shows (g a).tokens (f a)) :
    ShowsEach (as.map g) (as.map f) := by
  refine List.forall₂_map_left_iff.2 (List.forall₂_map_right_iff.2 ?_)
  exact List.forall₂_same.2 h

/-- What is written one after another, where each part can fail to be written. -/
theorem showsEach_mapM {f : α → Except Unsupported String} {P : α → Prop} {texts : List String}
    (hf : ∀ a text, P a → f a = .ok text → Shows (g a).tokens text) (hP : ∀ a ∈ as, P a)
    (h : as.mapM f = .ok texts) : ShowsEach (as.map g) texts := by
  have heach := (List.forall₂_and_left _ _).2 ⟨hP, mapM_eq_ok_iff.1 h⟩
  exact List.forall₂_map_left_iff.2 (heach.imp fun a text ⟨ha, htext⟩ => hf a text ha htext)

end

/-! ## Values -/

theorem toList_toString_nat (n : Nat) : (toString n).toList = Nat.toDigits 10 n := by
  rw [Nat.toString_eq_repr, Nat.toList_repr]

theorem isDelimiter_toString_nat (n : Nat) : ∀ c ∈ (toString n).toList, isDelimiter c = false := by
  rw [toList_toString_nat]
  exact fun c hc => isDelimiter_of_isDigit (Nat.isDigit_of_mem_toDigits (by decide) (by decide) hc)

theorem isDelimiter_toString_int (i : Int) : ∀ c ∈ (toString i).toList, isDelimiter c = false := by
  cases i with
  | ofNat n => exact isDelimiter_toString_nat n
  | negSucc n =>
    have htext : (toString (Int.negSucc n)).toList = '-' :: (toString (n + 1)).toList := by
      simp [Int.toString_eq_repr, Int.repr]
    rw [htext]
    exact List.forall_mem_cons.2 ⟨by decide, isDelimiter_toString_nat (n + 1)⟩

/-- A number without a sign is an atom. -/
theorem shows_toString_nat (n : Nat) : Shows (SExpr.atom (toString n)).tokens (toString n) := by
  refine shows_bare ?_ (isDelimiter_toString_nat n)
  rw [toList_toString_nat]
  exact Nat.toDigits_ne_nil

theorem readDigits_eq {cs : List Char} (hcs : ∀ c ∈ cs, c.isDigit = true) (acc : Nat) :
    Text.readDigits acc cs = some (Nat.ofDigitChars 10 cs acc) := by
  induction cs generalizing acc with
  | nil => rfl
  | cons c cs ih =>
    obtain ⟨hc, hcs⟩ := List.forall_mem_cons.1 hcs
    have hunderscore : c ≠ '_' := by
      rintro rfl
      exact absurd hc (by decide)
    rw [Text.readDigits, Text.digit?, if_pos hc, Option.bind_some, ih hcs, Nat.ofDigitChars_cons]
    exact hunderscore

/-- The digits of a number are read as the number. -/
theorem readNat?_toDigits (n : Nat) : Text.readNat? (Nat.toDigits 10 n) = some n := by
  have hdigits : ∀ c ∈ Nat.toDigits 10 n, c.isDigit = true := fun c hc =>
    Nat.isDigit_of_mem_toDigits (by decide) (by decide) hc
  have hvalue := Nat.ofDigitChars_ten_toDigits (n := n)
  cases hcons : Nat.toDigits 10 n with
  | nil => exact absurd hcons Nat.toDigits_ne_nil
  | cons c cs =>
    rw [hcons] at hdigits hvalue
    obtain ⟨hc, hcs⟩ := List.forall_mem_cons.1 hdigits
    rw [Text.readNat?, Text.digit?, if_pos hc, Option.bind_some, readDigits_eq hcs, ← hvalue,
      Nat.ofDigitChars_cons, Nat.mul_zero, Nat.zero_add]

/-- A number without a sign is read back. -/
theorem readInt?_toString (n : Nat) : Text.readInt? (toString n).toList = some (n : Int) := by
  have hread := readNat?_toDigits n
  have hdigits : ∀ c ∈ Nat.toDigits 10 n, c ≠ '-' ∧ c ≠ '+' := by
    intro c hc
    have hdigit := Nat.isDigit_of_mem_toDigits (by decide) (by decide) hc
    constructor <;> rintro rfl <;> exact absurd hdigit (by decide)
  rw [toList_toString_nat]
  unfold Text.readInt?
  split
  · next heq => exact absurd rfl (hdigits '-' (by simp [heq])).1
  · next heq => exact absurd rfl (hdigits '+' (by simp [heq])).2
  · rw [hread]
    rfl

/-- A value as an expression: a negative integer is a minus sign applied to its absolute value. -/
def valueExpr : Value → SExpr
  | .bool b => .atom (toString b)
  | .int i =>
    if i < 0 then .list [.atom "-", .atom (toString i.natAbs)] else .atom (toString i.natAbs)

theorem shows_numeralText (i : Int) : Shows (valueExpr (.int i)).tokens (numeralText i) := by
  rw [numeralText, valueExpr]
  split_ifs with hi
  · have htext : "(- " ++ toString i.natAbs ++ ")" = listText ["-", toString i.natAbs] := by
      rw [← String.toList_inj]
      simp [listText]
    have hminus : Shows (SExpr.atom "-").tokens "-" := shows_word (by decide)
    rw [htext]
    exact shows_listText (.cons hminus (.cons (shows_toString_nat i.natAbs) .nil))
  · have htext : toString i = toString i.natAbs := by
      obtain ⟨n, rfl⟩ := Int.eq_ofNat_of_zero_le (Int.not_lt.1 hi)
      rfl
    rw [htext]
    exact shows_toString_nat i.natAbs

theorem shows_toString_bool (b : Bool) : Shows (valueExpr (.bool b)).tokens (toString b) := by
  cases b <;> exact shows_word (by decide)

end Obligations.Solver
