import Mathlib.Data.List.Basic
import Obligations.Name

/-!
# Words in a text

A word ends where the first character follows that words do not contain, so that a text which starts
with a word tells where the word ends (`append_inj_of_class`). Names are written as words, and so
are numbers; a number is told by its text (`toString_nat_inj`).
-/

namespace Obligations

namespace Text

/-- Whether all characters of a list are of a kind is decided by those of the list. -/
instance (priority := high) decidableForallMem {P : Char → Prop} [DecidablePred P]
    (cs : List Char) : Decidable (∀ c ∈ cs, P c) := List.decidableBAll P cs

instance (priority := high) decidableForallMemOption {P : Char → Prop} [DecidablePred P]
    (c? : Option Char) : Decidable (∀ c ∈ c?, P c) := Option.decidableForallMem c?

/-- The letters, the digits, `_` and `@`, and all characters beyond ASCII. -/
def isWordChar (c : Char) : Bool := c.isAlphanum || c = '_' || c = '@' || 128 ≤ c.toNat

theorem isWordChar_of_isDigit {c : Char} (h : c.isDigit = true) : isWordChar c = true := by
  simp [isWordChar, Char.isAlphanum, h]

/-- What stands first in two equal texts and has only characters of one kind is the same, if what
follows starts with a character of another kind or is empty. -/
theorem append_inj_of_class {P : Char → Prop} {as bs r s : List Char} (has : ∀ c ∈ as, P c)
    (hbs : ∀ c ∈ bs, P c) (hr : ∀ c ∈ r.head?, ¬ P c) (hs : ∀ c ∈ s.head?, ¬ P c)
    (h : as ++ r = bs ++ s) : as = bs ∧ r = s := by
  rcases List.append_eq_append_iff.1 h with ⟨cs, hb, hrest⟩ | ⟨cs, ha, hrest⟩
  · cases cs with
    | nil => exact ⟨by simpa using hb.symm, hrest⟩
    | cons c cs => exact absurd (hbs c (by simp [hb])) (hr c (by simp [hrest]))
  · cases cs with
    | nil => exact ⟨by simpa using ha, hrest.symm⟩
    | cons c cs => exact absurd (has c (by simp [ha])) (hs c (by simp [hrest]))

/-- A number is told by its text. -/
theorem toString_nat_inj {m n : Nat} (h : (toString m).toList = (toString n).toList) : m = n := by
  have hnumber := congrArg (fun ds => Nat.ofDigitChars 10 ds 0) h
  simpa only [Nat.toString_eq_repr, Nat.toList_repr, Nat.ofDigitChars_ten_toDigits] using hnumber

theorem isDigit_of_mem_toString {n : Nat} {c : Char} (h : c ∈ (toString n).toList) :
    c.isDigit = true := by
  rw [Nat.toString_eq_repr, Nat.toList_repr] at h
  exact Nat.isDigit_of_mem_toDigits (by decide) (by decide) h

end Text

/-- The name is a word: it consists of letters, digits, `_` and `@`. -/
def Name.IsWord (n : Name) : Prop := ∀ c ∈ n.text.toList, Text.isWordChar c = true

instance : DecidablePred Name.IsWord := fun _ => inferInstanceAs (Decidable (∀ c ∈ _, _))

theorem Name.eq_of_toList {m n : Name} (h : m.text.toList = n.text.toList) : m = n := by
  cases m
  cases n
  simpa [String.toList_inj] using h

end Obligations
