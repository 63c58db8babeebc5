import Mathlib.Data.List.Basic
import Obligations.Name

/-!
# Names of versions

The name of a version tells the variable and the number apart: the number follows the last `@`, for
it is written with digits only (`Name.incarnation_injective`).
-/

namespace Obligations.Name

/-- Two lists that end with the same separator, followed by items other than it, agree before and
after the separator. -/
theorem append_separator_inj {α : Type} {a b ds es : List α} {c : α} (hds : c ∉ ds) (hes : c ∉ es)
    (h : a ++ c :: ds = b ++ c :: es) : a = b ∧ ds = es := by
  rcases List.append_eq_append_iff.mp h with ⟨as, hb, hrest⟩ | ⟨bs, ha, hrest⟩
  · cases as with
    | nil => exact ⟨by simpa using hb.symm, (List.cons.inj hrest).2⟩
    | cons d as =>
      refine absurd ?_ hds
      rw [(List.cons.inj hrest).2]
      simp
  · cases bs with
    | nil => exact ⟨by simpa using ha, (List.cons.inj hrest).2.symm⟩
    | cons d bs =>
      refine absurd ?_ hes
      rw [(List.cons.inj hrest).2]
      simp

/-- The digits of a number do not contain a character that is no digit. -/
theorem not_mem_toDigits {c : Char} (hc : c.isDigit = false) (n : Nat) :
    c ∉ Nat.toDigits 10 n := by
  intro h
  have hdigit := Nat.isDigit_of_mem_toDigits (by decide) (by decide) h
  exact absurd hdigit (by simp [hc])

/-- The digits of a number do not contain the separator. -/
theorem separator_not_mem_toDigits (n : Nat) : '@' ∉ Nat.toDigits 10 n :=
  not_mem_toDigits (by decide) n

/-- A text and a number after the last separator are told apart. -/
theorem eq_of_append_number {k l : Name} {m n : Nat} {c : Char} (hc : c.isDigit = false)
    (h : k.text.toList ++ c :: Nat.toDigits 10 m = l.text.toList ++ c :: Nat.toDigits 10 n) :
    k = l ∧ m = n := by
  obtain ⟨hname, hdigits⟩ :=
    append_separator_inj (not_mem_toDigits hc m) (not_mem_toDigits hc n) h
  have hnumber := congrArg (fun ds => Nat.ofDigitChars 10 ds 0) hdigits
  simp only [Nat.ofDigitChars_ten_toDigits] at hnumber
  refine ⟨?_, hnumber⟩
  cases k
  cases l
  simpa [String.toList_inj] using hname

/-- A name without the separator is not the name of a version. -/
theorem ne_incarnation {x : Name} (h : '@' ∉ x.text.toList) (y : Name) (n : Nat) :
    x ≠ y.incarnation n := by
  rintro rfl
  refine h ?_
  unfold incarnation
  rw [String.toList_append, String.toList_append]
  exact List.mem_append_left _ (List.mem_append_right _ (List.mem_singleton_self '@'))

/-- Versions with one name are the same version of the same variable. -/
theorem incarnation_injective {x y : Name} {m n : Nat} (h : x.incarnation m = y.incarnation n) :
    x = y ∧ m = n := by
  unfold incarnation at h
  have htext := congrArg (fun n : Name => n.text.toList) h
  have hlists : x.text.toList ++ '@' :: Nat.toDigits 10 m =
      y.text.toList ++ '@' :: Nat.toDigits 10 n := by
    simpa [String.toList_append, Nat.toString_eq_repr, Nat.toList_repr] using htext
  exact eq_of_append_number (by decide) hlists

end Obligations.Name
