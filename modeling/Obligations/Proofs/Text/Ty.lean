import Obligations.Proofs.Text.Word
import Obligations.Ty

/-!
# Reading the text of a type

The arguments of a declared type follow its name without parentheses, so `A B C` is the text of `A`
applied to `B` and `C`, and also of `A` applied to `B` applied to `C` (`text_ambiguous_list`). The
text is that of a prefix notation: it can be read back if one knows how many arguments each declared
type takes, whatever the nesting of maps and declared types (`text_eq_iff_of_fits`).
-/

namespace Obligations.Ty

/-! ## Types over declarations -/

/-- The name can be the name of a declared type: it is a word and not the text of a type that need
not be declared. -/
structure IsTypeName (n : Name) : Prop where
  word : n.IsWord
  ne_bool : n.text ≠ "bool"
  ne_int : n.text ≠ "int"
  ne_bv : ∀ width : Nat, n.text ≠ "bv" ++ toString width

/- The types over declarations that say how many arguments each declared type takes. -/
mutual

/-- Every declared type in the type has a name that can be told from the other types and has the
number of arguments with which it was declared. -/
def Fits (arity : Name → Nat) : Ty → Prop
  | bool | bv _ | int => True
  | map key value => key.Fits arity ∧ value.Fits arity
  | user name args => IsTypeName name ∧ args.length = arity name ∧ FitsAll arity args

/-- The same for several types. -/
def FitsAll (arity : Name → Nat) : List Ty → Prop
  | [] => True
  | t :: ts => t.Fits arity ∧ FitsAll arity ts

end

/-! ## How a text starts and goes on -/

/-- The word with which the text of a type starts; it is empty for a map. -/
def lead : Ty → List Char
  | bool => "bool".toList
  | bv width => "bv".toList ++ (toString width).toList
  | int => "int".toList
  | map _ _ => []
  | user name _ => name.text.toList

/-- What follows the word with which the text of a type starts. -/
def afterLead : Ty → List Char
  | bool | bv _ | int => []
  | map key value => '[' :: (key.text.toList ++ ']' :: value.text.toList)
  | user _ args => (argsText args).toList

theorem toList_text (t : Ty) : t.text.toList = t.lead ++ t.afterLead := by
  cases t <;> simp [text, lead, afterLead]

theorem toList_argsText_cons (t : Ty) (ts : List Ty) :
    (argsText (t :: ts)).toList = ' ' :: (t.text.toList ++ (argsText ts).toList) := by
  simp [argsText]

/-- The text ends here: nothing follows, or the next argument or the end of a key does. -/
def Ends (r : List Char) : Prop := ∀ c ∈ r.head?, c = ' ' ∨ c = ']'

theorem Ends.nil : Ends [] := by
  rintro c ⟨⟩

theorem Ends.space (r : List Char) : Ends (' ' :: r) := by
  rintro c ⟨⟩
  exact .inl rfl

theorem Ends.close (r : List Char) : Ends (']' :: r) := by
  rintro c ⟨⟩
  exact .inr rfl

variable {arity : Name → Nat} {t u : Ty} {ts us : List Ty} {r s : List Char}

theorem ends_argsText_append (ts : List Ty) (hr : Ends r) : Ends ((argsText ts).toList ++ r) := by
  cases ts with
  | nil => simpa [argsText] using hr
  | cons t ts =>
    rw [toList_argsText_cons, List.cons_append]
    exact .space _

theorem isWordChar_of_mem_lead (ht : t.Fits arity) : ∀ c ∈ t.lead, Text.isWordChar c = true := by
  cases t with
  | bool => decide
  | int => decide
  | map key value => exact fun c hc => absurd hc List.not_mem_nil
  | user name args => exact ht.1.word
  | bv width =>
    intro c hc
    rcases List.mem_append.1 hc with hc | hc
    · exact (show ∀ c ∈ "bv".toList, Text.isWordChar c = true by decide) c hc
    · exact Text.isWordChar_of_isDigit (Text.isDigit_of_mem_toString hc)

/-- The first word of a type is followed by a character that is not in words. -/
theorem not_isWordChar_afterLead (t : Ty) (hr : Ends r) :
    ∀ c ∈ (t.afterLead ++ r).head?, ¬ Text.isWordChar c = true := by
  have hends : ∀ {r}, Ends r → ∀ c ∈ r.head?, ¬ Text.isWordChar c = true := by
    intro r hr c hc
    rcases hr c hc with rfl | rfl <;> decide
  cases t with
  | bool | bv _ | int => exact hends hr
  | map key value =>
    rintro c ⟨⟩
    decide
  | user name args => exact hends (ends_argsText_append args hr)

/-- Two equal texts that start with a type start with one word. -/
theorem lead_inj (ht : t.Fits arity) (hu : u.Fits arity) (hr : Ends r) (hs : Ends s)
    (h : t.text.toList ++ r = u.text.toList ++ s) :
    t.lead = u.lead ∧ t.afterLead ++ r = u.afterLead ++ s := by
  rw [toList_text, toList_text, List.append_assoc, List.append_assoc] at h
  exact Text.append_inj_of_class (isWordChar_of_mem_lead ht) (isWordChar_of_mem_lead hu)
    (not_isWordChar_afterLead t hr) (not_isWordChar_afterLead u hs) h

/-! ## The type that a text starts with -/

theorem eq_bool_of_lead (hu : u.Fits arity) (h : "bool".toList = u.lead) : u = bool := by
  cases u with
  | bool => rfl
  | bv _ | int | map _ _ => simp [lead] at h
  | user name args => exact absurd (String.toList_inj.1 h).symm hu.1.ne_bool

theorem eq_int_of_lead (hu : u.Fits arity) (h : "int".toList = u.lead) : u = int := by
  cases u with
  | int => rfl
  | bool | bv _ | map _ _ => simp [lead] at h
  | user name args => exact absurd (String.toList_inj.1 h).symm hu.1.ne_int

theorem eq_bv_of_lead {width : Nat} (hu : u.Fits arity) (h : (bv width).lead = u.lead) :
    u = bv width := by
  cases u with
  | bv width' => rw [Text.toString_nat_inj (List.append_cancel_left h)]
  | bool | int | map _ _ => simp [lead] at h
  | user name args =>
    refine absurd (String.toList_inj.1 ?_) (hu.1.ne_bv width)
    rw [String.toList_append]
    exact h.symm

theorem exists_map_of_afterLead {as : List Char} (hs : Ends s)
    (h : '[' :: as = u.afterLead ++ s) : ∃ key value, u = map key value := by
  have hends : ¬ Ends (u.afterLead ++ s) := fun hends => by
    rcases hends '[' (by rw [← h]; rfl) with h | h <;> exact absurd h (by decide)
  cases u with
  | map key value => exact ⟨key, value, rfl⟩
  | bool | bv _ | int => exact absurd hs hends
  | user name args => exact absurd (ends_argsText_append args hs) hends

theorem exists_user_of_lead {name : Name} (hname : IsTypeName name) (hr : Ends r)
    (hlead : name.text.toList = u.lead) (h : r = u.afterLead ++ s) :
    ∃ args, u = user name args := by
  cases u with
  | bool => exact absurd (String.toList_inj.1 hlead) hname.ne_bool
  | int => exact absurd (String.toList_inj.1 hlead) hname.ne_int
  | bv width =>
    refine absurd (String.toList_inj.1 ?_) (hname.ne_bv width)
    rw [String.toList_append]
    exact hlead
  | map key value =>
    rcases hr '[' (by rw [h]; rfl) with h | h <;> exact absurd h (by decide)
  | user name' args =>
    obtain rfl := Name.eq_of_toList hlead
    exact ⟨args, rfl⟩

/- Induction on the first type. It is generalized over what follows the two texts, because the text
of a key is followed by the bracket and the text of an argument by the other arguments. -/
mutual

/-- Two equal texts that start with a type start with the same type. -/
theorem text_append_inj : ∀ (t : Ty) {u : Ty} {r s : List Char}, t.Fits arity → u.Fits arity →
    Ends r → Ends s → t.text.toList ++ r = u.text.toList ++ s → t = u ∧ r = s
  | bool, u, r, s, ht, hu, hr, hs, h => by
    obtain ⟨hlead, hrest⟩ := lead_inj ht hu hr hs h
    obtain rfl := eq_bool_of_lead hu hlead
    exact ⟨rfl, hrest⟩
  | int, u, r, s, ht, hu, hr, hs, h => by
    obtain ⟨hlead, hrest⟩ := lead_inj ht hu hr hs h
    obtain rfl := eq_int_of_lead hu hlead
    exact ⟨rfl, hrest⟩
  | bv width, u, r, s, ht, hu, hr, hs, h => by
    obtain ⟨hlead, hrest⟩ := lead_inj ht hu hr hs h
    obtain rfl := eq_bv_of_lead hu hlead
    exact ⟨rfl, hrest⟩
  | map key value, u, r, s, ht, hu, hr, hs, h => by
    obtain ⟨-, hrest⟩ := lead_inj ht hu hr hs h
    obtain ⟨key', value', rfl⟩ := exists_map_of_afterLead hs hrest
    -- Behind the key comes its bracket, so the key is read first and the value then.
    simp only [afterLead, List.cons_append, List.append_assoc, List.cons.injEq, true_and] at hrest
    obtain ⟨rfl, hvalue⟩ := text_append_inj key ht.1 hu.1 (.close _) (.close _) hrest
    obtain ⟨rfl, rfl⟩ := text_append_inj value ht.2 hu.2 hr hs (List.cons.inj hvalue).2
    exact ⟨rfl, rfl⟩
  | user name args, u, r, s, ht, hu, hr, hs, h => by
    obtain ⟨hlead, hrest⟩ := lead_inj ht hu hr hs h
    obtain ⟨args', rfl⟩ := exists_user_of_lead ht.1 (ends_argsText_append args hr) hlead hrest
    have hlength : args.length = args'.length := ht.2.1.trans hu.2.1.symm
    obtain ⟨rfl, rfl⟩ := argsText_append_inj args ht.2.2 hu.2.2 hlength hr hs hrest
    exact ⟨rfl, rfl⟩

/-- Two equal texts that start with equally many arguments start with the same arguments. -/
theorem argsText_append_inj : ∀ (ts : List Ty) {us : List Ty} {r s : List Char},
    FitsAll arity ts → FitsAll arity us → ts.length = us.length → Ends r → Ends s →
    (argsText ts).toList ++ r = (argsText us).toList ++ s → ts = us ∧ r = s
  | [], us, r, s, _, _, hlength, _, _, h => by
    obtain rfl := List.length_eq_zero_iff.1 hlength.symm
    exact ⟨rfl, h⟩
  | t :: ts, us, r, s, ht, hu, hlength, hr, hs, h => by
    obtain ⟨u, us, rfl⟩ := List.exists_cons_of_length_eq_add_one hlength.symm
    rw [toList_argsText_cons, toList_argsText_cons] at h
    simp only [List.cons_append, List.append_assoc, List.cons.injEq, true_and] at h
    obtain ⟨rfl, hrest⟩ := text_append_inj t ht.1 hu.1 (ends_argsText_append ts hr)
      (ends_argsText_append us hs) h
    obtain ⟨rfl, rfl⟩ :=
      argsText_append_inj ts ht.2 hu.2 (Nat.succ.inj hlength) hr hs hrest
    exact ⟨rfl, rfl⟩

end

/-! ## Types are told by their texts -/

/-- Of two types over the same declarations, in which every declared type has as many arguments as
it was declared with, only equal ones have the same text. -/
theorem text_eq_iff_of_fits (ht : t.Fits arity) (hu : u.Fits arity) : t.text = u.text ↔ t = u := by
  refine ⟨fun h => ?_, congrArg text⟩
  have hlists : t.text.toList ++ [] = u.text.toList ++ [] := by rw [h]
  exact (text_append_inj t ht hu .nil .nil hlists).1

/-- A word that starts neither like `bool` and the bit vectors nor like `int` names a type. -/
theorem isTypeName_of_head {n : Name} (hword : n.IsWord)
    (hhead : ∀ c ∈ n.text.toList.head?, c ≠ 'b' ∧ c ≠ 'i') : IsTypeName n where
  word := hword
  ne_bool h := (hhead 'b' (by rw [h]; rfl)).1 rfl
  ne_int h := (hhead 'i' (by rw [h]; rfl)).2 rfl
  ne_bv width h := (hhead 'b' (by rw [h, String.toList_append]; rfl)).1 rfl

/-- The declared types `Ref`, without arguments, `List`, with one, and `Pair`, with two. -/
def containers (name : Name) : Nat :=
  if name = ⟨"Pair"⟩ then 2 else if name = ⟨"List"⟩ then 1 else 0

theorem isTypeName_containers : ∀ n ∈ [⟨"Ref"⟩, ⟨"List"⟩, ⟨"Pair"⟩], IsTypeName n := by
  intro n hn
  have hword : ∀ n ∈ ([⟨"Ref"⟩, ⟨"List"⟩, ⟨"Pair"⟩] : List Name),
      (∀ c ∈ n.text.toList, Text.isWordChar c = true) ∧
        ∀ c ∈ n.text.toList.head?, c ≠ 'b' ∧ c ≠ 'i' := by decide
  exact isTypeName_of_head (hword n hn).1 (hword n hn).2

/-- The references. -/
def ref : Ty := user ⟨"Ref"⟩ []

/-- The lists of references. -/
def refs : Ty := user ⟨"List"⟩ [ref]

theorem fits_ref : ref.Fits containers :=
  ⟨isTypeName_containers _ (by simp), by decide, trivial⟩

theorem fits_refs : refs.Fits containers :=
  ⟨isTypeName_containers _ (by simp), by decide, fits_ref, trivial⟩

/-- `Pair List Ref Ref` and `Pair Ref List Ref` differ, as their types do; so do the maps from
them. -/
theorem text_eq_iff_of_fits_pair :
    (map (user ⟨"Pair"⟩ [refs, ref]) int).Fits containers ∧
      (map (user ⟨"Pair"⟩ [ref, refs]) int).Fits containers ∧
      ((map (user ⟨"Pair"⟩ [refs, ref]) int).text = (map (user ⟨"Pair"⟩ [ref, refs]) int).text ↔
        map (user ⟨"Pair"⟩ [refs, ref]) int = map (user ⟨"Pair"⟩ [ref, refs]) int) := by
  have hpair : IsTypeName ⟨"Pair"⟩ := isTypeName_containers _ (by simp)
  have hleft : (map (user ⟨"Pair"⟩ [refs, ref]) int).Fits containers :=
    ⟨⟨hpair, by decide, fits_refs, fits_ref, trivial⟩, trivial⟩
  have hright : (map (user ⟨"Pair"⟩ [ref, refs]) int).Fits containers :=
    ⟨⟨hpair, by decide, fits_ref, fits_refs, trivial⟩, trivial⟩
  exact ⟨hleft, hright, text_eq_iff_of_fits hleft hright⟩

/-- Without the numbers of arguments a text can be that of several types: `Pair List Ref` is the
type `Pair` of `List` and `Ref`, and also of the lists of references. -/
theorem text_ambiguous_list :
    (∀ n ∈ [⟨"Ref"⟩, ⟨"List"⟩, ⟨"Pair"⟩], IsTypeName n) ∧
      user ⟨"Pair"⟩ [user ⟨"List"⟩ [], ref] ≠ user ⟨"Pair"⟩ [refs] ∧
      (user ⟨"Pair"⟩ [user ⟨"List"⟩ [], ref]).text = (user ⟨"Pair"⟩ [refs]).text := by
  refine ⟨isTypeName_containers, ?_, by decide⟩
  rintro ⟨⟩

end Obligations.Ty
