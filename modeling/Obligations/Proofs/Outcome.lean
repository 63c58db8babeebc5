import Mathlib.Data.List.Forall2
import Obligations.Minting

/-!
# Outcomes of repeated steps

What is known about the outcomes of the single steps of a traversal, said of the whole traversal.
-/

namespace Obligations

variable {ε α β : Type}

/-- A traversal whose steps all succeed succeeds, and collects their results. -/
theorem mapM_eq_ok {f : α → Except ε β} {g : α → β} {as : List α}
    (h : ∀ a ∈ as, f a = .ok (g a)) : as.mapM f = .ok (as.map g) := by
  induction as with
  | nil => rfl
  | cons a as ih =>
    rw [List.mapM_cons, h a List.mem_cons_self, ih fun a' ha' => h a' (List.mem_cons_of_mem _ ha')]
    rfl

/-- A sequence of two steps gives a result if the first gives one from which the second gives it. -/
theorem bind_eq_ok {ε α β : Type} {x : Except ε α} {f : α → Except ε β} {b : β} :
    (x >>= f) = .ok b ↔ ∃ a, x = .ok a ∧ f a = .ok b := by
  cases x with
  | error e =>
    constructor
    · intro h
      cases h
    · rintro ⟨a, ha, -⟩
      cases ha
  | ok a =>
    constructor
    · exact fun h => ⟨a, rfl, h⟩
    · rintro ⟨a', ha, h⟩
      cases ha
      exact h

/-- The same where names are made up on the way. -/
theorem Minting.bind_eq_ok {x : Minting ε α} {f : α → Minting ε β} {b : β} :
    (x >>= f).outcome = .ok b ↔ ∃ a, x.outcome = .ok a ∧ (f a).outcome = .ok b := by
  rw [outcome_bind, Obligations.bind_eq_ok]

/-! ## Failures -/

/-- The failure of a computation, if it fails, is one of some. -/
def FailsOnly (P : ε → Prop) (x : Except ε α) : Prop := ∀ e, x = .error e → P e

namespace FailsOnly

variable {P : ε → Prop} {x : Except ε α}

theorem ok (P : ε → Prop) (a : α) : FailsOnly P (.ok a) := fun _ h => nomatch h

theorem error {e : ε} (h : P e) : FailsOnly P (.error e : Except ε α) := by
  rintro _ ⟨⟩
  exact h

/-- A sequence of two steps fails as its steps do. -/
theorem bind {f : α → Except ε β} (hx : FailsOnly P x) (hf : ∀ a, FailsOnly P (f a)) :
    FailsOnly P (x >>= f) := by
  intro e he
  cases x with
  | error e' =>
    cases he
    exact hx _ rfl
  | ok a => exact hf a e he

/-- The same where names are made up on the way, and the second step fails as said from the results
of the first. -/
theorem bind_outcome_of {x : Minting ε α} {f : α → Minting ε β} (hx : FailsOnly P x.outcome)
    (hf : ∀ a, x.outcome = .ok a → FailsOnly P (f a).outcome) : FailsOnly P (x >>= f).outcome := by
  rw [Minting.outcome_bind]
  cases h : x.outcome with
  | error e => exact .error (hx e h)
  | ok a => exact hf a h

theorem bind_outcome {x : Minting ε α} {f : α → Minting ε β} (hx : FailsOnly P x.outcome)
    (hf : ∀ a, FailsOnly P (f a).outcome) : FailsOnly P (x >>= f).outcome :=
  bind_outcome_of hx fun a _ => hf a

/-- A traversal fails as its steps do. -/
theorem mapM_of_mem {f : α → Except ε β} : ∀ {as : List α}, (∀ a ∈ as, FailsOnly P (f a)) →
    FailsOnly P (as.mapM f)
  | [], _ => ok P []
  | a :: as, hf => by
    obtain ⟨ha, has⟩ := List.forall_mem_cons.1 hf
    rw [List.mapM_cons]
    exact ha.bind fun b => (mapM_of_mem has).bind fun bs => ok P (b :: bs)

theorem mapM {f : α → Except ε β} (hf : ∀ a, FailsOnly P (f a)) (as : List α) :
    FailsOnly P (as.mapM f) :=
  mapM_of_mem fun a _ => hf a

theorem foldlM_outcome {f : β → α → Minting ε β} (hf : ∀ b a, FailsOnly P (f b a).outcome)
    (as : List α) (b : β) : FailsOnly P (as.foldlM f b).outcome := by
  induction as generalizing b with
  | nil => exact ok P b
  | cons a as ih =>
    rw [List.foldlM_cons]
    exact bind_outcome (hf b a) ih

end FailsOnly

/-! ## Results -/

/-- Another way to put a failure changes no result. -/
theorem mapError_eq_ok {ε' : Type} {f : ε → ε'} {x : Except ε α} {a : α} :
    x.mapError f = .ok a ↔ x = .ok a := by
  cases x with
  | error e => exact iff_of_false (fun h => nomatch h) fun h => nomatch h
  | ok b => exact ⟨fun h => by cases h; rfl, fun h => by cases h; rfl⟩

/-- What every step of a sequence of steps preserves holds at its end. -/
theorem Minting.foldlM_induction {f : β → α → Minting ε β} {P : β → Prop} {as : List α}
    (hstep : ∀ a ∈ as, ∀ b b', P b → (f b a).outcome = .ok b' → P b') {b b' : β} (hb : P b)
    (h : (as.foldlM f b).outcome = .ok b') : P b' := by
  induction as generalizing b with
  | nil =>
    cases h
    exact hb
  | cons a as ih =>
    rw [List.foldlM_cons] at h
    obtain ⟨c, hc, h⟩ := Minting.bind_eq_ok.1 h
    obtain ⟨hhead, hrest⟩ := List.forall_mem_cons.1 hstep
    exact ih hrest (hhead b c hb hc) h

/-- A traversal gives the results of its steps, which all succeed. -/
theorem mapM_eq_ok_iff {f : α → Except ε β} {as : List α} {bs : List β} :
    as.mapM f = .ok bs ↔ List.Forall₂ (fun a b => f a = .ok b) as bs := by
  induction as generalizing bs with
  | nil =>
    rw [List.forall₂_nil_left_iff]
    exact ⟨fun h => (Except.ok.inj h).symm, fun h => h ▸ rfl⟩
  | cons a as ih =>
    rw [List.mapM_cons, List.forall₂_cons_left_iff, bind_eq_ok]
    constructor
    · rintro ⟨b, hb, hrest⟩
      obtain ⟨bs', hbs, heq⟩ := bind_eq_ok.1 hrest
      exact ⟨b, bs', hb, ih.1 hbs, (Except.ok.inj heq).symm⟩
    · rintro ⟨b, bs', hb, hbs, rfl⟩
      exact ⟨b, hb, bind_eq_ok.2 ⟨bs', ih.2 hbs, rfl⟩⟩

/-- Where the first of two steps gives a result from which the second gives one, so do both. -/
theorem exists_bind_eq_ok {x : Except ε α} {f : α → Except ε β} {P : α → Prop} {Q : β → Prop}
    (hx : ∃ a, x = .ok a ∧ P a) (hf : ∀ a, P a → ∃ b, f a = .ok b ∧ Q b) :
    ∃ b, (x >>= f) = .ok b ∧ Q b := by
  obtain ⟨a, rfl, ha⟩ := hx
  exact hf a ha

/-- Where every step of a traversal gives a result, so does the traversal. -/
theorem exists_mapM_eq_ok {f : α → Except ε β} {R : α → β → Prop} {as : List α}
    (h : ∀ a ∈ as, ∃ b, f a = .ok b ∧ R a b) :
    ∃ bs, as.mapM f = .ok bs ∧ List.Forall₂ R as bs := by
  induction as with
  | nil => exact ⟨[], rfl, .nil⟩
  | cons a as ih =>
    obtain ⟨b, hb, hab⟩ := h a List.mem_cons_self
    obtain ⟨bs, hbs, hall⟩ := ih fun a' ha' => h a' (List.mem_cons_of_mem _ ha')
    exact ⟨b :: bs, by rw [List.mapM_cons, hb, hbs]; rfl, .cons hab hall⟩

/-- Every member of the first of two corresponding lists has a counterpart in the second. -/
theorem exists_mem_of_forall₂ {R : α → β → Prop} {as : List α} {bs : List β} {a : α}
    (h : List.Forall₂ R as bs) (ha : a ∈ as) : ∃ b ∈ bs, R a b := by
  induction h with
  | nil => cases ha
  | cons hab _ ih =>
    rcases List.mem_cons.1 ha with rfl | ha
    · exact ⟨_, List.mem_cons_self, hab⟩
    · obtain ⟨b, hb, hR⟩ := ih ha
      exact ⟨b, List.mem_cons_of_mem _ hb, hR⟩

/-- The counterpart is at the same place. -/
theorem exists_getElem?_of_forall₂ {R : α → β → Prop} {as : List α} {bs : List β} {i : Nat} {a : α}
    (h : List.Forall₂ R as bs) (ha : as[i]? = some a) : ∃ b, bs[i]? = some b ∧ R a b := by
  induction h generalizing i with
  | nil => cases ha
  | cons hab _ ih =>
    cases i with
    | zero =>
      cases ha
      exact ⟨_, rfl, hab⟩
    | succ i => exact ih ha

/-- If the steps of a traversal give results with the keys from which they start, the result with a
key is that of the step from the key. -/
theorem find?_of_mapM_eq_ok [DecidableEq α] (key : β → α) {f : α → Except ε β} {as : List α}
    {bs : List β} (h : as.mapM f = .ok bs) (hkey : ∀ a b, f a = .ok b → key b = a) (a : α) :
    bs.find? (key · = a) = if a ∈ as then (f a).toOption else none := by
  have hall := mapM_eq_ok_iff.1 h
  clear h
  induction hall with
  | nil => rfl
  | @cons a' b as bs hb _ ih =>
    by_cases ha : a' = a
    · subst ha
      rw [List.find?_cons_of_pos (by simpa using hkey a' b hb), if_pos List.mem_cons_self, hb]
      rfl
    · rw [List.find?_cons_of_neg (by simpa [hkey a' b hb] using ha), ih]
      simp [Ne.symm ha]

/-- Among elements with different keys one element has its key. -/
theorem filter_eq_singleton {κ : Type} [DecidableEq κ] (key : α → κ) {as : List α}
    (hnodup : (as.map key).Nodup) {a : α} (ha : a ∈ as) : as.filter (key · = key a) = [a] := by
  induction as with
  | nil => cases ha
  | cons b as ih =>
    obtain ⟨hnot, hnodup⟩ := List.nodup_cons.1 hnodup
    rcases List.mem_cons.1 ha with rfl | ha
    · have hnil : as.filter (key · = key a) = [] := by
        rw [List.filter_eq_nil_iff]
        intro b hb heq
        exact hnot (List.mem_map.2 ⟨b, hb, of_decide_eq_true heq⟩)
      rw [List.filter_cons_of_pos (by simp), hnil]
    · have hne : ¬ key b = key a := fun heq => hnot (List.mem_map.2 ⟨a, ha, heq.symm⟩)
      rw [List.filter_cons_of_neg (by simpa using hne), ih hnodup ha]

/-- What is equal for corresponding members is equal for the lists. -/
theorem map_eq_of_forall₂ {γ : Type} {R : α → β → Prop} {f : α → γ} {g : β → γ} {as : List α}
    {bs : List β} (h : List.Forall₂ R as bs) (hfg : ∀ a b, R a b → f a = g b) :
    as.map f = bs.map g := by
  induction h with
  | nil => rfl
  | cons hab _ ih => rw [List.map_cons, List.map_cons, hfg _ _ hab, ih]

/-- A sequence of two computations that mention names gives a result if both do. -/
theorem NamingExcept.bind_eq_ok {x : NamingExcept ε α} {f : α → NamingExcept ε β} {b : β}
    {l l' : Lexicon} : (x >>= f).run l = (.ok b, l') ↔
      ∃ a l₁, x.run l = (.ok a, l₁) ∧ (f a).run l₁ = (.ok b, l') := by
  have hbind : (x >>= f).run l = (ExceptT.bindCont f (x.run l).1).run (x.run l).2 := rfl
  rw [hbind]
  rcases x.run l with ⟨e | a, l₁⟩
  · constructor
    · intro h
      cases h
    · rintro ⟨a, l₂, h, -⟩
      cases h
  · constructor
    · exact fun h => ⟨a, l₁, rfl, h⟩
    · rintro ⟨a', l₂, h, h'⟩
      cases h
      exact h'

/-- The same where names are mentioned. -/
theorem FailsOnly.run_bind {P : ε → Prop} {x : NamingExcept ε α} {f : α → NamingExcept ε β}
    {l : Lexicon} (hx : FailsOnly P (x.run l).1)
    (hf : ∀ a l', x.run l = (.ok a, l') → FailsOnly P ((f a).run l').1) :
    FailsOnly P ((x >>= f).run l).1 := by
  have hbind : (x >>= f).run l = (ExceptT.bindCont f (x.run l).1).run (x.run l).2 := rfl
  rw [hbind]
  rcases h : x.run l with ⟨e | a, l'⟩
  · exact .error (hx e (congrArg Prod.fst h))
  · exact hf a l' h

/-- To record what was made up gives the outcome. -/
theorem Minting.run_record (x : Minting ε α) (l : Lexicon) :
    x.record.run l = (x.outcome, x.names.foldl Lexicon.mention l) := by
  obtain ⟨r, ns⟩ := x
  cases r <;> rfl

theorem Minting.run_record_eq_ok {x : Minting ε α} {a : α} (h : x.outcome = .ok a) (l : Lexicon) :
    x.record.run l = (.ok a, x.names.foldl Lexicon.mention l) := by
  rw [run_record, h]

theorem NamingExcept.run_adapt {ε' : Type} (f : ε → ε') (x : NamingExcept ε α) (l : Lexicon) :
    (ExceptT.adapt f x : NamingExcept ε' α).run l = ((x.run l).1.mapError f, (x.run l).2) := by
  rfl

/-- A traversal that mentions names gives the results of its steps. -/
theorem NamingExcept.forall₂_of_mapM_eq_ok {f : α → NamingExcept ε β} {as : List α} {bs : List β}
    {l l' : Lexicon} (h : (as.mapM f).run l = (.ok bs, l')) :
    List.Forall₂ (fun a b => ∃ l₁ l₂, (f a).run l₁ = (.ok b, l₂)) as bs := by
  induction as generalizing bs l with
  | nil =>
    cases h
    exact .nil
  | cons a as ih =>
    rw [List.mapM_cons] at h
    obtain ⟨b, l₁, hb, h⟩ := NamingExcept.bind_eq_ok.1 h
    obtain ⟨bs', l₂, hbs, h⟩ := NamingExcept.bind_eq_ok.1 h
    cases h
    exact .cons ⟨l, l₁, hb⟩ (ih hbs)

end Obligations
