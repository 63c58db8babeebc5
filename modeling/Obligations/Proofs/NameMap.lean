import Mathlib.Data.List.Forall2
import Mathlib.Tactic.SplitIfs
import Obligations.NameMap

/-!
# Maps made from lists

What a map made from a list of assignments gives for a name: the last assignment to it
(`NameMap.find?_ofList_cons`). Renaming the names of a list in a one-to-one way, or changing what it
assigns, does the same to the map.
-/

namespace Obligations.NameMap

variable {α β : Type} {m : NameMap α} {es : List (Name × α)} {x : Name}

/-- Assignments made in turn replace what the map assigned before. -/
theorem find?_insertAll : (m.insertAll es).find? x = ((ofList es).find? x).or (m.find? x) := by
  induction es generalizing m with
  | nil => simp [insertAll, ofList]
  | cons e es ih =>
    have hcons : m.insertAll (e :: es) = (m.insert e.1 e.2).insertAll es := rfl
    have hofList : (ofList (e :: es)).find? x =
        ((ofList es).find? x).or ((empty.insert e.1 e.2).find? x) := ih
    rw [hcons, ih, hofList, find?_insert, find?_insert, find?_empty]
    split <;> simp

@[simp] theorem find?_ofList_nil : (ofList ([] : List (Name × α))).find? x = none := rfl

/-- The first assignment of a list counts if no later one is for the same name. -/
theorem find?_ofList_cons {k : Name} {a : α} : (ofList ((k, a) :: es)).find? x =
    ((ofList es).find? x).or (if x = k then some a else none) := by
  have hcons : ofList ((k, a) :: es) = (empty.insert k a).insertAll es := rfl
  rw [hcons, find?_insertAll, find?_insert, find?_empty]

/-- Erasing the names of a list removes their assignments and no others. -/
theorem find?_eraseAll {γ : Type} {f : γ → Name} {cs : List γ} :
    (cs.foldl (fun m c => m.erase (f c)) m).find? x =
      if x ∈ cs.map f then none else m.find? x := by
  induction cs generalizing m with
  | nil => simp
  | cons c cs ih =>
    rw [List.foldl_cons, ih, find?_erase, List.map_cons]
    by_cases hcs : x ∈ cs.map f
    · rw [if_pos hcs, if_pos (List.mem_cons_of_mem _ hcs)]
    · by_cases hc : x = f c
      · rw [if_neg hcs, if_pos hc, if_pos (List.mem_cons.2 (.inl hc))]
      · rw [if_neg hcs, if_neg hc, if_neg fun h => (List.mem_cons.1 h).elim hc hcs]

/-- Of two lists the later one counts first. -/
theorem find?_ofList_append {es' : List (Name × α)} :
    (ofList (es ++ es')).find? x = ((ofList es').find? x).or ((ofList es).find? x) := by
  have happend : ofList (es ++ es') = (ofList es).insertAll es' := List.foldl_append
  rw [happend, find?_insertAll]

/-- A list makes a map that assigns nothing to the names that do not occur in the list. -/
theorem find?_ofList_eq_none : (ofList es).find? x = none ↔ x ∉ es.map (·.1) := by
  induction es with
  | nil => simp
  | cons e es ih =>
    rw [find?_ofList_cons, Option.or_eq_none_iff, ih]
    simp [and_comm]

/-- What a list makes a map assign is assigned in the list. -/
theorem mem_of_find?_ofList {a : α} (h : (ofList es).find? x = some a) : (x, a) ∈ es := by
  induction es with
  | nil => simp at h
  | cons e es ih =>
    rw [find?_ofList_cons, Option.or_eq_some_iff] at h
    rcases h with h | ⟨-, h⟩
    · exact List.mem_cons_of_mem _ (ih h)
    · split at h
      · next heq =>
        cases h
        subst heq
        exact List.mem_cons_self
      · cases h

/-- Assignments of a list to distinct names are made. -/
theorem find?_ofList_of_mem {a : α} (hnodup : (es.map (·.1)).Nodup) (h : (x, a) ∈ es) :
    (ofList es).find? x = some a := by
  induction es with
  | nil => cases h
  | cons e es ih =>
    obtain ⟨hnot, hnodup⟩ := List.nodup_cons.1 hnodup
    rw [find?_ofList_cons]
    rcases List.mem_cons.mp h with rfl | h
    · rw [find?_ofList_eq_none.2 hnot]
      simp
    · rw [ih hnodup h]
      rfl

/-- Renaming the names in a way that tells a name from the others renames it in the map. -/
theorem find?_ofList_rename {κ : Name → Name} (hκ : ∀ e ∈ es, κ x = κ e.1 → x = e.1) :
    (ofList (es.map fun e => (κ e.1, e.2))).find? (κ x) = (ofList es).find? x := by
  induction es with
  | nil => rfl
  | cons e es ih =>
    obtain ⟨he, hκ⟩ := List.forall_mem_cons.1 hκ
    have hiff : κ x = κ e.1 ↔ x = e.1 := ⟨he, congrArg κ⟩
    rw [List.map_cons, find?_ofList_cons, find?_ofList_cons, ih hκ]
    simp only [hiff]

/-- Changing what is assigned changes it in the map. -/
theorem find?_ofList_map {f : α → β} :
    (ofList (es.map fun e => (e.1, f e.2))).find? x = ((ofList es).find? x).map f := by
  induction es with
  | nil => rfl
  | cons e es ih =>
    rw [List.map_cons, find?_ofList_cons, find?_ofList_cons, ih]
    split <;> cases (ofList es).find? x <;> rfl

/-- A list that assigns to each of some names what depends on the name alone. -/
theorem find?_ofList_map_self {xs : List Name} {f : Name → α} :
    (ofList (xs.map fun x => (x, f x))).find? x = if x ∈ xs then some (f x) else none := by
  induction xs with
  | nil => rfl
  | cons y xs ih =>
    rw [List.map_cons, find?_ofList_cons, ih]
    by_cases hx : x ∈ xs
    · simp [hx]
    · by_cases hy : x = y
      · subst hy
        simp [hx]
      · simp [hx, hy]

/-- A list that assigns to some of several names what depends on the name alone. -/
theorem find?_ofList_filterMap {xs : List Name} {f : Name → Option α} :
    (ofList (xs.filterMap fun x => (f x).map fun a => (x, a))).find? x =
      if x ∈ xs then f x else none := by
  induction xs with
  | nil => rfl
  | cons y xs ih =>
    rw [List.filterMap_cons]
    cases hy : f y with
    | none =>
      -- A name without a value is not in the map, whether or not it comes again.
      have hskip : (if x ∈ y :: xs then f x else none) = if x ∈ xs then f x else none := by
        by_cases hx : x = y
        · subst hx
          simp [hy]
        · simp [hx]
      rw [hskip]
      exact ih
    | some a =>
      simp only [Option.map_some]
      rw [find?_ofList_cons, ih]
      by_cases hx : x = y
      · subst hx
        rw [if_pos rfl, hy, if_pos List.mem_cons_self]
        split_ifs <;> rfl
      · simp [hx]

/-- Lists that assign related things to the same names make maps that do. -/
theorem rel_find?_ofList_zip {R : α → β → Prop} {as : List α} {bs : List β}
    (h : List.Forall₂ R as bs) (ks : List Name) (x : Name) :
    Option.Rel R ((ofList (ks.zip as)).find? x) ((ofList (ks.zip bs)).find? x) := by
  induction h generalizing ks with
  | nil =>
    rw [List.zip_nil_right, List.zip_nil_right]
    exact .none
  | cons hab _ ih =>
    cases ks with
    | nil => exact .none
    | cons k ks =>
      rw [List.zip_cons_cons, List.zip_cons_cons, find?_ofList_cons, find?_ofList_cons]
      have hrest := ih ks
      revert hrest
      generalize (ofList (ks.zip _)).find? x = o, (ofList (ks.zip _)).find? x = o'
      rintro (hrel | _)
      · exact .some hrel
      · split_ifs
        · exact .some hab
        · exact .none

/-- The names that have an assignment are those for which the map gives something. -/
theorem mem_keys : x ∈ m.keys ↔ ∃ a, m.find? x = some a := by
  obtain ⟨es⟩ := m
  unfold keys find?
  simp only [List.mem_map]
  constructor
  · rintro ⟨e, he, rfl⟩
    rw [← Option.isSome_iff_exists, List.findSome?_isSome_iff]
    exact ⟨e, he, by simp⟩
  · rintro ⟨a, ha⟩
    obtain ⟨e, he, heq⟩ := List.exists_of_findSome?_eq_some ha
    refine ⟨e, he, ?_⟩
    split_ifs at heq with hx
    exact hx

end Obligations.NameMap
