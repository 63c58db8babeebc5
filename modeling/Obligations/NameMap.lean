import Obligations.Name

/-!
# Finite maps from names

States, models, contexts and incarnation maps assign something to finitely many names. A later
assignment to a name replaces the earlier one. `find?_insert` and `find?_erase` say what the
operations do to the view `find?`; nothing else of the representation is used.
-/

namespace Obligations

/-- A finite map from names. -/
structure NameMap (α : Type) where
  /-- The entries, each name at most once. -/
  entries : List (Name × α)
deriving DecidableEq, Repr

namespace NameMap

variable {α β : Type}

/-- The map without entries. -/
def empty : NameMap α := ⟨[]⟩

instance : Inhabited (NameMap α) := ⟨empty⟩

/-- What the map assigns to a name. -/
def find? (m : NameMap α) (n : Name) : Option α :=
  m.entries.findSome? fun e => if e.1 = n then some e.2 else none

/-- Whether the map assigns something to a name. -/
def contains (m : NameMap α) (n : Name) : Bool := (m.find? n).isSome

/-- Removes the assignment to a name. -/
def erase (m : NameMap α) (n : Name) : NameMap α := ⟨m.entries.filter fun e => e.1 != n⟩

/-- Assigns a value to a name. -/
def insert (m : NameMap α) (n : Name) (a : α) : NameMap α := ⟨(n, a) :: (m.erase n).entries⟩

/-- Makes the assignments of a list in turn, so that the last one to a name stands. -/
def insertAll (m : NameMap α) (es : List (Name × α)) : NameMap α :=
  es.foldl (fun m e => m.insert e.1 e.2) m

/-- The map that a list of assignments makes. -/
def ofList (es : List (Name × α)) : NameMap α := empty.insertAll es

/-- The names that have an assignment. -/
def keys (m : NameMap α) : List Name := m.entries.map (·.1)

/-- The number of names that have an assignment. -/
def size (m : NameMap α) : Nat := m.entries.length

@[simp] theorem find?_empty (n : Name) : (empty : NameMap α).find? n = none := rfl

/-- Erasing a name removes its assignment and no other. -/
theorem find?_erase (m : NameMap α) (n k : Name) :
    (m.erase n).find? k = if k = n then none else m.find? k := by
  obtain ⟨es⟩ := m
  simp only [find?, erase]
  induction es with
  | nil => simp
  | cons e es ih => by_cases h : e.1 = n <;> by_cases hk : e.1 = k <;> grind

/-- An insertion changes the assignment of its name and no other. -/
theorem find?_insert (m : NameMap α) (n : Name) (a : α) (k : Name) :
    (m.insert n a).find? k = if k = n then some a else m.find? k := by
  have h := find?_erase m n k
  unfold find? at h ⊢
  by_cases hk : n = k
  · simp [insert, hk]
  · simp [insert, hk, Ne.symm hk, h]

end NameMap

end Obligations
