/-!
# Names and the order of their first mention

Variables, procedures, functions, blocks and attributes are known by a name, and two names are one
name exactly when their texts agree. Wherever an answer lists names in a canonical order, that order
is the one in which the names were first mentioned. `Lexicon` holds that order. A stage that makes
up a name mentions it at the moment it makes it, so such stages run in `Naming`.

`Lexicon.mention_idem` says that a second mention changes nothing, and `Lexicon.rank_mention` that a
mention keeps the rank of every name that was there before.
-/

namespace Obligations

/-- The name of a variable, a procedure, a function, a type, a block or an attribute. -/
structure Name where
  /-- The text under which the name is written. -/
  text : String
deriving DecidableEq, Repr, Hashable, Inhabited

namespace Name

instance : ToString Name := ⟨Name.text⟩

/-- `x@n`, the name of version number `n` of the variable `x`. -/
def incarnation (x : Name) (sequence : Nat) : Name := ⟨x.text ++ "@" ++ toString sequence⟩

/-- `old(x)`, the name under which states and models keep the value of `x` on entry. -/
def onEntry (x : Name) : Name := ⟨"old(" ++ x.text ++ ")"⟩

end Name

/-- Names in the order of their first mention, each once. -/
structure Lexicon where
  /-- The names mentioned so far, the earliest first. -/
  names : List Name
  /-- No name is listed twice. -/
  nodup : names.Nodup
deriving DecidableEq

namespace Lexicon

/-- Before anything is read only the empty name has been mentioned. -/
def initial : Lexicon := ⟨[⟨""⟩], by simp⟩

/-- Records a mention of a name: a new name comes after all others. -/
def mention (l : Lexicon) (n : Name) : Lexicon :=
  if h : n ∈ l.names then l
  else ⟨l.names ++ [n], by
    rw [List.nodup_append]
    exact ⟨l.nodup, by simp, fun a ha b hb e => h (by simp_all)⟩⟩

/-- The number of names mentioned before `n`; a name never mentioned comes after all others. -/
def rank (l : Lexicon) (n : Name) : Nat := l.names.idxOf n

/-- Whether `a` was mentioned no later than `b`. -/
def le (l : Lexicon) (a b : Name) : Bool := l.rank a ≤ l.rank b

/-- The names in the order of their first mention, repetitions kept. -/
def sort (l : Lexicon) (ns : List Name) : List Name := ns.mergeSort l.le

/-- The set of the given names, listed in the order of their first mention. -/
def sortedSet (l : Lexicon) (ns : List Name) : List Name := l.sort ns.eraseDups

theorem mem_mention {l : Lexicon} {m n : Name} : m ∈ (l.mention n).names ↔ m ∈ l.names ∨ m = n := by
  unfold mention
  split
  · constructor
    · exact .inl
    · rintro (h | rfl) <;> assumption
  · simp

/-- Mentioning a name twice is mentioning it once. -/
theorem mention_idem (l : Lexicon) (n : Name) : (l.mention n).mention n = l.mention n := by
  have h : n ∈ (l.mention n).names := mem_mention.2 (.inr rfl)
  generalize l.mention n = l' at h
  simp [mention, h]

/-- A mention keeps the rank of every name mentioned before. -/
theorem rank_mention {l : Lexicon} {m : Name} (h : m ∈ l.names) (n : Name) :
    (l.mention n).rank m = l.rank m := by
  unfold mention rank
  split
  · rfl
  · simp [List.idxOf_append, h]

theorem mem_sort {l : Lexicon} {ns : List Name} {n : Name} : n ∈ l.sort ns ↔ n ∈ ns := by
  simp [sort]

theorem mem_sortedSet {l : Lexicon} {ns : List Name} {n : Name} : n ∈ l.sortedSet ns ↔ n ∈ ns := by
  simp [sortedSet, mem_sort]

end Lexicon

/-- A computation that may mention names. -/
abbrev Naming := StateM Lexicon

/-- A computation that may mention names and may fail; a failure keeps the mentions made before. -/
abbrev NamingExcept (ε : Type) := ExceptT ε (StateM Lexicon)

/-- Mentions a name and gives it back. -/
def Naming.mention (n : Name) : Naming Name := do
  modify (·.mention n)
  return n

end Obligations
