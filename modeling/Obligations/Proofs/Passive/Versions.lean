import Obligations.Proofs.Name
import Obligations.Proofs.Passive.Simulation

/-!
# Versions and incarnation maps

A version has a name that is not in use (`Passive.Scene.Tracks.next`): names in use are base names,
and the versions of a variable with numbers below its count. An incarnation map is sound
(`Passive.Scene.Sound`) if only names in force have something that stands for them, and what stands
for a name is a literal or a single name in use.
-/

namespace Obligations

/-- The names in use: some base names, and the versions made so far. -/
def Versions.Used (s : Versions) (E : List Name) (x : Name) : Prop :=
  x ∈ E ∨ ∃ y n, n < (s.counts.find? y).getD 0 ∧ x = y.incarnation n

namespace Versions

variable {s : Versions} {E : List Name}

/-- The versions after the next version of a variable of a type is made. -/
def grow (s : Versions) (x : Name) (ty : Ty) (o : Origin) : Versions :=
  let n := (s.counts.find? x).getD 0
  let v : Variable := ⟨x.incarnation n, ty, none, .incarnation x n⟩
  { s with
    declarations := s.declarations.insert v.name v
    counts := s.counts.insert x (n + 1)
    origins := s.origins.insert v.name o
    made := s.made ++ [v] }

/-- A declared variable gets its next version. -/
theorem next_eq_ok {x : Name} {v : Variable} (hv : s.declarations.find? x = some v) (o : Origin) :
    (s.next x o).outcome =
      .ok (x.incarnation ((s.counts.find? x).getD 0), s.grow x v.ty o) := by
  rw [next, hv]
  rfl

/-- Making the next version of a variable counts it. -/
theorem count_grow {x y : Name} {ty : Ty} {o : Origin} :
    ((s.grow x ty o).counts.find? y).getD 0 =
      if y = x then (s.counts.find? x).getD 0 + 1 else (s.counts.find? y).getD 0 := by
  unfold grow
  rw [NameMap.find?_insert]
  split_ifs <;> rfl

/-- Making the next version of a variable brings its name into use. -/
theorem used_grow {x y : Name} {ty : Ty} {o : Origin} : (s.grow x ty o).Used E y ↔
    s.Used E y ∨ y = x.incarnation ((s.counts.find? x).getD 0) := by
  constructor
  · rintro (hmem | ⟨z, m, hm, rfl⟩)
    · exact .inl (.inl hmem)
    · rw [count_grow] at hm
      split_ifs at hm with hz
      · -- The number is that of an earlier version or that of the new one.
        subst hz
        rcases Nat.lt_succ_iff_lt_or_eq.mp hm with hm | rfl
        · exact .inl (.inr ⟨z, m, hm, rfl⟩)
        · exact .inr rfl
      · exact .inl (.inr ⟨z, m, hm, rfl⟩)
  · rintro ((hmem | ⟨z, m, hm, rfl⟩) | rfl)
    · exact .inl hmem
    · refine .inr ⟨z, m, ?_, rfl⟩
      rw [count_grow]
      split_ifs with hz
      · subst hz
        exact Nat.lt_succ_of_lt hm
      · exact hm
    · refine .inr ⟨x, _, ?_, rfl⟩
      rw [count_grow, if_pos rfl]
      exact Nat.lt_succ_self _

end Versions

namespace Passive

variable {I : Interpretation} {S : Scene I} {s s' : Versions} {E E' : List Name}

/-- More base names make more names to use. -/
theorem Used.mono {x : Name} (h : s.Used E x) (hE : ∀ x ∈ E, x ∈ E') : s.Used E' x :=
  h.imp_left (hE x)

/-- The versions made so far are versions of declared names, and the declarations of declared names
are those of the scene. -/
structure Scene.Tracks (S : Scene I) (s : Versions) : Prop where
  /-- The declarations of declared names are those of the scene. -/
  declarations : ∀ x ∈ S.declared, s.declarations.find? x = S.declarations.find? x
  /-- Only declared names have versions. -/
  counts : ∀ x n, s.counts.find? x = some n → x ∈ S.declared

namespace Scene.Tracks

/-- A declared name is no version. -/
theorem isIncarnation_eq_false (h : S.Tracks s) {x : Name} (hx : x ∈ S.declared) :
    s.isIncarnation x = false := by
  obtain ⟨v, hv, hnot⟩ := S.find?_declared x hx
  rw [Versions.isIncarnation, h.declarations x hx, hv]
  exact hnot

/-- The condition on a declared name is that of the scene. -/
theorem whereClause?_eq (h : S.Tracks s) {x : Name} (hx : x ∈ S.declared) :
    s.whereClause? x = (S.declarations.find? x).bind (·.whereClause) := by
  rw [Versions.whereClause?, h.declarations x hx]

/-- The name of the next version of a declared name has not been in use. -/
theorem not_used_incarnation (hE : ∀ y ∈ E, y ∈ S.declared) {x : Name} (hx : x ∈ S.declared) :
    ¬ s.Used E (x.incarnation ((s.counts.find? x).getD 0)) := by
  rintro (hmem | ⟨y, m, hm, heq⟩)
  · exact S.ne_incarnation _ (hE _ hmem) x hx _ rfl
  · obtain ⟨rfl, rfl⟩ := Name.incarnation_injective heq
    exact Nat.lt_irrefl _ hm

/-- The next version of a declared name is one of a declared name. -/
theorem grow (h : S.Tracks s) {x : Name} (hx : x ∈ S.declared) (ty : Ty) (o : Origin) :
    S.Tracks (s.grow x ty o) where
  declarations y hy := by
    unfold Versions.grow
    rw [NameMap.find?_insert, if_neg (S.ne_incarnation y hy x hx _), h.declarations y hy]
  counts y n hn := by
    unfold Versions.grow at hn
    rw [NameMap.find?_insert] at hn
    split_ifs at hn with hyx
    · rw [hyx]
      exact hx
    · exact h.counts y n hn

/-- A declared name has a next version, whose name has not been in use. -/
theorem next (h : S.Tracks s) {x : Name} (hx : x ∈ S.declared) (o : Origin) :
    ∃ n s', (s.next x o).outcome = .ok (n, s') ∧ S.Tracks s' ∧
      (∀ E, (∀ y ∈ E, y ∈ S.declared) → ¬ s.Used E n) ∧
      ∀ E y, s'.Used E y ↔ s.Used E y ∨ y = n := by
  obtain ⟨v, hv, -⟩ := S.find?_declared x hx
  have hfind : s.declarations.find? x = some v := (h.declarations x hx).trans hv
  exact ⟨_, _, Versions.next_eq_ok hfind o, h.grow hx v.ty o,
    fun E hE => not_used_incarnation hE hx, fun E y => Versions.used_grow⟩

end Scene.Tracks

/-! ## Incarnation maps -/

/-- A literal or a single name has a value. -/
theorem exists_value_of_isAtomic {e : Expr} (h : isAtomic e = true) (ν : I.State) :
    ∃ a, I.value ν.passive e = some a := by
  cases e with
  | literal l => exact ⟨_, rfl⟩
  | symbol x => exact ⟨_, rfl⟩
  | old | unary | binary | apply => cases h

/-- An incarnation map is sound: only names in force have something that stands for them, and what
stands for a name is a literal or a single name in use. -/
structure Scene.Sound (S : Scene I) (E V : List Name) (s : Versions) (map : NameMap Expr) :
    Prop where
  /-- The versions are those of declared names. -/
  tracks : S.Tracks s
  /-- Only names in force have something that stands for them. -/
  keys : ∀ x e, map.find? x = some e → x ∈ V
  /-- What stands for a name is a literal or a single name. -/
  atomic : ∀ x e, map.find? x = some e → isAtomic e = true
  /-- That name is in use. -/
  used : ∀ x e, map.find? x = some e → ∀ y ∈ e.names, s.Used E y

namespace Scene.Sound

variable {V : List Name} {map : NameMap Expr} {x : Name}

/-- What stands for a name has a value. -/
theorem exists_value (h : S.Sound E V s map) (ν : I.State) (x : Name) :
    ∃ a, I.value ν.passive (standsFor map x) = some a := by
  unfold standsFor
  cases he : map.find? x with
  | none => exact ⟨_, rfl⟩
  | some e => exact exists_value_of_isAtomic (h.atomic x e he) ν

/-- What stands for a base name is in use. -/
theorem used_standsFor (h : S.Sound E V s map) (hx : x ∈ E) :
    ∀ y ∈ (standsFor map x).names, s.Used E y := by
  unfold standsFor
  cases he : map.find? x with
  | none =>
    intro y hy
    rw [Expr.mem_names_symbol.1 hy]
    exact .inl hx
  | some e => exact h.used x e he

/-- What stands for the names of an expression over base names is in use. -/
theorem used_standIn (h : S.Sound E V s map) {e : Expr} (he : ∀ x ∈ e.names, x ∈ E) :
    ∀ y ∈ (standIn S.frame map e).names, s.Used E y := by
  intro y hy
  obtain ⟨⟨t, x⟩, hx, hy⟩ := Expr.exists_of_mem_names_substAt e .current hy
  have hxE : x ∈ E := he x (Expr.mem_names_of_mem_readsAt hx)
  -- What is read on entry is a name itself if it denotes its value on entry.
  cases t with
  | current => exact h.used_standsFor hxE y hy
  | entry =>
    have hframe : S.frame.find? x = if x ∈ S.modified then some (.symbol x) else none :=
      NameMap.find?_ofList_map_self
    change y ∈ (((S.frame.find? x).or (map.find? x)).getD (.symbol x)).names at hy
    rw [hframe] at hy
    split_ifs at hy
    · rw [Expr.mem_names_symbol.1 hy]
      exact .inl hxE
    · exact h.used_standsFor hxE y hy

/-- A literal or a single name in use may come to stand for a name in force. -/
theorem insert (h : S.Sound E V s map) (hx : x ∈ V) {e : Expr} (hatomic : isAtomic e = true)
    (hused : ∀ y ∈ e.names, s.Used E y) : S.Sound E V s (map.insert x e) := by
  have hfind : ∀ y e', (map.insert x e).find? y = some e' →
      y = x ∧ e' = e ∨ map.find? y = some e' := by
    intro y e' he'
    rw [NameMap.find?_insert] at he'
    split_ifs at he' with hyx
    · exact .inl ⟨hyx, (Option.some.inj he').symm⟩
    · exact .inr he'
  refine ⟨h.tracks, fun y e' he' => ?_, fun y e' he' => ?_, fun y e' he' => ?_⟩
  · rcases hfind y e' he' with ⟨rfl, -⟩ | he'
    · exact hx
    · exact h.keys y e' he'
  · rcases hfind y e' he' with ⟨-, rfl⟩ | he'
    · exact hatomic
    · exact h.atomic y e' he'
  · rcases hfind y e' he' with ⟨-, rfl⟩ | he'
    · exact hused
    · exact h.used y e' he'

/-- A map stays sound when more names come to be in use and in force. -/
theorem mono {V' : List Name} (h : S.Sound E V s map) (htracks : S.Tracks s')
    (hused : ∀ x, s.Used E x → s'.Used E' x) (hV : ∀ x ∈ V, x ∈ V') : S.Sound E' V' s' map :=
  ⟨htracks, fun x e he => hV x (h.keys x e he), h.atomic,
    fun x e he y hy => hused y (h.used x e he y hy)⟩

/-- A map stays sound when nothing stands any more for locals that go out of force. -/
theorem eraseAll {V' : List Name} (h : S.Sound E V s map) (locals : List Variable)
    (hV : ∀ x ∈ V, x ∉ locals.map (·.name) → x ∈ V') :
    S.Sound E V' s (locals.foldl (fun m v => m.erase v.name) map) := by
  have hfind : ∀ x e, (locals.foldl (fun m v => m.erase v.name) map).find? x = some e →
      x ∉ locals.map (·.name) ∧ map.find? x = some e := by
    intro x e he
    rw [NameMap.find?_eraseAll] at he
    split_ifs at he with hx
    exact ⟨hx, he⟩
  refine ⟨h.tracks, fun x e he => ?_, fun x e he => ?_, fun x e he => ?_⟩
  · obtain ⟨hx, he⟩ := hfind x e he
    exact hV x (h.keys x e he) hx
  · exact h.atomic x e (hfind x e he).2
  · exact h.used x e (hfind x e he).2

end Scene.Sound

theorem standsFor_insert (map : NameMap Expr) (x y : Name) (e : Expr) :
    standsFor (map.insert x e) y = if y = x then e else standsFor map y := by
  unfold standsFor
  rw [NameMap.find?_insert]
  split_ifs <;> rfl

namespace Scene.Represents

variable {V : List Name} {map : NameMap Expr} {X : Name → Prop} {ν ν' σ : I.State}

/-- A valuation that gives the names in use the same values represents the same state. -/
theorem of_agree (h : S.Represents map X ν σ) (hs : S.Sound E V s map)
    (houter : ∀ x ∈ S.outer, x ∈ E) (hX : ∀ x, X x → x ∈ E) (hν : Agree (s.Used E) ν ν') :
    S.Represents map X ν' σ := by
  refine ⟨fun x hmod hx => ?_, fun x hx => ?_⟩
  · rw [hν x (.inl (houter x hx))]
    exact h.starts x hmod hx
  · -- What stands for a name is in use, so that its value is the same.
    rw [value_passive_congr hν (hs.used_standsFor (hX x hx))]
    exact h.stands x hx

/-- Where a value comes to stand for a name, the name gets that value. -/
theorem insert (h : S.Represents map X ν σ) {x : Name} {e : Expr} {a : I.Carrier}
    (he : I.value ν.passive e = some a) :
    S.Represents (map.insert x e) (fun y => X y ∨ y = x) ν (Function.update σ x a) := by
  refine ⟨h.starts, fun y hy => ?_⟩
  rw [standsFor_insert]
  split_ifs with hyx
  · rw [hyx, Function.update_self]
    exact he
  · rw [Function.update_of_ne hyx]
    exact h.stands y (hy.resolve_right hyx)

/-- Being one of several names is being the first of them or one of the others. -/
theorem of_cons {x : Name} {xs : List Name}
    (h : S.Represents map (fun y => (X y ∨ y = x) ∨ y ∈ xs) ν σ) :
    S.Represents map (fun y => X y ∨ y ∈ x :: xs) ν σ := by
  refine h.mono fun y hy => ?_
  rw [List.mem_cons, ← or_assoc] at hy
  exact hy

end Scene.Represents

/-- A new name has the value that it is given. -/
theorem value_symbol_update (ν : I.State) (n : Name) (a : I.Carrier) :
    I.value (Interpretation.State.passive (Function.update ν n a)) (.symbol n) = some a :=
  congrArg some (Function.update_self n a ν)

/-- Giving a new name a value leaves the names in use as they are. -/
theorem agree_update {n : Name} {ν : I.State} {U : Name → Prop} (hn : ¬ U n) (a : I.Carrier) :
    Agree U ν (Function.update ν n a) := by
  intro x hx
  have hne : x ≠ n := by
    rintro rfl
    exact hn hx
  exact Function.update_of_ne hne a ν

end Passive

end Obligations
