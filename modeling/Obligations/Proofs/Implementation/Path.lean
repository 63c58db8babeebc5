import Mathlib.Logic.Relation
import Obligations.Implementation.Basic

/-!
# Paths through a body

A path follows the transfers of a body from block to block. `Path.concat` and
`Path.eq_single_or_concat` let a path grow and shrink at its end, `Reachable.path` gives a path to
every reachable block. An order of blocks is topological (`IsTopologicalOrder`) if it lists exactly
the reachable blocks, each once and before its successors; `IsTopologicalOrder.mem_of_path` says
that a path from the entry stays within it.
-/

namespace Obligations.Implementation

variable {i : Implementation}

/-- The commands of a block, none if there is no block of that index. -/
def cmdsAt (i : Implementation) (id : Nat) : List Cmd := (i.blocks[id]?.map (·.cmds)).getD []

/-- The blocks of a path, with the first and the last of them. -/
inductive Path (i : Implementation) : Nat → List Nat → Nat → Prop
  /-- A path of one block. -/
  | single (id : Nat) : Path i id [id] id
  /-- A path that goes on from a block to one of its successors. -/
  | cons {id next last : Nat} {ids : List Nat} (edge : next ∈ i.successors id)
      (rest : Path i next ids last) : Path i id (id :: ids) last

/-- The commands of the blocks of a path, in turn. -/
def cmdsAlong (i : Implementation) (ids : List Nat) : List Cmd := ids.flatMap i.cmdsAt

/-- Control can come from the entry to a block. -/
def Reachable (i : Implementation) (id : Nat) : Prop :=
  Relation.ReflTransGen (fun a b => b ∈ i.successors a) i.entry id

/-- An order that lists the reachable blocks of a body, each once and before its successors. -/
structure IsTopologicalOrder (i : Implementation) (order : List Nat) : Prop where
  /-- No block is listed twice. -/
  nodup : order.Nodup
  /-- The blocks listed are the reachable ones. -/
  mem_iff : ∀ id, id ∈ order ↔ i.Reachable id
  /-- All of them exist. -/
  lt_length : ∀ id ∈ order, id < i.blocks.length
  /-- The successors of a block come after it. -/
  successors_after : ∀ before id after, order = before ++ id :: after →
    ∀ next ∈ i.successors id, next ∈ after

/-! ## Paths -/

/-- A path goes on to a successor of its last block. -/
theorem Path.concat {a b c : Nat} {ids : List Nat} (h : i.Path a ids b)
    (edge : c ∈ i.successors b) : i.Path a (ids ++ [c]) c := by
  induction h with
  | single id => exact .cons edge (.single c)
  | cons edge' _ ih => exact .cons edge' (ih edge)

/-- A path is a single block or comes to its last block from the path before it. -/
theorem Path.eq_single_or_concat {a c : Nat} {ids : List Nat} (h : i.Path a ids c) :
    (ids = [a] ∧ c = a) ∨
      ∃ before b, ids = before ++ [c] ∧ i.Path a before b ∧ c ∈ i.successors b := by
  induction h with
  | single id => exact .inl ⟨rfl, rfl⟩
  | @cons id next last ids edge _ ih =>
    right
    rcases ih with ⟨rfl, rfl⟩ | ⟨before, b, rfl, hp, hb⟩
    · exact ⟨[id], id, rfl, .single id, edge⟩
    · exact ⟨id :: before, b, rfl, .cons edge hp, hb⟩

/-- A block is reachable exactly if a path leads from the entry to it. -/
theorem reachable_iff_path {id : Nat} : i.Reachable id ↔ ∃ ids, i.Path i.entry ids id := by
  constructor
  · intro h
    induction h with
    | refl => exact ⟨_, .single _⟩
    | tail _ edge ih =>
      obtain ⟨ids, hp⟩ := ih
      exact ⟨_, hp.concat edge⟩
  · rintro ⟨ids, hp⟩
    unfold Reachable
    generalize i.entry = start at hp
    induction hp with
    | single id => exact .refl
    | cons edge _ ih => exact .head edge ih

/-- All blocks of a path from a reachable block are reachable. -/
theorem Path.reachable {a b : Nat} {ids : List Nat} (h : i.Path a ids b) (ha : i.Reachable a) :
    ∀ id ∈ ids, i.Reachable id := by
  induction h with
  | single id => simpa using ha
  | cons edge _ ih =>
    intro id hid
    rcases List.mem_cons.mp hid with rfl | hid
    · exact ha
    · exact ih (.tail ha edge) id hid

/-- The last block of a path is one of its blocks. -/
theorem Path.last_mem {a b : Nat} {ids : List Nat} (h : i.Path a ids b) : b ∈ ids := by
  induction h with
  | single id => exact List.mem_singleton_self id
  | cons _ _ ih => exact List.mem_cons_of_mem _ ih

/-- The first block of a path is one of its blocks. -/
theorem Path.first_mem {a b : Nat} {ids : List Nat} (h : i.Path a ids b) : a ∈ ids := by
  cases h with
  | single => exact List.mem_singleton_self a
  | cons => exact List.mem_cons_self

/-- A path goes on to a successor of each block before the last. -/
theorem Path.exists_next {a b : Nat} {ids before : List Nat} (h : i.Path a ids b)
    (hids : ids = before ++ [b]) : ∀ id ∈ before, ∃ next ∈ i.successors id, next ∈ ids := by
  induction h generalizing before with
  | single id =>
    cases before with
    | nil => exact fun _ h => by cases h
    | cons => simp at hids
  | @cons id next last ids edge rest ih =>
    intro id' hid'
    cases before with
    | nil => cases hid'
    | cons first before =>
      obtain ⟨rfl, hrest⟩ := List.cons.inj hids
      rcases List.mem_cons.mp hid' with rfl | hid'
      · exact ⟨next, edge, List.mem_cons_of_mem _ rest.first_mem⟩
      · obtain ⟨next', edge', hmem⟩ := ih hrest id' hid'
        exact ⟨next', edge', List.mem_cons_of_mem _ hmem⟩

@[simp] theorem cmdsAlong_nil : i.cmdsAlong [] = [] := rfl

@[simp] theorem cmdsAlong_cons (id : Nat) (ids : List Nat) :
    i.cmdsAlong (id :: ids) = i.cmdsAt id ++ i.cmdsAlong ids := rfl

@[simp] theorem cmdsAlong_singleton (id : Nat) : i.cmdsAlong [id] = i.cmdsAt id :=
  List.append_nil _

@[simp] theorem cmdsAlong_append (ids ids' : List Nat) :
    i.cmdsAlong (ids ++ ids') = i.cmdsAlong ids ++ i.cmdsAlong ids' := List.flatMap_append

/-! ## Topological orders -/

namespace IsTopologicalOrder

variable {order : List Nat}

/-- The entry comes in the order. -/
theorem entry_mem (h : i.IsTopologicalOrder order) : i.entry ∈ order :=
  (h.mem_iff _).2 .refl

/-- A path from the entry goes through blocks of the order only. -/
theorem mem_of_path (h : i.IsTopologicalOrder order) {ids : List Nat} {last : Nat}
    (hp : i.Path i.entry ids last) : ∀ id ∈ ids, id ∈ order :=
  fun id hid => (h.mem_iff id).2 (hp.reachable .refl id hid)

/-- A successor of a block of the order is in the order. -/
theorem successor_mem (h : i.IsTopologicalOrder order) {id next : Nat} (hid : id ∈ order)
    (edge : next ∈ i.successors id) : next ∈ order :=
  (h.mem_iff next).2 (.tail ((h.mem_iff id).1 hid) edge)

/-- A block that leads to a block of the first part of an order is in that part. -/
theorem mem_of_edge (h : i.IsTopologicalOrder order) {done rest : List Nat}
    (horder : order = done ++ rest) {id next : Nat} (hid : id ∈ order)
    (edge : next ∈ i.successors id) (hnext : next ∈ done) : id ∈ done := by
  refine Decidable.byContradiction fun hnot => ?_
  have hrest : id ∈ rest := (List.mem_append.mp (horder ▸ hid)).resolve_left hnot
  obtain ⟨before, after, rfl⟩ := List.append_of_mem hrest
  have hafter : next ∈ after :=
    h.successors_after (done ++ before) id after (by rw [horder, List.append_assoc]) next edge
  have hnodup := h.nodup
  rw [horder, List.nodup_append] at hnodup
  exact hnodup.2.2 next hnext next (List.mem_append_right _ (List.mem_cons_of_mem _ hafter)) rfl

/-- A block that leads to the next block of an order comes before it. -/
theorem mem_done_of_edge (h : i.IsTopologicalOrder order) {done rest : List Nat} {id next : Nat}
    (horder : order = done ++ next :: rest) (hid : id ∈ order) (edge : next ∈ i.successors id) :
    id ∈ done := by
  have hmem : id ∈ done ++ [next] := h.mem_of_edge
    (by rw [horder, List.append_assoc, List.singleton_append]) hid edge
    (List.mem_append_right _ (List.mem_singleton_self next))
  refine (List.mem_append.mp hmem).resolve_right fun hmem => ?_
  -- No block leads to itself.
  rw [List.mem_singleton] at hmem
  subst hmem
  have hafter := h.successors_after done id rest horder id edge
  have hnodup := h.nodup
  rw [horder, List.nodup_append] at hnodup
  exact (List.nodup_cons.mp hnodup.2.1).1 hafter

/-- A path from the entry to a block of the first part of an order stays within that part. -/
theorem mem_done_of_path (h : i.IsTopologicalOrder order) {done rest : List Nat}
    (horder : order = done ++ rest) {ids : List Nat} {last : Nat}
    (hp : i.Path i.entry ids last) (hlast : last ∈ done) : ∀ id ∈ ids, id ∈ done := by
  have hmem := h.mem_of_path hp
  generalize i.entry = start at hp
  induction hp with
  | single id => simpa using hlast
  | cons edge rest ih =>
    have hids := ih hlast fun id hid => hmem id (List.mem_cons_of_mem _ hid)
    intro id hid
    rcases List.mem_cons.mp hid with rfl | hid
    · exact h.mem_of_edge horder (hmem _ List.mem_cons_self) edge (hids _ rest.first_mem)
    · exact hids id hid

/-- The block of an index in the order. -/
theorem exists_block (h : i.IsTopologicalOrder order) {id : Nat} (hid : id ∈ order) :
    ∃ b, i.blocks[id]? = some b :=
  ⟨_, List.getElem?_eq_getElem (h.lt_length id hid)⟩

end IsTopologicalOrder

end Obligations.Implementation
