import Mathlib.Order.Bounds.Defs
import Obligations.Proofs.Implementation.LeastOrder

/-!
# The block that is blamed for a cycle

When the blocks of a body cannot be put in order, the first block that is left over is reported as
the one through which control flow is cyclic. The nodes left over are not only those of the cycles
but all those to which control comes from a cycle (`Graph.mem_left_iff`): a node that is taken is no
successor of one that is left (`Graph.not_mem_successors_of_left`), and each that is left has a
predecessor that is left, so that some cycle leads to it. Hence the block reported is the one of least
index behind a cycle (`Implementation.topologicalOrder_eq_cycle_iff`), which need not be on a cycle
itself (`Implementation.cycle_not_blamed_spinning`).
-/

namespace Obligations.Graph

variable {successors : Nat → List Nat} {nodes : List Nat} {a b : Nat}

/-- The nodes left over stand in the order in which they were given. -/
theorem left_sublist : (orderFrom successors nodes).2.Sublist nodes := by
  fun_induction orderFrom successors nodes with
  | case1 => exact List.Sublist.refl _
  | case2 nodes first h rest ih => exact ih.trans List.erase_sublist

/-- A node that is taken is no successor of a node that is left over. -/
theorem not_mem_successors_of_left (hb : b ∈ (orderFrom successors nodes).1)
    (ha : a ∈ (orderFrom successors nodes).2) : b ∉ successors a := by
  fun_induction orderFrom successors nodes with
  | case1 => cases hb
  | case2 nodes first h rest ih =>
    rcases List.mem_cons.1 hb with rfl | hb
    · exact not_mem_successors_of_source? h a (List.mem_of_mem_erase (left_sublist.mem ha))
    · exact ih hb ha

theorem taken_or_left (ha : a ∈ nodes) :
    a ∈ (orderFrom successors nodes).1 ∨ a ∈ (orderFrom successors nodes).2 :=
  List.mem_append.1 (orderFrom_perm.mem_iff.2 ha)

section

variable (hnodup : nodes.Nodup) (hclosed : ∀ a ∈ nodes, ∀ b ∈ successors a, b ∈ nodes)

include hnodup hclosed

/-- What leads to a node that is taken is taken before it. -/
theorem idxOf_lt_of_transGen (ha : a ∈ nodes)
    (hpath : Relation.TransGen (fun a b => b ∈ successors a) a b)
    (hb : b ∈ (orderFrom successors nodes).1) :
    a ∈ (orderFrom successors nodes).1 ∧
      (orderFrom successors nodes).1.idxOf a < (orderFrom successors nodes).1.idxOf b := by
  have hdistinct : (orderFrom successors nodes).1.Nodup :=
    (List.nodup_append.1 (orderFrom_perm.nodup_iff.2 hnodup)).1
  have hedge : ∀ {a b}, a ∈ nodes → b ∈ successors a → b ∈ (orderFrom successors nodes).1 →
      a ∈ (orderFrom successors nodes).1 ∧
        (orderFrom successors nodes).1.idxOf a < (orderFrom successors nodes).1.idxOf b := by
    intro a b ha edge hb
    have htaken := (taken_or_left ha).resolve_right fun hleft =>
      not_mem_successors_of_left hb hleft edge
    exact ⟨htaken, idxOf_lt_of_mem_successors hdistinct htaken hb edge⟩
  -- From the end of the path to its beginning, each node is taken before the next.
  induction hpath using Relation.TransGen.head_induction_on with
  | single edge => exact hedge ha edge hb
  | @head a c edge _ ih =>
    obtain ⟨hc, hlt⟩ := ih (hclosed a ha c edge)
    obtain ⟨htaken, hlt'⟩ := hedge ha edge hc
    exact ⟨htaken, hlt'.trans hlt⟩

/-- Left over are exactly the nodes to which a cycle leads. -/
theorem mem_left_iff : b ∈ (orderFrom successors nodes).2 ↔
    ∃ c ∈ nodes, Relation.TransGen (fun a b => b ∈ successors a) c c ∧
      Relation.ReflTransGen (fun a b => b ∈ successors a) c b := by
  constructor
  · intro hb
    classical
    -- Of the nodes left over, those that lead to this one have a predecessor among them.
    let leading := (orderFrom successors nodes).2.filter fun a =>
      Relation.ReflTransGen (fun a b => b ∈ successors a) a b
    have hmem : ∀ a, a ∈ leading ↔ a ∈ (orderFrom successors nodes).2 ∧
        Relation.ReflTransGen (fun a b => b ∈ successors a) a b := fun a => by
      simp [leading]
    have hne : leading ≠ [] := List.ne_nil_of_mem ((hmem b).2 ⟨hb, .refl⟩)
    obtain ⟨c, hc, hcycle⟩ := exists_transGen_self hne fun a ha => by
      obtain ⟨hleft, hpath⟩ := (hmem a).1 ha
      obtain ⟨other, hother, edge⟩ := exists_predecessor a hleft
      exact ⟨other, (hmem other).2 ⟨hother, hpath.head edge⟩, edge⟩
    obtain ⟨hleft, hpath⟩ := (hmem c).1 hc
    exact ⟨c, left_sublist.mem hleft, hcycle, hpath⟩
  · rintro ⟨c, hc, hcycle, hpath⟩
    induction hpath with
    | refl =>
      refine (taken_or_left hc).resolve_left fun htaken => ?_
      exact Nat.lt_irrefl _ (idxOf_lt_of_transGen hnodup hclosed hc hcycle htaken).2
    | tail _ edge ih =>
      refine (taken_or_left (hclosed _ (left_sublist.mem ih) _ edge)).resolve_left fun htaken => ?_
      exact not_mem_successors_of_left htaken ih edge

end

end Obligations.Graph

namespace Obligations.Implementation

variable {i : Implementation} {id : Nat} {label : Name}

/-- Control can come back to the block, along at least one edge. -/
def OnCycle (i : Implementation) (id : Nat) : Prop :=
  Relation.TransGen (fun a b => b ∈ i.successors a) id id

/-- Control can come to the block from a cycle that it can reach. -/
def BehindCycle (i : Implementation) (id : Nat) : Prop :=
  ∃ c, i.Reachable c ∧ i.OnCycle c ∧ Relation.ReflTransGen (fun a b => b ∈ i.successors a) c id

/-- A body that is well formed but for cycles. -/
structure WellFormedUpToCycles (i : Implementation) : Prop extends Consistent i where
  /-- There are blocks. -/
  nonempty : i.blocks ≠ []
  /-- Control can reach the blocks at which it leaves the body. -/
  reachable_of_ret : ∀ id, i.transferAt? id = some .ret → i.Reachable id

/-- The block of least index to which control comes from a cycle. -/
def IsFirstBehindCycle (i : Implementation) (id : Nat) : Prop := IsLeast {b | i.BehindCycle b} id

theorem OnCycle.lt_length (h : i.OnCycle id) : id < i.blocks.length := by
  obtain ⟨next, edge, -⟩ := Relation.TransGen.head'_iff.1 h
  exact lt_length_of_edge edge

/-- The blocks left over are those behind a cycle. -/
theorem mem_left_iff_behindCycle (hi : i.Consistent) :
    id ∈ (Graph.orderFrom i.successors i.reachableIds).2 ↔ i.BehindCycle id := by
  have hmem : ∀ {id}, id ∈ i.reachableIds ↔ id < i.blocks.length ∧ i.Reachable id :=
    mem_reachableIds_iff hi.lt_length
  have hnodup : i.reachableIds.Nodup := List.nodup_range.filter _
  rw [Graph.mem_left_iff hnodup fun a ha b edge =>
    hmem.2 ⟨hi.lt_length a b edge, (hmem.1 ha).2.tail edge⟩]
  constructor
  · rintro ⟨c, hc, hcycle, hpath⟩
    exact ⟨c, (hmem.1 hc).2, hcycle, hpath⟩
  · rintro ⟨c, hreach, hcycle, hpath⟩
    exact ⟨c, hmem.2 ⟨OnCycle.lt_length hcycle, hreach⟩, hcycle, hpath⟩

/-- The first of the blocks left over is the first behind a cycle. -/
theorem head?_left_eq_some_iff (hi : i.Consistent) :
    (Graph.orderFrom i.successors i.reachableIds).2.head? = some id ↔ i.IsFirstBehindCycle id := by
  -- The blocks left over stay in the order of their numbers, so the first of them is the least.
  have hsorted : (Graph.orderFrom i.successors i.reachableIds).2.Pairwise (· < ·) :=
    (List.pairwise_lt_range.filter _).sublist Graph.left_sublist
  have hmem : ∀ {b}, b ∈ (Graph.orderFrom i.successors i.reachableIds).2 ↔ i.BehindCycle b :=
    mem_left_iff_behindCycle hi
  generalize (Graph.orderFrom i.successors i.reachableIds).2 = left at hsorted hmem
  constructor
  · intro hhead
    obtain ⟨rest, rfl⟩ := List.head?_eq_some_iff.1 hhead
    refine ⟨hmem.1 List.mem_cons_self, fun b hb => ?_⟩
    rcases List.mem_cons.1 (hmem.2 hb) with rfl | hb
    · exact Nat.le_refl _
    · exact Nat.le_of_lt ((List.pairwise_cons.1 hsorted).1 b hb)
  · rintro ⟨hid, hleast⟩
    cases left with
    | nil => exact absurd (hmem.2 hid) List.not_mem_nil
    | cons first rest =>
      rcases List.mem_cons.1 (hmem.2 hid) with rfl | hrest
      · rfl
      · have hlt := (List.pairwise_cons.1 hsorted).1 id hrest
        exact absurd (hleast (hmem.1 List.mem_cons_self)) (Nat.not_le.2 hlt)

/-- A body that is well formed but for cycles gets to the search for an order. -/
theorem WellFormedUpToCycles.topologicalOrder_eq (h : i.WellFormedUpToCycles) :
    i.topologicalOrder = match Graph.orderFrom i.successors i.reachableIds with
      | (order, []) => .ok order
      | (_, stuck :: _) => .error (.cycle ((i.label? stuck).getD i.name)) := by
  obtain ⟨hdangling, hconsistent⟩ := consistent_iff.1 h.toConsistent
  have hreturn := (unreachableReturn?_eq_none_iff h.toConsistent).2 h.reachable_of_ret
  unfold topologicalOrder
  rewrite [if_neg (by simpa using h.nonempty), hdangling, hconsistent, hreturn]
  rfl

/-- A cycle is reported only after all other checks. -/
theorem wellFormedUpToCycles_of_cycle (h : i.topologicalOrder = .error (.cycle label)) :
    i.WellFormedUpToCycles := by
  have hnonempty : i.blocks ≠ [] := by
    intro hnil
    unfold topologicalOrder at h
    rw [hnil] at h
    cases h
  unfold topologicalOrder at h
  rw [if_neg (by simpa using hnonempty)] at h
  cases hdangling : i.danglingTarget? with
  | some => simp [hdangling] at h
  | none =>
  cases hconsistent : i.inconsistentBlock? with
  | some => simp [hdangling, hconsistent] at h
  | none =>
  cases hreturn : i.unreachableReturn? with
  | some => simp [hdangling, hconsistent, hreturn] at h
  | none =>
  have hi : i.Consistent := consistent_iff.2 ⟨hdangling, hconsistent⟩
  exact ⟨hi, hnonempty, (unreachableReturn?_eq_none_iff hi).1 hreturn⟩

theorem IsFirstBehindCycle.exists_label? (hi : i.Consistent) (h : i.IsFirstBehindCycle id) :
    ∃ label, i.label? id = some label := by
  have hleft := (mem_left_iff_behindCycle hi).2 h.1
  have hmem := (mem_reachableIds_iff hi.lt_length).1 (Graph.left_sublist.mem hleft)
  exact ⟨_, by rw [label?, List.getElem?_eq_getElem hmem.1]; rfl⟩

/-- A block is blamed for a cycle exactly if the body is well formed but for cycles and the block is
the first behind a cycle. -/
theorem topologicalOrder_eq_cycle_iff : i.topologicalOrder = .error (.cycle label) ↔
    i.WellFormedUpToCycles ∧ ∃ id, i.IsFirstBehindCycle id ∧ i.label? id = some label := by
  constructor
  · intro h
    have hi := wellFormedUpToCycles_of_cycle h
    refine ⟨hi, ?_⟩
    rw [hi.topologicalOrder_eq] at h
    split at h
    next => cases h
    next taken first rest heq =>
      have hfirst : i.IsFirstBehindCycle first :=
        (head?_left_eq_some_iff hi.toConsistent).1 (by rw [heq]; rfl)
      obtain ⟨name, hname⟩ := hfirst.exists_label? hi.toConsistent
      rw [hname, Option.getD_some] at h
      cases h
      exact ⟨first, hfirst, hname⟩
  · rintro ⟨hi, id, hfirst, hlabel⟩
    -- There is a block left over, so there is no order.
    have hhead := (head?_left_eq_some_iff hi.toConsistent).2 hfirst
    rw [hi.topologicalOrder_eq]
    split
    next order heq =>
      rw [heq] at hhead
      cases hhead
    next taken first rest heq =>
      rw [heq] at hhead
      rw [Option.some.inj hhead, hlabel, Option.getD_some]

/-- The check of a body reports the same cycle. -/
theorem check_eq_cycle_iff : i.check = .error (.malformed i.name (.cycle label)) ↔
    i.topologicalOrder = .error (.cycle label) := by
  unfold check Implementation.order
  cases i.topologicalOrder with
  | ok order => exact iff_of_false nofun nofun
  | error e =>
    constructor
    · rintro ⟨⟩
      rfl
    · rintro ⟨⟩
      rfl

/-- A reported cycle is that of the first block behind a cycle: a block is reported exactly if the
body is well formed but for cycles and no block before it is reached from a cycle. So the label that
is reported belongs to a block on a cycle exactly if the first block behind a cycle shares its label
with a block on a cycle. -/
theorem cycle_reported_iff (i : Implementation) :
    (∀ label, i.topologicalOrder = .error (.cycle label) ↔
      i.WellFormedUpToCycles ∧ ∃ id, i.IsFirstBehindCycle id ∧ i.label? id = some label) ∧
    (∀ label, i.check = .error (.malformed i.name (.cycle label)) ↔
      i.topologicalOrder = .error (.cycle label)) ∧
    ((∀ label, i.topologicalOrder = .error (.cycle label) →
        ∃ id, i.label? id = some label ∧ i.Reachable id ∧ i.OnCycle id) ↔
      (i.WellFormedUpToCycles → ∀ first, i.IsFirstBehindCycle first →
        ∃ id, i.label? id = i.label? first ∧ i.Reachable id ∧ i.OnCycle id)) := by
  refine ⟨fun _ => topologicalOrder_eq_cycle_iff, fun _ => check_eq_cycle_iff, ?_⟩
  constructor
  · intro h hi first hfirst
    obtain ⟨label, hlabel⟩ := hfirst.exists_label? hi.toConsistent
    rw [hlabel]
    exact h label (topologicalOrder_eq_cycle_iff.2 ⟨hi, first, hfirst, hlabel⟩)
  · intro h label hcycle
    obtain ⟨hi, first, hfirst, hlabel⟩ := topologicalOrder_eq_cycle_iff.1 hcycle
    rw [← hlabel]
    exact h hi first hfirst

/-- A body that spins in its last block, from which control can also go on to the exit. -/
def spinning : Implementation where
  name := ⟨"P"⟩
  inputs := []
  outputs := []
  locals := []
  attributes := []
  blocks :=
    [⟨⟨"entry"⟩, [], [], .goto [2]⟩, ⟨⟨"exit"⟩, [], [2], .ret⟩,
      ⟨⟨"loop"⟩, [], [0, 2], .goto [2, 1]⟩]
  entry := 0

theorem cycle_reported_iff_spinning :
    spinning.topologicalOrder = .error (.cycle ⟨"exit"⟩) ∧ spinning.WellFormedUpToCycles ∧
      ∃ id, spinning.IsFirstBehindCycle id ∧ spinning.label? id = some ⟨"exit"⟩ := by
  have hcycle : spinning.topologicalOrder = .error (.cycle ⟨"exit"⟩) := by cbv
  exact ⟨hcycle, ((cycle_reported_iff spinning).1 ⟨"exit"⟩).1 hcycle⟩

/-- The exit is blamed, although control ends there. -/
theorem cycle_not_blamed_spinning :
    spinning.topologicalOrder = .error (.cycle ⟨"exit"⟩) ∧
      ¬ ∃ id, spinning.label? id = some ⟨"exit"⟩ ∧ spinning.Reachable id ∧ spinning.OnCycle id := by
  refine ⟨by cbv, ?_⟩
  rintro ⟨id, hlabel, -, hcycle⟩
  obtain ⟨next, edge, -⟩ := Relation.TransGen.head'_iff.1 hcycle
  rcases id with _ | _ | _ | id
  · exact absurd hlabel (by decide)
  · cases edge
  · exact absurd hlabel (by decide)
  · cases hlabel

end Obligations.Implementation
