import Obligations.Proofs.Implementation.Order
import Obligations.Proofs.Inference.Sites

/-!
# Heights in the call graph

Bodies that reach each other by calls make up a component. The bodies below a body are those that it
reaches and that do not reach it, and its height is one more than the greatest height below it
(`CallGraph.height_le_iff`). The approximations of the heights come to a stop because there are
fewer bodies below a body that is below another one than below that one
(`CallGraph.length_bodiesBelow_lt`). So a call that leaves a component goes down
(`CallGraph.height_lt`), and the bodies of a component are at one height
(`CallGraph.height_eq_of_mutual`).
-/

namespace Obligations

namespace CallGraph

variable {g : CallGraph} {i j k : Nat}

/-- Only bodies of the program are called. -/
def Closed (g : CallGraph) : Prop := ∀ i, ∀ j ∈ g.successors i, j < g.size

/-- Calls lead from a body to another one or to itself. -/
def Reaches (g : CallGraph) : Nat → Nat → Prop :=
  Relation.ReflTransGen fun a b => b ∈ g.successors a

/-- Two bodies reach each other. -/
def Mutual (g : CallGraph) (i j : Nat) : Prop := g.Reaches i j ∧ g.Reaches j i

/-- A body that is reached from a body of the program is one. -/
theorem Reaches.lt_size (hg : g.Closed) (h : g.Reaches i j) (hi : i < g.size) : j < g.size := by
  induction h with
  | refl => exact hi
  | tail _ edge _ => exact hg _ _ edge

/-- A body calls others only if it is one of the program. -/
theorem lt_size_of_mem_successors (h : j ∈ g.successors i) : i < g.size := by
  unfold successors at h
  by_contra hi
  have hnone : g.callees[i]? = none := List.getElem?_eq_none (Nat.le_of_not_lt hi)
  rw [hnone] at h
  cases h

theorem mem_callers_iff : j ∈ g.callers i ↔ i ∈ g.successors j := by
  unfold callers
  rw [List.mem_filter, List.mem_range, decide_eq_true_iff]
  exact and_iff_right_of_imp lt_size_of_mem_successors

/-! ## The bodies below a body -/

/-- The bodies listed as reached are those that are reached. -/
theorem mem_reach_iff (hg : g.Closed) (hi : i < g.size) : j ∈ g.reach i ↔ g.Reaches i j := by
  have hstep : ∀ a b, Graph.StepWithin g.successors (List.range g.size) a b ↔
      b ∈ g.successors a := fun a b =>
    and_iff_left_of_imp fun edge => List.mem_range.2 (hg a b edge)
  unfold reach Reaches
  rw [Graph.mem_reachFrom_iff List.nodup_range]
  simp only [List.mem_singleton, exists_eq_left, List.mem_range, hi, true_and]
  rw [show Graph.StepWithin g.successors (List.range g.size) = fun a b => b ∈ g.successors a from
    funext₂ fun a b => propext (hstep a b)]

/-- The bodies below a body. -/
def bodiesBelow (g : CallGraph) (i : Nat) : List Nat := (g.below[i]?).getD []

theorem length_below (g : CallGraph) : g.below.length = g.size := by
  simp [below]

/-- They are those that the body reaches and that do not reach it. -/
theorem mem_bodiesBelow_iff (hg : g.Closed) (hi : i < g.size) :
    j ∈ g.bodiesBelow i ↔ g.Reaches i j ∧ ¬ g.Reaches j i := by
  have hreached : ∀ k, k < g.size → (((List.range g.size).map g.reach)[k]?).getD [] = g.reach k :=
    fun k hk => by simp [hk]
  have hlist : g.bodiesBelow i =
      (g.reach i).filter fun j => i ∉ (((List.range g.size).map g.reach)[j]?).getD [] := by
    unfold bodiesBelow below
    simp [hi]
  rw [hlist, List.mem_filter, mem_reach_iff hg hi, decide_eq_true_iff]
  refine and_congr_right fun h => ?_
  have hj : j < g.size := h.lt_size hg hi
  rw [hreached j hj, mem_reach_iff hg hj]

/-- A body that is called from outside its component is below the caller. -/
theorem mem_bodiesBelow_of_call (hg : g.Closed) (h : j ∈ g.successors i) (hne : ¬ g.Mutual i j) :
    j ∈ g.bodiesBelow i := by
  have hij : g.Reaches i j := .single h
  rw [mem_bodiesBelow_iff hg (lt_size_of_mem_successors h)]
  exact ⟨hij, fun hji => hne ⟨hij, hji⟩⟩

/-- What is below a body that is below another one is below that one. -/
theorem mem_bodiesBelow_trans (hg : g.Closed) (hi : i < g.size) (hj : j ∈ g.bodiesBelow i)
    (hk : k ∈ g.bodiesBelow j) : k ∈ g.bodiesBelow i := by
  obtain ⟨hij, hji⟩ := (mem_bodiesBelow_iff hg hi).1 hj
  obtain ⟨hjk, -⟩ := (mem_bodiesBelow_iff hg (hij.lt_size hg hi)).1 hk
  exact (mem_bodiesBelow_iff hg hi).2 ⟨hij.trans hjk, fun hki => hji (hjk.trans hki)⟩

/-- The search lists no body twice. -/
theorem nodup_reachFrom {successors : Nat → List Nat} {unvisited queue : List Nat}
    (hu : unvisited.Nodup) : (Graph.reachFrom successors unvisited queue).Nodup := by
  fun_induction Graph.reachFrom successors unvisited queue with
  | case1 => exact .nil
  | case2 unvisited node queue hnode ih =>
    refine List.nodup_cons.2 ⟨fun hagain => ?_, ih (hu.erase node)⟩
    -- A node listed later was unvisited when this one no longer was.
    obtain ⟨start, -, hstart, hpath⟩ := (Graph.mem_reachFrom_iff (hu.erase node)).1 hagain
    cases hpath with
    | refl => exact (hu.mem_erase_iff.1 hstart).1 rfl
    | tail _ edge => exact (hu.mem_erase_iff.1 edge.2).1 rfl
  | case3 unvisited node queue hnode ih => exact ih hu

theorem nodup_bodiesBelow (g : CallGraph) (i : Nat) : (g.bodiesBelow i).Nodup := by
  unfold bodiesBelow
  by_cases hi : i < g.size
  · have hnodup : (g.reach i).Nodup := nodup_reachFrom List.nodup_range
    unfold below
    simp only [List.getElem?_map, List.getElem?_zipIdx, List.getElem?_range hi, Option.map_some,
      Option.getD_some]
    exact hnodup.filter _
  · rw [List.getElem?_eq_none (by rw [length_below]; omega)]
    exact .nil

/-- There are fewer bodies below a body that is below another one than below that one. -/
theorem length_bodiesBelow_lt (hg : g.Closed) (hi : i < g.size) (hj : j ∈ g.bodiesBelow i) :
    (g.bodiesBelow j).length < (g.bodiesBelow i).length := by
  have hself : j ∉ g.bodiesBelow j := fun h => by
    have hj' : j < g.size := ((mem_bodiesBelow_iff hg hi).1 hj).1.lt_size hg hi
    exact ((mem_bodiesBelow_iff hg hj').1 h).2 .refl
  have hsub : j :: g.bodiesBelow j ⊆ g.bodiesBelow i :=
    List.cons_subset.2 ⟨hj, fun k hk => mem_bodiesBelow_trans hg hi hj hk⟩
  have hnodup : (j :: g.bodiesBelow j).Nodup :=
    List.nodup_cons.2 ⟨hself, g.nodup_bodiesBelow j⟩
  exact (hnodup.subperm hsub).length_le

/-- There are at most as many bodies below a body as there are bodies. -/
theorem length_bodiesBelow_le (hg : g.Closed) (i : Nat) : (g.bodiesBelow i).length ≤ g.size := by
  by_cases hi : i < g.size
  · have hsub : g.bodiesBelow i ⊆ List.range g.size := fun j hj =>
      List.mem_range.2 (((mem_bodiesBelow_iff hg hi).1 hj).1.lt_size hg hi)
    simpa using ((g.nodup_bodiesBelow i).subperm hsub).length_le
  · unfold bodiesBelow
    rw [List.getElem?_eq_none (by rw [length_below]; omega)]
    exact Nat.zero_le _

/-! ## Heights -/

/-- The height of a body. -/
def height (g : CallGraph) (i : Nat) : Nat := (g.heights[i]?).getD 0

/-- An approximation of the height of a body. -/
def heightAfter (g : CallGraph) (n i : Nat) : Nat := ((heightsAfter g.below n)[i]?).getD 0

/-- The greatest of some numbers is at most a bound that all keep. -/
theorem foldl_max_le_iff {ns : List Nat} {m bound : Nat} :
    ns.foldl max m ≤ bound ↔ m ≤ bound ∧ ∀ n ∈ ns, n ≤ bound := by
  induction ns generalizing m with
  | nil => simp
  | cons n ns ih => rw [List.foldl_cons, ih, List.forall_mem_cons, max_le_iff, and_assoc]

/-- An approximation goes by the one before it. -/
theorem heightAfter_succ_le_iff {n bound : Nat} :
    g.heightAfter (n + 1) i ≤ bound ↔ ∀ j ∈ g.bodiesBelow i, g.heightAfter n j < bound := by
  unfold heightAfter bodiesBelow
  rw [heightsAfter, List.getElem?_map]
  cases g.below[i]? with
  | none => simp
  | some js =>
    simp only [Option.map_some, Option.getD_some]
    rw [foldl_max_le_iff, and_iff_right (Nat.zero_le _), List.forall_mem_map]
    rfl

/-- An approximation is exact for a body that has not more bodies below it than steps were made. -/
theorem heightAfter_succ (hg : g.Closed) {n : Nat} :
    ∀ i, i < g.size → (g.bodiesBelow i).length ≤ n →
      g.heightAfter (n + 1) i = g.heightAfter n i := by
  induction n with
  | zero =>
    intro i _ hlength
    have hnil : g.bodiesBelow i = [] := List.eq_nil_of_length_eq_zero (Nat.le_zero.1 hlength)
    have hzero : g.heightAfter 0 i = 0 := by
      unfold heightAfter heightsAfter
      rw [List.getElem?_map]
      cases g.below[i]? <;> rfl
    have hle : g.heightAfter (0 + 1) i ≤ 0 := heightAfter_succ_le_iff.2 (by simp [hnil])
    rw [hzero]
    exact Nat.le_zero.1 hle
  | succ n ih =>
    intro i hi hlength
    have hsame : ∀ j ∈ g.bodiesBelow i, g.heightAfter (n + 1) j = g.heightAfter n j := by
      intro j hj
      have hlt := length_bodiesBelow_lt hg hi hj
      exact ih j (((mem_bodiesBelow_iff hg hi).1 hj).1.lt_size hg hi) (by omega)
    -- A height is told by its bounds, and these ask about the bodies below only.
    refine eq_of_forall_ge_iff fun bound => ?_
    rw [heightAfter_succ_le_iff, heightAfter_succ_le_iff]
    exact forall₂_congr fun j hj => by rw [hsame j hj]

/-- The height of a body is one more than the greatest height below it. -/
theorem height_le_iff (hg : g.Closed) (hi : i < g.size) {bound : Nat} :
    g.height i ≤ bound ↔ ∀ j ∈ g.bodiesBelow i, g.height j < bound := by
  have hexact : g.heightAfter (g.size + 1) i = g.height i :=
    heightAfter_succ hg i hi (length_bodiesBelow_le hg i)
  rw [← hexact, heightAfter_succ_le_iff]
  rfl

/-- A body has less height than one above it. -/
theorem height_lt_of_mem_bodiesBelow (hg : g.Closed) (hi : i < g.size)
    (hj : j ∈ g.bodiesBelow i) : g.height j < g.height i :=
  (height_le_iff hg hi).1 le_rfl j hj

/-- What a body reaches outside its component has less height. -/
theorem height_lt_of_reaches (hg : g.Closed) (hi : i < g.size) (hij : g.Reaches i j)
    (hji : ¬ g.Reaches j i) : g.height j < g.height i :=
  height_lt_of_mem_bodiesBelow hg hi ((mem_bodiesBelow_iff hg hi).2 ⟨hij, hji⟩)

/-- A call that leaves a component goes down. -/
theorem height_lt (hg : g.Closed) (h : j ∈ g.successors i) (hne : ¬ g.Mutual i j) :
    g.height j < g.height i :=
  height_lt_of_mem_bodiesBelow hg (lt_size_of_mem_successors h)
    (mem_bodiesBelow_of_call hg h hne)

/-- A body that is no body of the program reaches itself only. -/
theorem Reaches.eq_of_size_le (h : g.Reaches i j) (hi : g.size ≤ i) : i = j := by
  cases Relation.ReflTransGen.cases_head h with
  | inl heq => exact heq
  | inr hstep =>
    obtain ⟨k, edge, -⟩ := hstep
    exact absurd (lt_size_of_mem_successors edge) (Nat.not_lt.2 hi)

/-- The bodies of a component are at one height. -/
theorem height_eq_of_mutual (hg : g.Closed) (h : g.Mutual i j) : g.height i = g.height j := by
  by_cases hi : i < g.size
  · have hj : j < g.size := h.1.lt_size hg hi
    -- The same bodies are below both.
    have hbelow : ∀ k, k ∈ g.bodiesBelow i ↔ k ∈ g.bodiesBelow j := fun k => by
      rw [mem_bodiesBelow_iff hg hi, mem_bodiesBelow_iff hg hj]
      exact and_congr ⟨h.2.trans, h.1.trans⟩
        (not_congr ⟨fun hk => hk.trans h.1, fun hk => hk.trans h.2⟩)
    refine eq_of_forall_ge_iff fun bound => ?_
    rw [height_le_iff hg hi, height_le_iff hg hj]
    exact forall_congr' fun k => imp_congr_left (hbelow k)
  · rw [h.1.eq_of_size_le (Nat.le_of_not_lt hi)]

end CallGraph

/-! ## The call graph of a program -/

/-- A body calls another one, or itself. -/
def Program.Calls (p : Program) (i j : Nat) : Prop :=
  ∃ a b, p.implementations[i]? = some a ∧ p.implementations[j]? = some b ∧
    b.name ∈ a.blocks.flatMap fun b => Cmd.calleesAll b.cmds

/-- Two bodies call each other, directly or through others, or are one. -/
def Program.SameComponent (p : Program) (i j : Nat) : Prop :=
  Relation.ReflTransGen p.Calls i j ∧ Relation.ReflTransGen p.Calls j i

namespace CallGraph

variable {p : Program} {i j : Nat}

/-- The call graph of a program whose bodies have different names has an edge for each call. -/
theorem mem_successors_ofProgram_iff (hnodup : (p.implementations.map (·.name)).Nodup) :
    j ∈ (ofProgram p).successors i ↔ p.Calls i j := by
  constructor
  · intro h
    have hi : i < p.implementations.length := by
      simpa [size, ofProgram] using lt_size_of_mem_successors h
    have hsuccessors : (ofProgram p).successors i = p.implementations[i].calledBodies p := by
      simp [successors, ofProgram, hi]
    rw [hsuccessors, Implementation.calledBodies, List.mem_eraseDups] at h
    obtain ⟨n, hn, hindex⟩ := List.mem_filterMap.1 h
    obtain ⟨hj, hname, -⟩ := List.findIdx?_eq_some_iff_getElem.1 hindex
    exact ⟨_, _, List.getElem?_eq_getElem hi, List.getElem?_eq_getElem hj,
      of_decide_eq_true hname ▸ hn⟩
  · rintro ⟨a, b, ha, hb, hcall⟩
    exact mem_callers_iff.1 (mem_callers hnodup ha hb hcall)

theorem closed_ofProgram (hnodup : (p.implementations.map (·.name)).Nodup) :
    (ofProgram p).Closed := by
  intro i j h
  obtain ⟨-, b, -, hb, -⟩ := (mem_successors_ofProgram_iff hnodup).1 h
  simpa [size, ofProgram] using (List.getElem?_eq_some_iff.1 hb).1

/-- One reaches another in the call graph if calls lead from it to that one. -/
theorem reaches_ofProgram_iff (hnodup : (p.implementations.map (·.name)).Nodup) :
    (ofProgram p).Reaches i j ↔ Relation.ReflTransGen p.Calls i j := by
  have hedges : (fun a b => b ∈ (ofProgram p).successors a) = p.Calls :=
    funext₂ fun a b => propext (mem_successors_ofProgram_iff hnodup)
  rw [Reaches, hedges]

/-- The call graph depends on the bodies only. -/
theorem ofProgram_congr {q : Program} (h : q.implementations = p.implementations) :
    ofProgram q = ofProgram p := by
  unfold ofProgram Implementation.calledBodies
  rw [h]

end CallGraph

end Obligations
