import Mathlib
import Obligations.Proofs.NameMap
import Obligations.Proofs.Solver.Writing
import Obligations.Solver.Response

/-!
# Models in responses

A value is read back from what it is written as (`value?_valueExpr`), and a list of pairs of names
and values is read as entries of a model. All lists of a response are searched for entries, not only
the one that answers the question for values: the model in a response is the one in that list exactly
if no list after it has another entry (`interpret_layout_iff`).
-/

namespace Obligations.Solver

/-! ## Values -/

theorem value?_toString_nat (n : Nat) : value? (.atom (toString n)) = some (.int n) := by
  have hread := readInt?_toString n
  unfold value?
  split
  · next heq =>
    rw [SExpr.atom.inj heq] at hread
    cases hread
  · next heq =>
    rw [SExpr.atom.inj heq] at hread
    cases hread
  · next heq =>
    rw [← SExpr.atom.inj heq, hread]
    rfl
  · next heq => cases heq
  · next hatom _ => exact absurd rfl (hatom _)

/-- A value is read back from what it is written as. -/
theorem value?_valueExpr (v : Value) : value? (valueExpr v) = some v := by
  cases v with
  | bool b => cases b <;> rfl
  | int i =>
    rw [valueExpr]
    split_ifs with hi
    · have habs : -(i.natAbs : Int) = i := by omega
      rw [value?, value?_toString_nat]
      simp only [habs]
    · have habs : (i.natAbs : Int) = i := by omega
      rw [value?_toString_nat, habs]

/-! ## Entries -/

section

variable {vc : VerificationCondition} {value : Name → Value} {names : List Name} {n : Name}
  {rest : List SExpr} {text : String}

/-- What is assigned to a name: the value of a symbol, and nothing else. -/
def assigned (vc : VerificationCondition) (value : Name → Value) (n : Name) : Option Value :=
  if n ∈ vc.symbols.map (·.1) then some (value n) else none

/-- A symbol with its value. -/
def entryExpr (value : Name → Value) (n : Name) : SExpr := .list [.atom n.text, valueExpr (value n)]

/-- The entries in the lists of a response. -/
def entriesIn (vc : VerificationCondition) (response : List SExpr) : List (Name × Value) :=
  (response.filterMap (·.asList?)).flatten.filterMap (pairIn? vc)

theorem pairIn?_entryExpr (hn : n ∈ vc.symbols.map (·.1)) :
    pairIn? vc (entryExpr value n) = some (n, value n) := by
  have hfound : (vc.symbols.find? (·.1.text = n.text)).isSome := by
    obtain ⟨s, hs, rfl⟩ := List.mem_map.1 hn
    exact List.find?_isSome.2 ⟨s, hs, by simp⟩
  obtain ⟨⟨k, ty⟩, hfind⟩ := Option.isSome_iff_exists.1 hfound
  have htext : k.text = n.text := by simpa using List.find?_some hfind
  have hk : k = n := by
    cases k
    exact congrArg Name.mk htext
  rw [entryExpr, pairIn?, hfind, value?_valueExpr, hk]
  rfl

/-- Entries are for symbols of the condition. -/
theorem mem_symbols_of_pairIn? {e : SExpr} {v : Value} (h : pairIn? vc e = some (n, v)) :
    n ∈ vc.symbols.map (·.1) := by
  unfold pairIn? at h
  split at h
  · simp only [Option.bind_eq_bind, Option.bind_eq_some_iff, Option.pure_def, Option.some.injEq,
      Prod.mk.injEq] at h
    obtain ⟨⟨k, ty⟩, hfind, x, -, rfl, -⟩ := h
    exact List.mem_map_of_mem (List.mem_of_find?_eq_some hfind)
  · cases h

theorem mem_symbols_of_mem_entriesIn {v : Value} (h : (n, v) ∈ entriesIn vc rest) :
    n ∈ vc.symbols.map (·.1) := by
  obtain ⟨e, -, he⟩ := List.mem_filterMap.1 h
  exact mem_symbols_of_pairIn? he

/-- The entries of a response that begins with the values of all symbols. -/
theorem entriesIn_response (hnames : names.Perm (vc.symbols.map (·.1))) :
    entriesIn vc (.atom "sat" :: .list (names.map (entryExpr value)) :: rest) =
      names.map (fun n => (n, value n)) ++ entriesIn vc rest := by
  have hentries : (names.map (entryExpr value)).filterMap (pairIn? vc) =
      names.map fun n => (n, value n) := by
    rw [List.filterMap_map, ← List.filterMap_eq_map]
    refine List.filterMap_congr fun n hn => ?_
    exact pairIn?_entryExpr (hnames.mem_iff.1 hn)
  have hlists : ((SExpr.atom "sat" :: .list (names.map (entryExpr value)) :: rest).filterMap
      (·.asList?)) = names.map (entryExpr value) :: rest.filterMap (·.asList?) := rfl
  rw [entriesIn, hlists, List.flatten_cons, List.filterMap_append, hentries, entriesIn]

/-- The model in such a response: the entries after the values of the symbols replace them. -/
theorem find?_modelOf (hnames : names.Perm (vc.symbols.map (·.1))) (x : Name) :
    (modelOf vc (.atom "sat" :: .list (names.map (entryExpr value)) :: rest)).find? x =
      ((NameMap.ofList (entriesIn vc rest)).find? x).or (assigned vc value x) := by
  have hvalues : (NameMap.ofList (names.map fun n => (n, value n))).find? x =
      assigned vc value x := by
    rw [NameMap.find?_ofList_map_self, assigned]
    simp only [hnames.mem_iff]
  rw [modelOf, ← entriesIn, entriesIn_response hnames, NameMap.find?_ofList_append, hvalues]

/-- What comes after the values of the symbols has no other values for them. -/
def Agrees (vc : VerificationCondition) (value : Name → Value) (rest : List SExpr) : Prop :=
  ∀ n v, (NameMap.ofList (entriesIn vc rest)).find? n = some v → v = value n

theorem find?_modelOf_iff (hnames : names.Perm (vc.symbols.map (·.1))) :
    (∀ x, (modelOf vc (.atom "sat" :: .list (names.map (entryExpr value)) :: rest)).find? x =
      assigned vc value x) ↔ Agrees vc value rest := by
  constructor
  · intro h x v hv
    have hx := h x
    have hmem := mem_symbols_of_mem_entriesIn (NameMap.mem_of_find?_ofList hv)
    rw [find?_modelOf hnames, hv, assigned, if_pos hmem] at hx
    exact Option.some.inj hx
  · intro h x
    rw [find?_modelOf hnames]
    cases hv : (NameMap.ofList (entriesIn vc rest)).find? x with
    | none => rfl
    | some v =>
      have hmem := mem_symbols_of_mem_entriesIn (NameMap.mem_of_find?_ofList hv)
      rw [h x v hv, assigned, if_pos hmem]
      rfl

/-- A response of the word `sat`, the values of all symbols in any order and anything else is one
refutation. Its model is the assignment that the values make, and its labels are the block variables
that this makes false, exactly if no entry in the lists after the values replaces one of them. -/
theorem interpret_layout_iff (hnames : names.Perm (vc.symbols.map (·.1)))
    (h : Layout (SExpr.tokensAll (.atom "sat" :: .list (names.map (entryExpr value)) :: rest))
      text.toList) :
    ∃ labels m, interpret vc text = ⟨[(labels, m)], .ok .errors⟩ ∧
      ((labels = vc.blockVariables.filter (fun n => assigned vc value n = some (.bool false)) ∧
        ∀ n, m.find? n = assigned vc value n) ↔ Agrees vc value rest) := by
  set response := SExpr.atom "sat" :: .list (names.map (entryExpr value)) :: rest
  have hinterpret : interpret vc text = .refutation vc (modelOf vc response) := by
    rw [interpret, readAll_eq_ok_iff.2 h]
    rfl
  refine ⟨_, _, hinterpret, ?_⟩
  rw [← find?_modelOf_iff hnames]
  refine and_iff_right_of_imp fun hmodel => ?_
  simp only [Model.failingBlocks, response, hmodel]

/-- Lists without lists in them, such as a reason that is one word or a message, have no entries. -/
theorem agrees_of_flat (h : ∀ e ∈ (rest.filterMap (·.asList?)).flatten, e.asList? = none) :
    Agrees vc value rest := by
  have hentries : entriesIn vc rest = [] := by
    refine List.filterMap_eq_nil_iff.2 fun e he => ?_
    have hlist := h e he
    cases e with
    | list => cases hlist
    | atom | string => rfl
  intro n v hv
  rw [hentries] at hv
  cases hv

end

/-- A condition on a number and the truth of a block, to read responses to. -/
def limitCondition : VerificationCondition where
  name := ⟨"P"⟩
  formula := .symbol ⟨"entry ok"⟩
  symbols := [(⟨"limit"⟩, .int), (⟨"entry ok"⟩, .bool)]
  functions := []
  blockVariables := [⟨"entry ok"⟩]

/-- Values of its symbols. -/
def limitValue (n : Name) : Value := if n = ⟨"limit"⟩ then .int (-1) else .bool false

theorem interpret_layout_iff_limit :
    [⟨"entry ok"⟩, ⟨"limit"⟩].Perm (limitCondition.symbols.map (·.1)) ∧
      ∃ labels m, interpret limitCondition
          "sat ; false\n((|entry ok| false)\t(limit (- 1)))\n(:reason-unknown \"\")" =
        ⟨[(labels, m)], .ok .errors⟩ ∧
      ((labels = limitCondition.blockVariables.filter
          (fun n => assigned limitCondition limitValue n = some (.bool false)) ∧
        ∀ n, m.find? n = assigned limitCondition limitValue n) ↔
        Agrees limitCondition limitValue [.list [.atom ":reason-unknown", .string ""]]) := by
  have hnames : [⟨"entry ok"⟩, ⟨"limit"⟩].Perm (limitCondition.symbols.map (·.1)) := .swap ..
  refine ⟨hnames, interpret_layout_iff hnames (readAll_eq_ok_iff.1 ?_)⟩
  cbv

/-- Values of its symbols, and a reason that is a pair of a symbol and a number. -/
def limitResponse : String :=
  "sat\n((limit (- 1)) (|entry ok| false))\n(:reason-unknown (limit 500))\n"

/-- The number in the reason replaces the value of the symbol. -/
theorem interpret_not_assigned_limit :
    Layout (SExpr.tokensAll [.atom "sat",
        .list ([⟨"limit"⟩, ⟨"entry ok"⟩].map (entryExpr limitValue)),
        .list [.atom ":reason-unknown", .list [.atom "limit", .atom "500"]]])
        limitResponse.toList ∧
      ¬ ∃ labels m, interpret limitCondition limitResponse = ⟨[(labels, m)], .ok .errors⟩ ∧
        ∀ n, m.find? n = assigned limitCondition limitValue n := by
  have hread : (interpret limitCondition limitResponse).models.map (fun r => r.2.find? ⟨"limit"⟩) =
      [some (.int 500)] := by
    cbv
  have hvalue : assigned limitCondition limitValue ⟨"limit"⟩ = some (.int (-1)) := by decide
  refine ⟨readAll_eq_ok_iff.1 (by cbv), ?_⟩
  rintro ⟨labels, m, hinterpret, hm⟩
  rw [hinterpret, List.map_singleton, hm, hvalue] at hread
  cases hread

end Obligations.Solver
