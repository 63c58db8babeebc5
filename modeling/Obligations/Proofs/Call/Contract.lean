import Obligations.Proofs.Call.Expansion
import Obligations.Proofs.Cmd.Run

/-!
# What a contract says of a call

The contract alone says what a call may do: `CallSite.requiresReading` tells what the names of a
precondition denote where the procedure is called, and `CallSite.Ends` which states the call can end
in. `CallSite.IsRegular` collects what a call needs for its expansion to mean its contract: the locals
of the scope are new, and no postcondition reads a variable that gets a result.
-/

namespace Obligations

variable {I : Interpretation}

/-- The state after values are stored in variables, the last value for a variable standing. -/
def Interpretation.State.store (s : I.State) (xs : List Name) (as : List I.Carrier) : I.State :=
  fun x => ((NameMap.ofList (xs.zip as)).find? x).getD (s x)

namespace Interpretation.State

/-- Values stored in other variables leave a variable as it is. -/
theorem store_of_not_mem {s : I.State} {xs : List Name} {as : List I.Carrier} {x : Name}
    (h : x ∉ xs) : s.store xs as x = s x := by
  have hnone : (NameMap.ofList (xs.zip as)).find? x = none := by
    rw [NameMap.find?_ofList_eq_none]
    intro hmem
    obtain ⟨p, hp, rfl⟩ := List.mem_map.mp hmem
    exact h (List.of_mem_zip hp).1
  rw [store, hnone]
  rfl

/-- Values stored in distinct variables are there. -/
theorem map_store {s : I.State} {xs : List Name} {as : List I.Carrier} (hnodup : xs.Nodup)
    (hlength : as.length = xs.length) : xs.map (s.store xs as) = as := by
  refine List.ext_getElem (by rw [List.length_map, hlength]) fun i hi hi' => ?_
  have hi'' : i < xs.length := by rwa [List.length_map] at hi
  have hmem : (xs[i], as[i]) ∈ xs.zip as := by
    rw [List.mem_iff_getElem]
    exact ⟨i, by rw [List.length_zip]; omega, List.getElem_zip⟩
  have hkeys : ((xs.zip as).map (·.1)).Nodup := by
    rw [List.map_fst_zip (Nat.le_of_eq hlength.symm)]
    exact hnodup
  rw [List.getElem_map, store, NameMap.find?_ofList_of_mem hkeys hmem]
  rfl

/-- Storing the values of a state in variables gives these the values of that state. -/
theorem store_map_of_mem {s t : I.State} {xs : List Name} {x : Name} (h : x ∈ xs) :
    s.store xs (xs.map t) x = t x := by
  have hzip : xs.zip (xs.map t) = xs.map fun x => (x, t x) := by
    rw [List.zip_map_right, List.zip_eq_zipWith, List.zipWith_self, List.map_map]
    rfl
  rw [store, hzip, NameMap.find?_ofList_map_self, if_pos h]
  rfl

end Interpretation.State

namespace CallSite

/-- What the names of a precondition denote where the procedure is called: an input denotes the
argument for it, any other name what it denotes in the caller. -/
def requiresReading (s : CallSite) (c : Context I) (σ : I.State) : I.Reading := fun t n =>
  match s.arguments.find? n with
  | some a => I.valueAt (c.reading σ) t a
  | none => c.reading σ t n

/-- What a name denotes in a postcondition outside of any `old`: an input denotes the argument in
the state of the call, an output the value returned, and any other name its value in the state in
which the procedure ends. -/
def resultReading (s : CallSite) (c : Context I) (σ γ : I.State) (as : List I.Carrier) (n : Name) :
    Option I.Carrier :=
  match s.arguments.find? n with
  | some a => c.value σ a
  | none =>
    let returned : NameMap I.Carrier :=
      .ofList (s.callee.outputs.zipWith (fun x a => (x.name, a)) as)
    some ((returned.find? n).getD (γ n))

/-- What the names of a postcondition denote. Under `old`, a global that the procedure may change
denotes its value in the state of the call. -/
def ensuresReading (s : CallSite) (c : Context I) (σ γ : I.State) (as : List I.Carrier) : I.Reading
  | .current, n => s.resultReading c σ γ as n
  | .entry, n => if n ∈ s.callee.modifies then some (σ n) else s.resultReading c σ γ as n

/-- What the contract says of the states in which a call can end. All arguments have values; the
procedure ends in a state that differs from that of the call in the globals that it may change only,
and returns values; all postconditions are true; the values returned are stored; and the conditions
on the variables that changed are true. -/
def Ends (s : CallSite) (c : Context I) (σ τ : I.State) : Prop :=
  (∀ a ∈ s.args, ∃ x, c.value σ a = some x) ∧
    ∃ (γ : I.State) (as : List I.Carrier), as.length = s.outputs.length ∧
      (∀ x, x ∉ s.callee.modifies → γ x = σ x) ∧
      (∀ r ∈ s.callee.ensures, I.Holds (s.ensuresReading c σ γ as) r.condition.body) ∧
      τ = γ.store s.outputs as ∧
      ∀ x, x ∈ s.outputs ∨ x ∈ s.callee.modifies →
        ∀ w, c.whereClause? x = some w → c.Holds τ w

/-- The parameters of the procedure. -/
def formals (s : CallSite) : List Name :=
  s.callee.inputs.map (·.name) ++ s.callee.outputs.map (·.name)

/-- The locals of the scope are new: what the call reads and changes are other variables. -/
structure IsFresh (s : CallSite) (d : Declarations) : Prop where
  /-- Arguments do not read them. -/
  args : ∀ a ∈ s.args, ∀ n ∈ a.names, n ∉ s.temporaries
  /-- Preconditions do not. -/
  requires : ∀ r ∈ s.callee.requires, ∀ n ∈ r.condition.body.names,
    n ∉ s.callee.inputs.map (·.name) → n ∉ s.temporaries
  /-- Postconditions do not. -/
  ensures : ∀ r ∈ s.callee.ensures, ∀ n ∈ r.condition.body.names, n ∉ s.formals →
    n ∉ s.temporaries
  /-- None of them is among the variables that change. -/
  changed : ∀ x ∈ s.changed, x ∉ s.temporaries
  /-- The conditions on these variables do not read them. -/
  whereClauses : ∀ x ∈ s.changed, ∀ w, (d.find? x).bind (·.whereClause) = some w →
    ∀ n ∈ w.names, n ∉ s.temporaries

/-- No postcondition reads a variable that gets a result, except as a parameter or, if the procedure
may change it, under `old`. -/
def ResultsUnread (s : CallSite) : Prop :=
  ∀ r ∈ s.callee.ensures, ∀ t n, (t, n) ∈ r.condition.body.readsAt .current → n ∉ s.formals →
    n ∈ s.outputs → t = .entry ∧ n ∈ s.callee.modifies

/-- What a call needs for its scope to mean its contract. -/
structure IsRegular (s : CallSite) (d : Declarations) : Prop where
  /-- There is an argument for every input. -/
  args : s.args.length = s.callee.inputs.length
  /-- There is a variable for every output. -/
  outputs : s.outputs.length = s.callee.outputs.length
  /-- No variable gets two results. -/
  nodup : s.outputs.Nodup
  /-- The locals of the scope are new. -/
  fresh : s.IsFresh d
  /-- Postconditions do not read the variables that get results. -/
  unread : s.ResultsUnread

end CallSite

end Obligations
