import Obligations.Summary.Domain

/-!
# Summaries by observed values

The summary records, for each integer variable that a procedure can change, which values it can have
at the end. A variable with too many values is no longer constrained.
-/

namespace Obligations.Summary

/-- What is known of a variable. -/
inductive Observed where
  /-- No end state has been met. -/
  | unobserved
  /-- The values met, in ascending order. -/
  | values (vs : List Int)
  /-- Any value is possible. -/
  | unconstrained
deriving DecidableEq, Repr

/-- A summary: what is known of each variable. -/
abbrev ConstantSummary := List (Name × Observed)

/-- Adds a number to an ascending list, unless it is there. -/
def insertValue (v : Int) : List Int → List Int
  | [] => [v]
  | w :: ws => if v < w then v :: w :: ws else if v = w then w :: ws else w :: insertValue v ws

/-- What is known of a variable after a further value, if at most `bound` values are kept. The first
value is always kept. -/
def Observed.observe (bound : Nat) (v : Int) : Observed → Observed
  | unobserved => values [v]
  | values vs =>
    let ws := insertValue v vs
    if bound < ws.length then unconstrained else values ws
  | unconstrained => unconstrained

/-- How often what is known of a variable can still change. -/
def Observed.rank (bound : Nat) : Observed → Nat
  | unobserved => max bound 1 + 1
  | values vs => max bound 1 - vs.length + 1
  | unconstrained => 0

theorem insertValue_eq_or_length (v : Int) (vs : List Int) :
    insertValue v vs = vs ∨ (insertValue v vs).length = vs.length + 1 := by
  induction vs with
  | nil => exact .inr rfl
  | cons w ws ih =>
    unfold insertValue
    split
    · exact .inr rfl
    · split
      · exact .inl rfl
      · simpa using ih

/-- A further value leaves what is known as it is or lowers its rank. -/
theorem Observed.observe_eq_or_rank_lt (bound : Nat) (v : Int) (o : Observed) :
    o.observe bound v = o ∨ (o.observe bound v).rank bound < o.rank bound := by
  cases o with
  | unobserved =>
    right
    simp only [observe, rank, List.length_cons, List.length_nil]
    omega
  | unconstrained => exact .inl rfl
  | values vs =>
    simp only [observe]
    split
    · right; simp [rank]
    · obtain h | h := insertValue_eq_or_length v vs
      · exact .inl (by rw [h])
      · right; simp only [rank]; omega

/-- How often a summary can still change. -/
def constantRank (bound : Nat) (s : ConstantSummary) : Nat :=
  sumOf (fun p => p.2.rank bound) s

/-- The integer that a variable has in an end state. -/
def endInteger (t : EndState) (x : Name) : Except InferenceError Int :=
  match t.current? x with
  | none => .error (.fault (.noStateValue x))
  | some (.int i) => .ok i
  | some (.bool b) => .error (.fault (.nonInteger x (.bool b)))

/-- The summary after a further end state. -/
def joinConstants (bound : Nat) (t : EndState) :
    ConstantSummary → Except InferenceError ConstantSummary
  | [] => .ok []
  | (x, o) :: rest => do
    let v ← endInteger t x
    let rest ← joinConstants bound t rest
    return (x, o.observe bound v) :: rest

theorem joinConstants_eq_or_rank_lt {bound : Nat} {t : EndState} {s s' : ConstantSummary}
    (h : joinConstants bound t s = .ok s') :
    s' = s ∨ constantRank bound s' < constantRank bound s := by
  induction s generalizing s' with
  | nil =>
    cases h
    exact .inl rfl
  | cons p rest ih =>
    obtain ⟨x, o⟩ := p
    unfold joinConstants at h
    cases hv : endInteger t x with
    | error e => rw [hv] at h; cases h
    | ok v =>
      cases hr : joinConstants bound t rest with
      | error e => rw [hv, hr] at h; cases h
      | ok rest' =>
        rw [hv, hr] at h
        cases h
        have h1 := ih hr
        have h2 := o.observe_eq_or_rank_lt bound v
        unfold constantRank at h1 ⊢
        simp only [sumOf]
        obtain rfl | h1 := h1 <;> obtain h2 | h2 := h2
        · exact .inl (by rw [h2])
        · exact .inr (by omega)
        · exact .inr (by rw [h2]; omega)
        · exact .inr (by omega)

namespace ConstantSummary

/-- Whether no end state has been met although there are variables. -/
def isBottom (s : ConstantSummary) : Bool := s.any fun p => p.2 = .unobserved

/-- What is known of the variable of a name. -/
def observed? (s : ConstantSummary) (x : Name) : Option Observed := s.lookup x

/-- The text of a summary. -/
def text (s : ConstantSummary) : String :=
  if isBottom s then "false"
  else
    let parts := s.filterMap fun (x, o) =>
      match o with
      | .values vs =>
        some ("(" ++ " || ".intercalate (vs.map fun v => x.text ++ " == " ++ toString v) ++ ")")
      | _ => none
    if parts.isEmpty then "true" else " && ".intercalate parts

end ConstantSummary

/-- The integer variables that a body can change: globals that its procedure may change, then
outputs, each name once. -/
def monitored (p : Program) (q : Procedure) (i : Implementation) : List Name :=
  let isInteger (v : Variable) : Bool := match v.ty with
    | .int => true
    | _ => false
  (((q.modifies.filterMap p.global? ++ i.outputs).filter isInteger).map (·.name)).eraseDups

/-- The formula of a summary over terms: what is known of the variables one by one. -/
def renderConstants (c : RenderContext) : ConstantSummary → Except InferenceError (List Expr)
  | [] => .ok []
  | (x, .values vs) :: rest =>
    match c.current? x with
    | none => .error (.fault (.unmapped x))
    | some e => do
      let es ← renderConstants c rest
      return .disjAny (vs.map fun v => .binary .eq e (.int v)) :: es
  | _ :: rest => renderConstants c rest

/-- The domain of summaries by observed values, at most `bound` for each variable. -/
def constants (bound : Nat) : SummaryDomain ConstantSummary where
  bottom p i :=
    match p.procedure? i.name with
    | none => .error (.fault (.noProcedure i.name))
    | some q => .ok ((monitored p q i).map fun x => (x, .unobserved))
  join s t := joinConstants bound t s
  render s c :=
    if ConstantSummary.isBottom s then .ok (.bool false)
    else (renderConstants c s).map .conjAll
  rank := constantRank bound
  rank_join h hne := (joinConstants_eq_or_rank_lt h).resolve_left hne

end Obligations.Summary
