import Obligations.Oracle.Basic

/-!
# Exhaustive search among small values

This oracle tries all assignments of small values to the unknowns of a condition: the symbols, and
one unknown for each distinct application in the formula. Applications of one function whose
arguments have equal values share the value of the first, so that what is tried is always a
function.

The unknowns are numbered, symbols first, and assignment number `k` is read off the digits of `k` in
the mixed radix of the numbers of their values, the first unknown having the lowest place; so the
first unknown changes fastest. The oracle claims validity only if every assignment made the formula
true; where some assignment leaves it undefined, or there are none or too many to try, it does not
decide.
-/

namespace Obligations

/-- The bounds of the search. -/
structure BoundedOptions where
  /-- The least integer to try. -/
  minInt : Int := -4
  /-- The greatest integer to try. -/
  maxInt : Int := 4
  /-- The greatest number of assignments to try. -/
  maxAssignments : Nat := 1000000
deriving Repr

namespace Bounded

/-- The values to try for one unknown. -/
inductive Choices where
  /-- Both truth values. -/
  | bools
  /-- So many integers, from a least one on. -/
  | ints (least : Int) (count : Nat)
deriving Repr

/-- The number of values to try. -/
def Choices.size : Choices → Nat
  | bools => 2
  | ints _ count => count

/-- The value of a number below the size. -/
def Choices.value : Choices → Nat → Value
  | bools, k => .bool (k = 1)
  | ints least _, k => .int (least + k)

/-- The values to try for an unknown of a type, if the search has any. -/
def choices? (o : BoundedOptions) : Ty → Option Choices
  | .bool => some .bools
  | .int => some (.ints o.minInt (o.maxInt - o.minInt + 1).toNat)
  | _ => none

/-- The digits of a number in a mixed radix, the lowest place first. -/
def digits : List Nat → Nat → List Nat
  | [], _ => []
  | r :: rs, k => k % r :: digits rs (k / r)

/-- A function applied to arguments. -/
structure Application where
  /-- The function. -/
  function : Name
  /-- The arguments. -/
  args : List Expr
deriving DecidableEq

/-- The application at the root of an expression. -/
def application? : Expr → Option Application
  | .apply f args => some ⟨f, args⟩
  | _ => none

/-- The applications in a formula, each once, in order of first occurrence. -/
def applications (e : Expr) : List Application := (e.subexprs.filterMap application?).eraseDups

/-- Whether an argument of the application contains an application. -/
def Application.isNested (a : Application) : Bool := a.args.any fun e => !e.functions.isEmpty

/-- The unknowns of a condition with the values to try for each. -/
structure Space where
  /-- The symbols. -/
  symbols : List (Name × Choices)
  /-- The applications. -/
  applications : List (Application × Choices)

/-- The unknowns of a condition; or why they cannot be enumerated. -/
def space (o : BoundedOptions) (query : String) (vc : VerificationCondition) :
    Except Unsupported Space := do
  let symbols ← vc.symbols.mapM fun (n, ty) =>
    match choices? o ty with
    | some c => .ok (n, c)
    | none => .error (.symbolType n ty)
  let apps := applications vc.formula
  if apps.any (·.isNested) then
    .error (.nestedApplication query)
  else
    let apps ← apps.mapM fun a =>
      match vc.functions.find? (·.name = a.function) with
      | none => .error (.undeclaredFunction a.function)
      | some f =>
        match choices? o f.result with
        | some c => .ok (a, c)
        | none => .error (.functionType a.function f.result)
    return ⟨symbols, apps⟩

namespace Space

/-- The number of values of each unknown. -/
def radices (s : Space) : List Nat :=
  s.symbols.map (·.2.size) ++ s.applications.map (·.2.size)

/-- The number of assignments, counted no further than 64 bits reach. -/
def total (s : Space) : Nat := min (s.radices.foldl (· * ·) 1) 0xffffffffffffffff

/-- The values of the symbols under the digits of an assignment; of several symbols of one name the
last counts. -/
def model (s : Space) (ds : List Nat) : Model :=
  .ofList (List.zipWith (fun (n, c) d => (n, c.value d)) s.symbols ds)

end Space

/-- An entry of a table of a function: the function, the values of the arguments, the result. -/
abbrev TableEntry := Name × List Value × Value

/-- The result of a function on arguments. -/
def tableLookup (table : List TableEntry) (f : Name) (xs : List Value) : Option Value :=
  table.findSome? fun (g, ys, r) => if g = f ∧ ys = xs then some r else none

/-- Reads the tables of the functions off the applications and their digits. The first application
with given arguments decides; one whose arguments divide by zero decides nothing. -/
def tables (v : Valuation) :
    List (Application × Choices) → List Nat → List TableEntry → Except EvalError (List TableEntry)
  | (a, c) :: as, d :: ds, table =>
    match Expr.evalAllAt v .current a.args with
    | .ok xs =>
      tables v as ds <|
        if (tableLookup table a.function xs).isSome then table
        else table ++ [(a.function, xs, c.value d)]
    | .error .divisionByZero => tables v as ds table
    | .error e => .error e
  | _, _, table => .ok table

/-- What one assignment shows. -/
inductive Trial where
  /-- The formula is true. -/
  | holds
  /-- The formula is false, with these values of the symbols. -/
  | fails (m : Model)
  /-- The formula divides by zero. -/
  | undefined

/-- Tries the assignment of a number. -/
def tryAssignment (s : Space) (query : String) (formula : Expr) (k : Nat) :
    Except Unsupported Trial :=
  -- The digits of the symbols come first, then those of the applications.
  let ds := digits s.radices k
  let m := s.model ds
  match tables m.valuation s.applications (ds.drop s.symbols.length) [] with
  | .error e => .error (.evaluation e)
  | .ok table =>
    match formula.eval { m.valuation with application := tableLookup table } with
    | .ok (.bool true) => .ok .holds
    | .ok (.bool false) => .ok (.fails m)
    | .ok (.int _) => .error (.notFormula query)
    | .error .divisionByZero => .ok .undefined
    | .error e => .error (.evaluation e)

/-- Tries `count` assignments from number `k` on; `undecided` tells whether an earlier one left the
formula undefined. -/
def search (s : Space) (query : String) (vc : VerificationCondition) :
    (count k : Nat) → (undecided : Bool) → Answer
  | 0, _, undecided => .outcome (if undecided then .inconclusive else .correct)
  | count + 1, k, undecided =>
    match tryAssignment s query vc.formula k with
    | .error e => .failure (.unsupported e)
    | .ok .holds => search s query vc count (k + 1) undecided
    | .ok .undefined => search s query vc count (k + 1) true
    | .ok (.fails m) => .refutation vc m

/-- Decides a condition within the bounds. -/
def check (o : BoundedOptions) (query : String) (vc : VerificationCondition) : Answer :=
  match space o query vc with
  | .error e => .failure (.unsupported e)
  | .ok s =>
    if s.total = 0 ∨ o.maxAssignments < s.total then .outcome .inconclusive
    else search s query vc s.total 0 false

end Bounded

end Obligations
