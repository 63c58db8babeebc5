import Obligations.Minting
import Obligations.Inference.Error

/-!
# Placeholders for summaries

For every body an uninterpreted predicate stands for the summary that is to be inferred. It is added
to the postconditions of the body's procedure, so that a body asserts its own summary at its exit
and assumes the summaries of the procedures that it calls. Its arguments are the values of all
globals on entry, the parameters, and the globals that the procedure may change.
-/

namespace Obligations

/-- The name of the predicate that stands for the summary of a body. -/
def summaryPredicate (body : Name) : Name := ⟨body.text ++ "SummaryPred"⟩

/-- The predicate that stands for the summary of a body. -/
structure Placeholder where
  /-- The body. -/
  body : Name
  /-- The declaration of the predicate. -/
  function : Function
  /-- Its arguments in the postcondition of the procedure. -/
  args : List Expr
  /-- The names that its arguments have in an end state. -/
  keys : List Name
  /-- What these names denote in the body. -/
  ownTerms : List Expr

/-- One argument of a placeholder. -/
structure PlaceholderArg where
  /-- Its name in an end state. -/
  key : Name
  /-- Its type. -/
  ty : Ty
  /-- The argument in the postcondition of the procedure. -/
  arg : Expr
  /-- What it denotes in the body. -/
  ownTerm : Expr

/-- The arguments of a placeholder. -/
def placeholderArgs (p : Program) (q : Procedure) (i : Implementation) :
    Except InferenceError (List PlaceholderArg) := do
  let globals := p.globals.map fun g =>
    ⟨g.name.onEntry, g.ty, .old (.symbol g.name), .old (.symbol g.name)⟩
  let formals := (q.inputs ++ q.outputs).zipWith
    (fun d v => ⟨v.name, d.ty, .symbol d.name, .symbol v.name⟩) (i.inputs ++ i.outputs)
  let changed ← q.modifies.mapM fun g =>
    match p.global? g with
    | none => .error (.fault (.undeclaredModified i.name g))
    | some d => .ok ⟨g, d.ty, .symbol g, .symbol g⟩
  return globals ++ formals ++ changed

/-- The placeholder for a body. -/
def placeholder (p : Program) (i : Implementation) : Minting InferenceError Placeholder :=
  match p.procedure? i.name with
  | none => .fail (.fault (.noProcedure i.name))
  | some q =>
    if q.inputs.length ≠ i.inputs.length ∨ q.outputs.length ≠ i.outputs.length then
      .fail (.fault (.wrongSignature i.name))
    else do
      .mintAll (p.globals.map (·.name.onEntry))
      let args ← placeholderArgs p q i
      let name ← .mint (summaryPredicate i.name)
      return ⟨i.name, ⟨name, args.map fun a => ⟨a.key, a.ty⟩, .bool⟩, args.map (·.arg),
        args.map (·.key), args.map (·.ownTerm)⟩

/-- The placeholders for several bodies; `seen` are the names of the bodies before. -/
def placeholders (p : Program) (seen : List Name) :
    List Implementation → Minting InferenceError (List Placeholder)
  | [] => return []
  | i :: is =>
    if i.name ∈ seen then .fail (.fault (.severalBodies i.name))
    else do
      let h ← placeholder p i
      let hs ← placeholders p (i.name :: seen) is
      return h :: hs

/-- A list with its first element of a kind changed. -/
def modifyFirst {α : Type} (is : α → Bool) (f : α → α) : List α → List α
  | [] => []
  | a :: as => if is a then f a :: as else a :: modifyFirst is f as

/-- Declares a placeholder and adds it to the postconditions of its procedure. -/
def Program.attach (p : Program) (h : Placeholder) : Program :=
  let clause : Ensures := ⟨.formula (.apply h.function.name h.args), false, [], none⟩
  { p with
    functions := p.functions ++ [h.function]
    procedures := modifyFirst (·.name = h.body)
      (fun q => { q with ensures := q.ensures ++ [clause] }) p.procedures }

end Obligations
