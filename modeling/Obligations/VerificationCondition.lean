import Obligations.Variable

/-!
# Verification conditions

A verification condition is a formula with the declarations that an oracle needs to read it. The
claim it makes is that the formula holds for all values of its symbols and functions.
-/

namespace Obligations

/-- A formula to be shown valid, with its declarations. -/
structure VerificationCondition where
  /-- The name of the body that the condition is about. -/
  name : Name
  /-- The formula. -/
  formula : Expr
  /-- The symbols of the formula with their types. -/
  symbols : List (Name × Ty)
  /-- The functions applied in the formula. -/
  functions : List Function
  /-- The symbols that say of a block that no assertion fails from there on. -/
  blockVariables : List Name
deriving Repr

end Obligations
