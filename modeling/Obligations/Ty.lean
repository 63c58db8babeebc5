import Obligations.Name

/-!
# Types

The types of variables and functions, and how a type is written.
-/

namespace Obligations

/-- The type of a variable, of a parameter or of a function's result. -/
inductive Ty where
  /-- Truth values. -/
  | bool
  /-- Bit vectors of the given width. -/
  | bv (width : Nat)
  /-- Unbounded integers. -/
  | int
  /-- Maps from keys to values. -/
  | map (key value : Ty)
  /-- A declared type, applied to the arguments for its parameters. -/
  | user (name : Name) (args : List Ty)
deriving Repr, Inhabited

/- How types are written: a map type shows its key in square brackets, and the arguments of a
declared type follow its name, each after a space. -/
mutual

/-- The text of a type. -/
def Ty.text : Ty → String
  | .bool => "bool"
  | .bv width => "bv" ++ toString width
  | .int => "int"
  | .map key value => "[" ++ key.text ++ "]" ++ value.text
  | .user name args => name.text ++ Ty.argsText args

/-- The text of the arguments of a declared type. -/
def Ty.argsText : List Ty → String
  | [] => ""
  | t :: ts => " " ++ t.text ++ Ty.argsText ts

end

end Obligations
