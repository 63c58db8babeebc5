import Obligations.Implementation.Basic

/-!
# Programs

A program declares globals, uninterpreted functions and procedures, and gives implementations that
have to satisfy the contracts of their procedures. Where a name is declared twice, the first
declaration counts.
-/

namespace Obligations

/-- A program. -/
structure Program where
  /-- The variables shared by all procedures. -/
  globals : List Variable
  /-- The uninterpreted functions. -/
  functions : List Function
  /-- The procedures with their contracts. -/
  procedures : List Procedure
  /-- The bodies. -/
  implementations : List Implementation
deriving Repr

namespace Program

/-- The program that declares nothing. -/
def empty : Program := ⟨[], [], [], []⟩

instance : Inhabited Program := ⟨empty⟩

/-- The global of a name. -/
def global? (p : Program) (name : Name) : Option Variable := p.globals.find? (·.name = name)

/-- The function of a name. -/
def function? (p : Program) (name : Name) : Option Function := p.functions.find? (·.name = name)

/-- The procedure of a name. -/
def procedure? (p : Program) (name : Name) : Option Procedure :=
  p.procedures.find? (·.name = name)

/-- The body for the procedure of a name. -/
def implementation? (p : Program) (name : Name) : Option Implementation :=
  p.implementations.find? (·.name = name)

end Program

end Obligations
