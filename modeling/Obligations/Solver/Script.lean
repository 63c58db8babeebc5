import Obligations.Oracle.Basic

/-!
# Scripts for a solver

A condition is written as a script in the language of SMT-LIB 2 that asks for a model of the
negated formula. Names that are no simple symbols of that language stand between bars.
-/

namespace Obligations.Solver

/-- How a solver is run. -/
structure SolverOptions where
  /-- The program, by name or path. -/
  program : String := "z3"
  /-- Its arguments. -/
  arguments : List String := ["-smt2", "-in"]
  /-- The time allowed for a query, in milliseconds. -/
  timeout : Option Nat := some 10000
deriving Repr

/-- The words that the language keeps for itself. -/
def reservedWords : List String :=
  ["!", "_", "as", "assert", "BINARY", "DECIMAL", "exists", "forall", "HEXADECIMAL", "let",
    "match", "NUMERAL", "par", "STRING", "true", "false", "not", "and", "or", "ite", "distinct"]

/-- Whether a character can begin a simple symbol. -/
def isSymbolStart (c : Char) : Bool := c.isAlpha || "~!@$%^&*_+=<>.?/-".toList.contains c

/-- Whether a character can stand in a simple symbol. -/
def isSymbolChar (c : Char) : Bool := isSymbolStart c || c.isDigit

/-- Whether a text is a simple symbol and no reserved word. -/
def isSimpleSymbol (s : String) : Bool :=
  (match s.toList with
    | [] => false
    | c :: cs => isSymbolStart c && cs.all isSymbolChar) &&
  !reservedWords.contains s

/-- A name as a symbol. -/
def symbolText (n : Name) : String := if isSimpleSymbol n.text then n.text else "|" ++ n.text ++ "|"

/-- A list: an opening parenthesis, the items separated by spaces, a closing parenthesis. -/
def listText (items : List String) : String := "(" ++ " ".intercalate items ++ ")"

/-- A type as a sort. Declared types have no arguments there. -/
def sortText : Ty → Except Unsupported String
  | .bool => .ok "Bool"
  | .int => .ok "Int"
  | .bv width => .ok ("(_ BitVec " ++ toString width ++ ")")
  | .map key value => do
    let k ← sortText key
    let v ← sortText value
    return listText ["Array", k, v]
  | .user name [] => .ok (symbolText name)
  | .user name (t :: ts) => .error (.genericType (.user name (t :: ts)))

/-- The declared types that occur in a type, outside of the arguments of others. -/
def declaredTypes : Ty → List Name
  | .user name _ => [name]
  | .map key value => declaredTypes key ++ declaredTypes value
  | _ => []

/-- An integer: a negative one is written as the negation of its absolute value. -/
def numeralText (i : Int) : String :=
  if i < 0 then "(- " ++ toString i.natAbs ++ ")" else toString i

/-- The function symbol of an operator on two operands. -/
def operatorText : BinaryOp → String
  | .and => "and"
  | .or => "or"
  | .implies => "=>"
  | .iff => "="
  | .eq => "="
  | .neq => "distinct"
  | .lt => "<"
  | .le => "<="
  | .gt => ">"
  | .ge => ">="
  | .add => "+"
  | .sub => "-"
  | .mul => "*"
  | .div => "div"
  | .mod => "mod"

/- Expressions and lists of expressions as terms. -/
mutual

/-- An expression as a term. -/
def termText : Expr → Except Unsupported String
  | .literal (.bool b) => .ok (toString b)
  | .literal (.int i) => .ok (numeralText i)
  | .literal (.bv width value) =>
    .ok ("(_ bv" ++ toString value ++ " " ++ toString width ++ ")")
  | .symbol n => .ok (symbolText n)
  | .old a => .error (.entryValue (.old a))
  | .unary .not a => do
    let t ← termText a
    return listText ["not", t]
  | .unary .neg a => do
    let t ← termText a
    return listText ["-", t]
  | .binary op a b => do
    let s ← termText a
    let t ← termText b
    return listText [operatorText op, s, t]
  | .apply f [] => .ok (symbolText f)
  | .apply f (a :: as) => do
    let t ← termText a
    let ts ← termTexts as
    return listText (symbolText f :: t :: ts)

/-- Several expressions as terms. -/
def termTexts : List Expr → Except Unsupported (List String)
  | [] => .ok []
  | a :: as => do
    let t ← termText a
    let ts ← termTexts as
    return t :: ts

end

/-- The types of the symbols and functions of a condition, in order of declaration. -/
def declarationTypes (vc : VerificationCondition) : List Ty :=
  vc.symbols.map (·.2) ++ vc.functions.flatMap fun f => f.params.map (·.ty) ++ [f.result]

/-- The script for a condition. -/
def script (l : Lexicon) (vc : VerificationCondition) (timeout : Option Nat) :
    Except Unsupported String := do
  let limit := timeout.toList.map fun t => "(set-option :timeout " ++ toString t ++ ")"
  let sorts := l.sortedSet ((declarationTypes vc).flatMap declaredTypes)
  let constants ← vc.symbols.mapM fun (n, ty) => do
    let s ← sortText ty
    return listText ["declare-const", symbolText n, s]
  let functions ← vc.functions.mapM fun f => do
    let params ← f.params.mapM fun p => sortText p.ty
    let result ← sortText f.result
    return listText ["declare-fun", symbolText f.name, listText params, result]
  let goal ← termText vc.formula
  let values :=
    if vc.symbols.isEmpty then []
    else [listText ["get-value", listText (vc.symbols.map fun (n, _) => symbolText n)]]
  return "\n".intercalate
    (["; " ++ vc.name.text, "(set-option :produce-models true)"] ++ limit ++
      sorts.map (fun n => listText ["declare-sort", symbolText n, "0"]) ++
      constants ++ functions ++
      [listText ["assert", listText ["not", goal]], "(check-sat)"] ++ values ++
      ["(get-info :reason-unknown)", ""])

end Obligations.Solver
