import Obligations.Program.Basic

/-!
# How programs are written

A program is written as lines of text, declarations first and bodies last. Inside a procedure, a
body, a block or a scope the lines are indented by two spaces. A body can only be written if every
`goto` in it leads to a block, since the labels of its targets are shown.
-/

namespace Obligations

/-- A line two columns further to the right. -/
def indented (line : String) : String := "  " ++ line

/-- The lines of a text, each closed by a line feed. -/
def unlines (lines : List String) : String := String.join (lines.map (· ++ "\n"))

namespace Cmd

/-- What stands before the condition of an assertion. -/
def assertMark : AssertKind → String
  | .plain => ""
  | .requires callee => "\x7b:requires " ++ callee.text ++ "\x7d "
  | .ensures _ => "\x7b:ensures\x7d "

/- The text of a command, and of several commands with a space after each, on one line. -/
mutual

/-- The command on one line. -/
def text : Cmd → String
  | assert a => "assert " ++ assertMark a.kind ++ a.condition.text ++ ";"
  | assume e => "assume " ++ e.text ++ ";"
  | assign pairs =>
    commaSeparated (pairs.map (·.1.text)) ++ " := " ++ commaSeparated (pairs.map (·.2.text)) ++ ";"
  | havoc vars => "havoc " ++ commaSeparated (vars.map (·.text)) ++ ";"
  | call callee args outputs =>
    "call " ++ (if outputs.isEmpty then "" else commaSeparated (outputs.map (·.text)) ++ " := ") ++
      callee.text ++ "(" ++ commaSeparated (args.map (·.text)) ++ ");"
  | comment text => "// " ++ text
  | scope locals cmds =>
    "\x7b " ++ String.join (locals.map fun v => "var " ++ v.text ++ "; ") ++ spaced cmds ++ "\x7d"

/-- Several commands on one line, each followed by a space. -/
def spaced : List Cmd → String
  | [] => ""
  | c :: cs => c.text ++ " " ++ spaced cs

end

/-- The declaration of a local. -/
def localLine (v : Variable) : String := "var " ++ v.text ++ ";"

/- The lines of a command and of several commands. A scope takes several lines. -/
mutual

/-- The lines of a command. -/
def lines : Cmd → List String
  | scope locals cmds =>
    "\x7b" :: (locals.map localLine ++ linesAll cmds).map indented ++ ["\x7d"]
  | c => [c.text]

/-- The lines of several commands. -/
def linesAll : List Cmd → List String
  | [] => []
  | c :: cs => c.lines ++ linesAll cs

end

end Cmd

/-- A target of a block in a condition: its label, or its number if there is no such block. -/
def ContractBlock.targetText (bs : List ContractBlock) (t : Nat) : String :=
  (bs[t]?.map (·.label.text)).getD ("#" ++ toString t)

/-- The exit of a block in a condition. -/
def ContractExit.text (bs : List ContractBlock) : ContractExit → String
  | goto targets => "goto " ++ commaSeparated (targets.map (ContractBlock.targetText bs)) ++ "; "
  | ret value => "return " ++ value.text ++ "; "

/-- The text of a condition. -/
def Condition.text : Condition → String
  | formula e => e.text
  | blocks bs =>
    "|\x7b " ++
      String.join (bs.map fun b =>
        b.label.text ++ ": " ++ Cmd.spaced b.cmds ++ b.exit.text bs) ++ "\x7d|"

/-- The head of a procedure or of a body; outputs are only mentioned if there are some. -/
def signatureText (keyword : String) (name : Name) (inputs outputs : List Variable) : String :=
  keyword ++ " " ++ name.text ++ "(" ++ commaSeparated (inputs.map (·.text)) ++ ")" ++
    if outputs.isEmpty then ""
    else " returns (" ++ commaSeparated (outputs.map (·.text)) ++ ")"

/-- The declaration of a global. -/
def globalLine (v : Variable) : String := "var " ++ v.text ++ ";"

/-- The declaration of a function. -/
def Function.line (f : Function) : String :=
  "function " ++ f.name.text ++ "(" ++
    commaSeparated (f.params.map fun p => p.name.text ++ ": " ++ p.ty.text) ++ "): " ++
    f.result.text ++ ";"

/-- What stands before a clause that is not checked. -/
def freeMark (free : Bool) : String := if free then "free " else ""

/-- The line of a precondition. -/
def Requires.line (r : Requires) : String :=
  freeMark r.free ++ "requires " ++ r.condition.text ++ ";"

/-- The line of a postcondition. -/
def Ensures.line (e : Ensures) : String :=
  freeMark e.free ++ "ensures " ++
    String.join (e.attributes.map fun a => "\x7b:" ++ a.text ++ "\x7d ") ++
    e.condition.text ++ ";"

/-- The lines of a procedure. -/
def Procedure.lines (p : Procedure) : List String :=
  (signatureText "procedure" p.name p.inputs p.outputs ++ ";") ::
    (p.requires.map (·.line) ++ p.ensures.map (·.line) ++
      (if p.modifies.isEmpty then []
       else ["modifies " ++ commaSeparated (p.modifies.map (·.text)) ++ ";"])).map indented

namespace Implementation

/-- The line that ends a block; `none` if a target does not exist. -/
def transferLine? (i : Implementation) : Transfer → Option String
  | .ret => some "return;"
  | .goto targets => do
    let labels ← targets.mapM i.label?
    return "goto " ++ commaSeparated (labels.map (·.text)) ++ ";"

/-- The lines of a block; `none` if a target does not exist. -/
def blockLines? (i : Implementation) (b : Block) : Option (List String) := do
  let last ← i.transferLine? b.transfer
  return (b.label.text ++ ":") :: (Cmd.linesAll b.cmds ++ [last]).map indented

/-- The blocks in the order in which they are written: first the reachable ones in breadth-first
order, then the others in order of index. -/
def writtenBlocks (i : Implementation) : List Block :=
  let reached := i.reachable
  (reached ++ i.blockIds.filter (· ∉ reached)).filterMap (i.blocks[·]?)

/-- The lines of a body; `none` if a target does not exist. -/
def lines? (i : Implementation) : Option (List String) := do
  let blocks ← i.writtenBlocks.mapM i.blockLines?
  let declared := i.locals.map (indented ∘ Cmd.localLine)
  let gap := if i.locals.isEmpty then [] else [""]
  return signatureText "implementation" i.name i.inputs i.outputs :: "\x7b" ::
    declared ++ gap ++ blocks.flatten.map indented ++ ["\x7d"]

/-- The text of a body; `none` if a target does not exist. -/
def text? (i : Implementation) : Option String := i.lines?.map unlines

end Implementation

/-- A part of a program under its title; a part without lines is left out. -/
def sectionLines (title : String) (body gap : List String) : List String :=
  if body.isEmpty then [] else ("// " ++ title ++ ":") :: body ++ gap

/-- The text of a program; `none` if a target in a body does not exist. -/
def Program.text? (p : Program) : Option String := do
  let bodies ← p.implementations.mapM (·.lines?)
  return unlines
    (sectionLines "Global variables" (p.globals.map globalLine) [""] ++
      sectionLines "Functions" (p.functions.map (·.line)) [""] ++
      sectionLines "Procedures" (p.procedures.flatMap (·.lines)) [""] ++
      sectionLines "Implementations" bodies.flatten [])

end Obligations
