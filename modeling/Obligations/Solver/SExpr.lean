import Obligations.Text.Blank
import Obligations.Oracle.Basic

/-!
# S-expressions

What a solver writes is a sequence of S-expressions. The text is cut into tokens by an automaton
that reads one character at a time, and the tokens are then put together. A fault in the text
becomes the last token, so that of two faults the first in the text is reported.
-/

namespace Obligations.Solver

/-- An S-expression. -/
inductive SExpr where
  /-- A symbol or a numeral; a symbol between bars is kept without them. -/
  | atom (text : String)
  /-- A string. -/
  | string (text : String)
  /-- A list. -/
  | list (items : List SExpr)
deriving Repr, Inhabited

namespace SExpr

/-- The text, if the expression is an atom. -/
def asAtom? : SExpr → Option String
  | atom text => some text
  | _ => none

/-- The items, if the expression is a list. -/
def asList? : SExpr → Option (List SExpr)
  | list items => some items
  | _ => none

end SExpr

/-- A part of the text of an S-expression. -/
inductive Token where
  /-- An opening parenthesis. -/
  | opening
  /-- A closing parenthesis. -/
  | closing
  /-- An expression without parts. -/
  | leaf (e : SExpr)
  /-- A fault, after which nothing is read. -/
  | fault (cause : ResponseError)
deriving Repr

/-- Where the automaton stands; characters read are kept in reverse. -/
inductive Mode where
  /-- Between two tokens. -/
  | between
  /-- In a comment, which lasts to the end of the line. -/
  | comment
  /-- In an atom. -/
  | atom (read : List Char)
  /-- In a symbol between bars. -/
  | symbol (read : List Char)
  /-- In a string. -/
  | string (read : List Char)
  /-- After a quote in a string, which ends the string unless another quote follows. -/
  | quote (read : List Char)

/-- Whether a character ends an atom. -/
def isDelimiter (c : Char) : Bool :=
  Text.isBlank c || c = '(' || c = ')' || c = ';' || c = '"' || c = '|'

/-- The tokens completed by a character between two tokens, and where the automaton stands then. -/
def enter (c : Char) : List Token × Mode :=
  if Text.isBlank c then ([], .between)
  else if c = ';' then ([], .comment)
  else if c = '(' then ([.opening], .between)
  else if c = ')' then ([.closing], .between)
  else if c = '"' then ([], .string [])
  else if c = '|' then ([], .symbol [])
  else ([], .atom [c])

/-- The text of characters kept in reverse. -/
def textOf (read : List Char) : String := String.ofList read.reverse

/-- The tokens completed by a character, and where the automaton stands then. -/
def step : Mode → Char → List Token × Mode
  | .between, c => enter c
  | .comment, c => ([], if c = '\n' then .between else .comment)
  | .atom read, c =>
    if isDelimiter c then
      let (ts, m) := enter c
      (.leaf (.atom (textOf read)) :: ts, m)
    else ([], .atom (c :: read))
  | .symbol read, c =>
    if c = '|' then ([.leaf (.atom (textOf read))], .between) else ([], .symbol (c :: read))
  | .string read, c => ([], if c = '"' then .quote read else .string (c :: read))
  | .quote read, c =>
    if c = '"' then ([], .string ('"' :: read))
    else
      let (ts, m) := enter c
      (.leaf (.string (textOf read)) :: ts, m)

/-- The tokens completed by the end of the text. -/
def finish : Mode → List Token
  | .between => []
  | .comment => []
  | .atom read => [.leaf (.atom (textOf read))]
  | .symbol _ => [.fault .unterminatedSymbol]
  | .string _ => [.fault .unterminatedString]
  | .quote read => [.leaf (.string (textOf read))]

/-- The tokens of a text. -/
def tokens (m : Mode) : List Char → List Token
  | [] => finish m
  | c :: cs =>
    let (ts, m) := step m c
    ts ++ tokens m cs

/-- Puts tokens together. `items` are the expressions of the innermost list that is open, in
reverse, and `outer` those of the lists around it. -/
def assemble (outer : List (List SExpr)) (items : List SExpr) :
    List Token → Except ResponseError (List SExpr)
  | [] => if outer.isEmpty then .ok items.reverse else .error .unbalancedOpen
  | .opening :: ts => assemble (items :: outer) [] ts
  | .closing :: ts =>
    match outer with
    | [] => .error .unbalancedClose
    | around :: outer => assemble outer (.list items.reverse :: around) ts
  | .leaf e :: ts => assemble outer (e :: items) ts
  | .fault cause :: _ => .error cause

/-- All S-expressions of a text. -/
def readAll (text : String) : Except ResponseError (List SExpr) :=
  assemble [] [] (tokens .between text.toList)

end Obligations.Solver
