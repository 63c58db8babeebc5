/-!
# Tokens of a settings document

The characters of a line in the TOML language are cut into tokens by an automaton. A word keeps the
blanks inside it, because they may stand around the dots of a key; what the word says is decided
where it is used.
-/

namespace Obligations.Settings

/-- A part of a document. -/
inductive Token where
  /-- A key or a scalar, with its dots and the blanks around them. -/
  | word (text : String)
  /-- A text between double quotes. -/
  | text (value : String)
  /-- A bracket, a comma or an equals sign. -/
  | mark (c : Char)
  /-- The end of a line. -/
  | lineEnd
deriving DecidableEq, Repr

/-- Where the automaton stands; characters read are kept in reverse. -/
inductive Mode where
  /-- Between two tokens. -/
  | between
  /-- In a comment, which lasts to the end of the line. -/
  | comment
  /-- In a word. -/
  | word (read : List Char)
  /-- In a text. -/
  | text (read : List Char)
  /-- After a backslash in a text. -/
  | escape (read : List Char)
  /-- In the number of a character, of which so many digits are missing. -/
  | code (read : List Char) (missing number : Nat)

/-- Whether a character separates tokens and says nothing itself. -/
def isGap (c : Char) : Bool := c = ' ' || c = '\t'

/-- Whether a character can stand in a key. -/
def isKeyChar (c : Char) : Bool := c.isAlphanum || c = '-' || c = '_'

/-- Whether a character can begin a word. -/
def isWordChar (c : Char) : Bool := isKeyChar c || c = '.' || c = '+'

/-- Whether a character can stand in a comment or a text. -/
def isPrintable (c : Char) : Bool := c = '\t' || 32 ≤ c.toNat && c.toNat ≠ 127

/-- The value of a digit in a base of at most sixteen. -/
def digitOf? (base : Nat) (c : Char) : Option Nat :=
  let d :=
    if c.isDigit then c.toNat - '0'.toNat
    else if c.isLower then c.toNat - 'a'.toNat + 10
    else if c.isUpper then c.toNat - 'A'.toNat + 10
    else base
  if d < base then some d else none

/-- What follows a character between two tokens. -/
def enter? (c : Char) : Option (List Token × Mode) :=
  if isGap c then some ([], .between)
  else if c = '#' then some ([], .comment)
  else if c = '"' then some ([], .text [])
  else if "[]\x7b\x7d,=".toList.contains c then some ([.mark c], .between)
  else if isWordChar c then some ([], .word [c])
  else none

/-- The character that a letter after a backslash stands for. -/
def escaped? (c : Char) : Option Char :=
  match c with
  | 'b' => some '\x08'
  | 't' => some '\t'
  | 'n' => some '\n'
  | 'f' => some '\x0c'
  | 'r' => some '\r'
  | 'e' => some '\x1b'
  | '"' => some '"'
  | '\\' => some '\\'
  | _ => none

/-- How many digits the number of a character has after a backslash and a letter. -/
def codeLength? (c : Char) : Option Nat :=
  match c with
  | 'x' => some 2
  | 'u' => some 4
  | 'U' => some 8
  | _ => none

/-- The character of a number, if there is one. -/
def charOf? (n : Nat) : Option Char := if n.isValidChar then some (Char.ofNat n) else none

/-- The word with given characters in reverse, without the blanks after it. -/
def wordOf (read : List Char) : Token := .word (String.ofList (read.dropWhile isGap).reverse)

/-- The tokens completed by a character, and where the automaton stands then. -/
def step? : Mode → Char → Option (List Token × Mode)
  | .between, c => enter? c
  | .comment, c => if isPrintable c then some ([], .comment) else none
  | .word read, c =>
    if isWordChar c || isGap c then some ([], .word (c :: read))
    else (enter? c).map fun (ts, m) => (wordOf read :: ts, m)
  | .text read, c =>
    if c = '"' then some ([.text (String.ofList read.reverse)], .between)
    else if c = '\\' then some ([], .escape read)
    else if isPrintable c then some ([], .text (c :: read))
    else none
  | .escape read, c =>
    match codeLength? c with
    | some n => some ([], .code read n 0)
    | none => (escaped? c).map fun e => ([], .text (e :: read))
  | .code read missing number, c =>
    (digitOf? 16 c).bind fun d =>
      if missing ≤ 1 then (charOf? (16 * number + d)).map fun e => ([], .text (e :: read))
      else some ([], .code read (missing - 1) (16 * number + d))

/-- The tokens of a line. A text has to end on its line. -/
def tokens? (m : Mode) : List Char → Option (List Token)
  | [] =>
    match m with
    | .between => some [.lineEnd]
    | .comment => some [.lineEnd]
    | .word read => some [wordOf read, .lineEnd]
    | _ => none
  | c :: cs => (step? m c).bind fun (ts, m) => (tokens? m cs).map (ts ++ ·)

/-- The lines of a text, after the characters of the first one in reverse. A line ends with a line
feed or with a carriage return and a line feed. -/
def linesOf (read : List Char) : List Char → List (List Char)
  | [] => [read.reverse]
  | '\n' :: cs => read.reverse :: linesOf [] cs
  | '\r' :: '\n' :: cs => read.reverse :: linesOf [] cs
  | c :: cs => linesOf (c :: read) cs

/-- The statements of a document, after the tokens of the first one in reverse. A statement ends
with the first line at whose end as many brackets have been closed as were opened before. -/
def statements (depth : Nat) (read : List Token) : List Token → List (List Token)
  | [] => [read.reverse]
  | .lineEnd :: ts =>
    if depth = 0 then read.reverse :: statements 0 [] ts else statements depth (.lineEnd :: read) ts
  | .mark c :: ts =>
    let depth :=
      if c = '[' || c = '\x7b' then depth + 1
      else if c = ']' || c = '\x7d' then depth - 1
      else depth
    statements depth (.mark c :: read) ts
  | t :: ts => statements depth (t :: read) ts

end Obligations.Settings
