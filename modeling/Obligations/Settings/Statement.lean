import Obligations.Settings.Basic

/-!
# Statements of a settings document

A statement of a document in the TOML language is empty, a heading or an entry; this module reads
the part of that language in which keys are bare and texts stand between double quotes on one line.
The brackets of an entry's value are matched, and the resulting phrases are read as settings.
-/

namespace Obligations.Settings

/-! ## Phrases -/

/-- A token, or what stands between matching brackets. -/
inductive Phrase where
  /-- A key or a scalar. -/
  | word (text : String)
  /-- A text between double quotes. -/
  | text (value : String)
  /-- A comma. -/
  | comma
  /-- An equals sign. -/
  | equals
  /-- What stands between square brackets. -/
  | square (items : List Phrase)
  /-- What stands between braces. -/
  | curly (items : List Phrase)
deriving Repr, Inhabited

/-- How many brackets can be open at once. -/
def maxDepth : Nat := 80

/-- Matches brackets. `items` are the phrases of the innermost bracket that is open, in reverse, and
`outer` those before it, each list with whether its own bracket is square. Within a statement the
end of a line says nothing. -/
def phrases? (outer : List (Bool × List Phrase)) (items : List Phrase) :
    List Token → Option (List Phrase)
  | [] => if outer.isEmpty then some items.reverse else none
  | .lineEnd :: ts => phrases? outer items ts
  | .word w :: ts => phrases? outer (.word w :: items) ts
  | .text s :: ts => phrases? outer (.text s :: items) ts
  | .mark c :: ts =>
    if c = '[' || c = '\x7b' then
      if outer.length < maxDepth then phrases? ((c = '[', items) :: outer) [] ts else none
    else if c = ',' then phrases? outer (.comma :: items) ts
    else if c = '=' then phrases? outer (.equals :: items) ts
    else
      match outer with
      | (true, around) :: outer =>
        if c = ']' then phrases? outer (.square items.reverse :: around) ts else none
      | (false, around) :: outer =>
        if c = '\x7d' then phrases? outer (.curly items.reverse :: around) ts else none
      | [] => none

/-! ## Settings -/

/-- The setting that a word is. -/
def scalar? (w : String) : Option Setting :=
  if w = "true" then some (.boolean true)
  else if w = "false" then some (.boolean false)
  else
    match integer? w.toList with
    | some i => some (.integer i)
    | none =>
      let cs := (signed w.toList).2
      if cs = "inf".toList || cs = "nan".toList then some (.fractional none)
      else (Decimal.ofChars? cs).map fun d => .fractional (some d)

/-- The path of keys that a word is. A dot separates two keys, and blanks may stand around it. -/
def path? (w : String) : Option (List String) :=
  (w.splitOn ".").mapM fun part =>
    let key := part.trimAscii.copy
    if key.isEmpty || !key.all isKeyChar then none else some key

mutual

/-- The setting that a phrase is. -/
def Phrase.setting? : Phrase → Option Setting
  | .word w => scalar? w
  | .text s => some (.text s)
  | .comma => none
  | .equals => none
  | .square items => (elements? items).map .list
  | .curly items => (entries? items).bind fun es =>
      (es.foldlM (fun t e => addEntry e.2 e.1 t) []).map (.table .braces)

/-- The settings of a list. A comma may follow the last one. -/
def elements? : List Phrase → Option (List Setting)
  | [] => some []
  | [p] => p.setting?.map fun s => [s]
  | p :: .comma :: ps => p.setting?.bind fun s => (elements? ps).map (s :: ·)
  | _ => none

/-- The entries between braces. A comma may follow the last one. -/
def entries? : List Phrase → Option (List (List String × Setting))
  | [] => some []
  | [.word w, .equals, p] => (path? w).bind fun path => p.setting?.map fun s => [(path, s)]
  | .word w :: .equals :: p :: .comma :: ps =>
    (path? w).bind fun path => p.setting?.bind fun s => (entries? ps).map ((path, s) :: ·)
  | _ => none

end

/-! ## Statements -/

/-- What a statement contributes to a document. -/
inductive Statement where
  /-- Nothing. -/
  | blank
  /-- The table that the following entries belong to. -/
  | heading (path : List String)
  /-- A setting for a path of keys. -/
  | entry (path : List String) (s : Setting)
deriving Repr

/-- Reads a statement. A heading stands on one line, and the value of an entry ends on the line on
which its last bracket is closed. -/
def Statement.ofTokens? : List Token → Option Statement
  | [] => some .blank
  | [.mark '[', .word w, .mark ']'] => (path? w).map .heading
  | .word w :: .mark '=' :: ts => do
    match ← phrases? [] [] ts with
    | [p] => return .entry (← path? w) (← p.setting?)
    | _ => none
  | _ => none

end Obligations.Settings
