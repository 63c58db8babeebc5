import Obligations.Settings.Number

/-!
# Settings

A setting is a scalar, a list of settings or a table of settings by key. A table remembers how it
came into being, because that decides what may be added to it later: a table whose keys were given
at one place is complete, one that was only passed through on the way to a key is not.
-/

namespace Obligations

/-- How a table came into being. -/
inductive TableOrigin where
  /-- The whole document, or a table with a heading of its own. -/
  | heading
  /-- A table that was passed through by the heading of another. -/
  | headingPath
  /-- A table that was passed through by the key of an entry. -/
  | entryPath
  /-- A table written between braces. -/
  | braces
deriving DecidableEq, Repr

/-- What is given for a key. -/
inductive Setting where
  /-- A text. -/
  | text (value : String)
  /-- An integer. -/
  | integer (value : Int)
  /-- A number with a fraction or an exponent, without its sign; infinity and what is not a number
  have no value. -/
  | fractional (value : Option Settings.Decimal)
  /-- A truth value. -/
  | boolean (value : Bool)
  /-- A list. -/
  | list (items : List Setting)
  /-- A table, in the order in which its keys were given. -/
  | table (origin : TableOrigin) (entries : List (String × Setting))
deriving Repr, Inhabited

mutual

/-- Whether every number of a setting is in range: an integer has at most 128 bits, with or without
a sign, and any other number is in the range of double precision. -/
def Setting.isInRange : Setting → Bool
  | .integer value =>
    -0x80000000000000000000000000000000 ≤ value && value ≤ 0xffffffffffffffffffffffffffffffff
  | .fractional value => value.all Settings.Decimal.isInRange
  | .list items => elementsInRange items
  | .table _ entries => entriesInRange entries
  | _ => true

/-- Whether every number of a list is in range. -/
def elementsInRange : List Setting → Bool
  | [] => true
  | s :: ss => s.isInRange && elementsInRange ss

/-- Whether every number of a table is in range. -/
def entriesInRange : List (String × Setting) → Bool
  | [] => true
  | (_, s) :: es => s.isInRange && entriesInRange es

end

/-- Settings by key. -/
abbrev Settings := List (String × Setting)

namespace Settings

/-- Gives a key that is present another setting. -/
def replace (t : Settings) (key : String) (s : Setting) : Settings :=
  t.map fun e => if e.1 = key then (key, s) else e

/-- Adds an entry under a path of keys. The key must be new, and the tables on the way to it are
made as needed; none of them may be complete, and one that headings passed through can be passed
through again but takes no entry itself. -/
def addEntry (s : Setting) : List String → Settings → Option Settings
  | [], _ => none
  | [key], t => if (t.lookup key).isSome then none else some (t ++ [(key, s)])
  | key :: keys, t =>
    match t.lookup key with
    | none => (addEntry s keys []).map fun inner => t ++ [(key, .table .entryPath inner)]
    | some (.table .headingPath inner) =>
      if keys.length ≤ 1 then none
      else (addEntry s keys inner).map fun inner => t.replace key (.table .headingPath inner)
    | some (.table .entryPath inner) =>
      (addEntry s keys inner).map fun inner => t.replace key (.table .entryPath inner)
    | some _ => none

/-- Makes the table that a heading names. It must be new or only have been passed through by other
headings, and nothing on the way to it may be written between braces. -/
def addHeading : List String → Settings → Option Settings
  | [], _ => none
  | [key], t =>
    match t.lookup key with
    | none => some (t ++ [(key, .table .heading [])])
    | some (.table .headingPath inner) => some (t.replace key (.table .heading inner))
    | some _ => none
  | key :: keys, t =>
    match t.lookup key with
    | none => (addHeading keys []).map fun inner => t ++ [(key, .table .headingPath inner)]
    | some (.table .braces _) => none
    | some (.table origin inner) =>
      (addHeading keys inner).map fun inner => t.replace key (.table origin inner)
    | some _ => none

/-- Changes the table at a path of keys. -/
def modifyAt (f : Settings → Option Settings) : List String → Settings → Option Settings
  | [], t => f t
  | key :: keys, t =>
    match t.lookup key with
    | some (.table origin inner) =>
      (modifyAt f keys inner).map fun inner => t.replace key (.table origin inner)
    | _ => none

end Settings

end Obligations
