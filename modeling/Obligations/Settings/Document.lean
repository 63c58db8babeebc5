import Obligations.Settings.Statement

/-!
# Settings documents

A document is read statement by statement. An entry belongs to the table of the last heading before
it.
-/

namespace Obligations.Settings

/-- Adds statements to what has been read. The path is that of the last heading. -/
def addStatements (heading : List String) (t : Settings) : List Statement → Option Settings
  | [] => some t
  | .blank :: ss => addStatements heading t ss
  | .heading path :: ss => (addHeading path t).bind fun t => addStatements path t ss
  | .entry path s :: ss => (modifyAt (addEntry s path) heading t).bind fun t =>
      addStatements heading t ss

/-- A text without the mark of byte order that may begin it. -/
def withoutMark : List Char → List Char
  | '\ufeff' :: cs => cs
  | cs => cs

/-- The settings of a document, unless it is malformed. -/
def ofText? (text : String) : Option Settings := do
  let tokens ← (linesOf [] (withoutMark text.toList)).mapM (tokens? .between)
  addStatements [] [] (← (statements 0 [] tokens.flatten).mapM Statement.ofTokens?)

end Obligations.Settings
