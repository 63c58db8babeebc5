import Obligations.Settings.Document
import Obligations.Condition.Generation
import Obligations.Oracle.Bounded
import Obligations.Solver.Script

/-!
# Options from settings

Each group of options is read from a table by key, or from a list by position. A setting that is not
given takes its default, and one of the wrong kind or out of range makes the whole document
unreadable. One that no option asks for is passed over, but in a table its numbers still have to be
in range.
-/

namespace Obligations

/-- How summaries are inferred. -/
structure InferenceOptions where
  /-- How many values a summary by constants keeps for a variable. -/
  constantBound : Nat := 3
  /-- How many literals a conjunction of predicates has at most. -/
  conjunctBound : Nat := 3
  /-- How conditions are generated. -/
  generation : GenerationOptions := {}
  /-- What else is logged. -/
  logFilter : Option String := none
  /-- Whether the log is written as JSON. -/
  jsonLog : Bool := false
deriving Repr

namespace Setting

/-- The settings of a group with options for given keys, of which a list names its settings in turn.
A scalar is no group. -/
def group? (keys : List String) : Setting → Option Settings
  | table _ entries =>
    if entries.all fun e => keys.contains e.1 || e.2.isInRange then some entries else none
  | list items => some (keys.zip items)
  | _ => none

/-- A text. -/
def asText? : Setting → Option String
  | text value => some value
  | _ => none

/-- A truth value. -/
def asBool? : Setting → Option Bool
  | boolean value => some value
  | _ => none

/-- A list of texts. -/
def asTexts? : Setting → Option (List String)
  | list items => items.mapM asText?
  | _ => none

/-- An integer within bounds. -/
def asInteger? (lo hi : Int) : Setting → Option Int
  | integer value => if lo ≤ value ∧ value ≤ hi then some value else none
  | _ => none

/-- An integer of 64 bits with a sign. -/
def asInt? : Setting → Option Int := asInteger? (-0x8000000000000000) 0x7fffffffffffffff

/-- An integer of 64 bits without a sign. -/
def asNat? (s : Setting) : Option Nat := (s.asInteger? 0 0xffffffffffffffff).map Int.toNat

/-- An encoding: its text, or a table that has this text as its only key and nothing for it. Nothing
is an empty table or an empty list. -/
def asEncoding? : Setting → Option Encoding
  | text value => Encoding.ofText? value
  | table _ [(key, table _ [])] => Encoding.ofText? key
  | table _ [(key, list [])] => Encoding.ofText? key
  | _ => none

end Setting

/-- Reads the option for a key, which has a default. -/
def Settings.option? {α : Type} (t : Settings) (key : String) (read : Setting → Option α)
    (default : α) : Option α :=
  (t.lookup key).elim (some default) read

namespace GenerationOptions

/-- The options for the generation of conditions. -/
def ofSetting? (s : Setting) : Option GenerationOptions := do
  let d : GenerationOptions := {}
  let t ← s.group? ["encoding", "prune-dead-incarnations", "trace-passive"]
  return ⟨← t.option? "encoding" Setting.asEncoding? d.encoding,
    ← t.option? "prune-dead-incarnations" Setting.asBool? d.prune,
    ← t.option? "trace-passive" Setting.asBool? d.trace⟩

end GenerationOptions

namespace InferenceOptions

/-- The options for the inference of summaries. -/
def ofSetting? (s : Setting) : Option InferenceOptions := do
  let d : InferenceOptions := {}
  let t ← s.group? ["constant-bound", "conjunct-bound", "vcgen", "log-level", "json-logs"]
  return ⟨← t.option? "constant-bound" Setting.asNat? d.constantBound,
    ← t.option? "conjunct-bound" Setting.asNat? d.conjunctBound,
    ← t.option? "vcgen" GenerationOptions.ofSetting? d.generation,
    ← t.option? "log-level" (fun v => v.asText?.map some) d.logFilter,
    ← t.option? "json-logs" Setting.asBool? d.jsonLog⟩

end InferenceOptions

namespace BoundedOptions

/-- The options for the search within bounds. -/
def ofSetting? (s : Setting) : Option BoundedOptions := do
  let d : BoundedOptions := {}
  let t ← s.group? ["min-int", "max-int", "max-assignments"]
  return ⟨← t.option? "min-int" Setting.asInt? d.minInt,
    ← t.option? "max-int" Setting.asInt? d.maxInt,
    ← t.option? "max-assignments" Setting.asNat? d.maxAssignments⟩

end BoundedOptions

namespace Solver.SolverOptions

/-- The options for the use of a solver. -/
def ofSetting? (s : Setting) : Option SolverOptions := do
  let d : SolverOptions := {}
  let t ← s.group? ["solver", "arguments", "timeout-ms"]
  return ⟨← t.option? "solver" Setting.asText? d.program,
    ← t.option? "arguments" Setting.asTexts? d.arguments,
    ← t.option? "timeout-ms" (fun v => v.asNat?.map some) d.timeout⟩

end Solver.SolverOptions

namespace Settings

/-- Reads a group of options from a whole document. -/
def read? {α : Type} (group : Setting → Option α) (text : String) : Option α :=
  (ofText? text).bind fun t => group (.table .heading t)

end Settings

end Obligations
