import Obligations.Minting
import Obligations.Condition.Error

/-!
# Weakest preconditions

The weakest precondition of a passive block is pulled back through its commands: an assertion is a
conjunct, an assumption a premise. For a whole body there are two encodings. Inline, the conditions
of the successors are copied into a block's condition. With block variables, each block has a
Boolean symbol that is defined by its condition, so that the formula grows no faster than the body.
-/

namespace Obligations

/-- How the condition of a body is written down. -/
inductive Encoding where
  /-- One Boolean symbol per block. -/
  | blockVariables
  /-- The conditions of successors are copied. -/
  | inline
deriving DecidableEq, Repr

namespace Encoding

/-- The text of an encoding. -/
def text : Encoding → String
  | blockVariables => "block-variables"
  | inline => "inline"

/-- The encoding that a text names. -/
def ofText? (s : String) : Option Encoding :=
  if s = "block-variables" then some blockVariables
  else if s = "inline" then some inline
  else none

end Encoding

namespace Condition

/-- The weakest precondition of commands. -/
def ofCmds (label : Name) (post : Expr) : List Cmd → Except ConditionError Expr
  | [] => .ok post
  | c :: cs => do
    let q ← ofCmds label post cs
    match c with
    | .assert a => .ok (a.condition.conj q)
    | .assume e => .ok (e.impl q)
    | c => .error (.inconsistent (.notPassive label c))

/-- Conditions of blocks; of several for one block the first counts. -/
abbrev Table := List (Nat × Expr)

/-- The condition of a block. -/
def Table.get (i : Implementation) (t : Table) (id : Nat) : Except ConditionError Expr :=
  (t.lookup id).elim (.error (.inconsistent (.notVisited i.name id))) .ok

/-- The block of an index. -/
def blockAt (i : Implementation) (id : Nat) : Except ConditionError Block :=
  (i.blocks[id]?).elim (.error (.inconsistent (.noSuchBlock i.name id))) .ok

/-- The conditions of the blocks of a list, in which each block comes before its successors, with
the conditions of successors copied. -/
def inlineTable (i : Implementation) : List Nat → Except ConditionError Table
  | [] => .ok []
  | id :: ids => do
    let t ← inlineTable i ids
    let b ← blockAt i id
    let post ← b.successors.mapM (t.get i)
    let e ← ofCmds b.label (.conjAll post) b.cmds
    return (id, e) :: t

/-- The condition of a body with the conditions of successors copied. -/
def inlined (i : Implementation) (order : List Nat) : Except ConditionError Expr := do
  let t ← inlineTable i order
  t.get i i.entry

/-- The symbols of the blocks of a list: a block is named for its label, or, where that name is
taken, for its label and its index. -/
def blockSymbols (i : Implementation) (taken : List Name) :
    List Nat → Except ConditionError (List (Nat × Name))
  | [] => .ok []
  | id :: ids => do
    let b ← blockAt i id
    let plain : Name := ⟨b.label.text ++ "_correct"⟩
    let n : Name :=
      if plain ∈ taken then ⟨b.label.text ++ "_" ++ toString id ++ "_correct"⟩ else plain
    let rest ← blockSymbols i (n :: taken) ids
    return (id, n) :: rest

/-- The definitions of the symbols of the blocks of a list. -/
def definitions (i : Implementation) (t : Table) : List Nat → Except ConditionError (List Expr)
  | [] => .ok []
  | id :: ids => do
    let b ← blockAt i id
    let post ← b.successors.mapM (t.get i)
    let n ← t.get i id
    let e ← ofCmds b.label (.conjAll post) b.cmds
    let rest ← definitions i t ids
    return .binary .iff n e :: rest

/-- The formula that, with the symbols of the blocks as defined, the symbol of the entry holds. -/
def defined (i : Implementation) (order : List Nat) (symbols : List (Nat × Name)) :
    Except ConditionError Expr := do
  -- Of several symbols for one block, as a repetitive order makes, the last counts.
  let t : Table := symbols.reverse.map fun (id, n) => (id, .symbol n)
  let ds ← definitions i t order
  let start ← t.get i i.entry
  return .binary .implies (.conjAll ds) start

/-- The formula of a body in an encoding, and the symbols of its blocks. -/
def encode (i : Implementation) (order : List Nat) :
    Encoding → Minting ConditionError (Expr × List Name)
  | .inline => do
    let e ← inlined i order
    return (e, [])
  | .blockVariables => do
    let symbols ← blockSymbols i [] order
    .mintAll (symbols.map (·.2))
    let e ← defined i order symbols
    return (e, order.filterMap fun id => symbols.reverse.lookup id)

end Condition

end Obligations
