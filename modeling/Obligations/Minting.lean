import Obligations.Name

/-!
# Making up names

The stages that prepare a body make up names for blocks and variables. What they make up depends on
the body alone, and only the order of the mentions matters to others. A `Minting` is therefore an
outcome together with the names made up on the way; `outcome_bind` says that the outcome of a
sequence of steps does not depend on them. A failure keeps the names made up before it.
-/

namespace Obligations

/-- An outcome together with the names made up on the way, in the order in which they were made. -/
structure Minting (ε α : Type) where
  /-- The result, or the reason why there is none. -/
  outcome : Except ε α
  /-- The names made up. -/
  names : List Name

namespace Minting

variable {ε α β : Type}

/-- A result for which no name is made up. -/
protected def pure (a : α) : Minting ε α := ⟨.ok a, []⟩

/-- One step after another; a failure of the first is the failure of both. -/
protected def bind (x : Minting ε α) (f : α → Minting ε β) : Minting ε β :=
  match x.outcome with
  | .ok a => ⟨(f a).outcome, x.names ++ (f a).names⟩
  | .error e => ⟨.error e, x.names⟩

instance : Monad (Minting ε) where
  pure := Minting.pure
  bind := Minting.bind

/-- A failure. -/
def fail (e : ε) : Minting ε α := ⟨.error e, []⟩

/-- Makes up a name. -/
def mint (n : Name) : Minting ε Name := ⟨.ok n, [n]⟩

/-- Makes up several names in turn. -/
def mintAll (ns : List Name) : Minting ε Unit := ⟨.ok (), ns⟩

/-- An outcome for which no name is made up. -/
def ofExcept (x : Except ε α) : Minting ε α := ⟨x, []⟩

instance : MonadLift (Except ε) (Minting ε) := ⟨ofExcept⟩

@[simp] theorem outcome_pure (a : α) : (pure a : Minting ε α).outcome = .ok a := rfl

@[simp] theorem outcome_mint (n : Name) : (mint n : Minting ε Name).outcome = .ok n := rfl

@[simp] theorem outcome_mintAll (ns : List Name) :
    (mintAll ns : Minting ε Unit).outcome = .ok () := rfl

@[simp] theorem outcome_fail (e : ε) : (fail e : Minting ε α).outcome = .error e := rfl

@[simp] theorem outcome_ofExcept (x : Except ε α) : (ofExcept x).outcome = x := rfl

/-- The outcome of a sequence of steps is the sequence of the outcomes. -/
@[simp] theorem outcome_bind (x : Minting ε α) (f : α → Minting ε β) :
    (x >>= f).outcome = x.outcome >>= fun a => (f a).outcome := by
  obtain ⟨r, ns⟩ := x
  cases r <;> rfl

/-- Mentions the names that were made up and gives the outcome. -/
def record (x : Minting ε α) : NamingExcept ε α := do
  modify fun l => x.names.foldl Lexicon.mention l
  match x.outcome with
  | .ok a => return a
  | .error e => throw e

end Minting

end Obligations
