import Obligations.Oracle.Basic

/-!
# One query at a time

A session holds the query that has been begun and not answered yet, with whatever was prepared for
its answer.
-/

namespace Obligations

/-- The state of an oracle between calls. -/
structure Session (α : Type) where
  /-- The text under which the pending query was begun, and what was prepared for it. -/
  pending : Option (String × α)

namespace Session

variable {α : Type}

/-- No query is pending. -/
def idle : Session α := ⟨none⟩

/-- Begins a query, unless one is pending or the preparation fails. -/
def start (s : Session α) (query : String) (prepare : Except OracleError α) :
    Except OracleError (Session α) :=
  match s.pending with
  | some (pending, _) => .error (.queryInFlight pending)
  | none => prepare.map fun a => ⟨some (query, a)⟩

/-- The pending query. The session that remains is `idle`. -/
def take (s : Session α) : Except OracleError (String × α) :=
  s.pending.elim (.error .noPendingQuery) .ok

end Session

end Obligations
