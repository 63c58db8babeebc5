import Obligations.Expr.Basic

/-!
# Substitution

A substitution maps some names to expressions and leaves the others alone. `Expr.substitute` acts
everywhere and keeps every `old`. `Expr.substituteOld` removes `old`: under it a second map, for the
values on entry, goes before the first.
-/

namespace Obligations

/-- What a name is replaced by; `none` leaves it. -/
abbrev Subst := Name → Option Expr

namespace Expr

/- Replacement by a map that may depend on the moment at which a name is read. -/
mutual

/-- Replaces every name by what the map for its moment gives, and keeps or drops `old`. -/
def substAt (f : Moment → Subst) (keepOld : Bool) (t : Moment) : Expr → Expr
  | literal v => literal v
  | symbol n => (f t n).getD (symbol n)
  | old a =>
    let a := a.substAt f keepOld .entry
    if keepOld then old a else a
  | unary op a => unary op (a.substAt f keepOld t)
  | binary op a b => binary op (a.substAt f keepOld t) (b.substAt f keepOld t)
  | apply g args => apply g (substAllAt f keepOld t args)

/-- Replaces the names in several expressions. -/
def substAllAt (f : Moment → Subst) (keepOld : Bool) (t : Moment) : List Expr → List Expr
  | [] => []
  | a :: as => a.substAt f keepOld t :: substAllAt f keepOld t as

end

/-- Replaces names everywhere, under `old` too, and keeps every `old`. -/
def substitute (e : Expr) (f : Subst) : Expr := e.substAt (fun _ => f) true .current

/-- Replaces names and removes `old`: a name under `old` takes what `onEntry` gives, or else what
`always` gives; a name elsewhere takes what `always` gives. -/
def substituteOld (e : Expr) (always onEntry : Subst) : Expr :=
  e.substAt (fun | .current => always | .entry => fun n => (onEntry n).or (always n)) false .current

end Expr

end Obligations
