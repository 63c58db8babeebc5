import Mathlib.Tactic.SplitIfs
import Obligations.Oracle.Bounded
import Obligations.Proofs.Expr.Functions

/-!
# Tables of functions

What the search reads off the digits of the applications is a function: the first application with
given arguments decides (`Bounded.exists_tables`). A formula that applies functions only where the
table and another valuation agree has the same value under both (`Expr.evalAt_congr_parts`).
-/

namespace Obligations

/-- Two valuations agree on what expressions without `old` read in the state at hand and on the
applications in them. -/
structure Valuation.AgreeOn (v w : Valuation) (parts : List Expr) : Prop where
  /-- There is no `old`. -/
  old : ∀ a, .old a ∉ parts
  /-- Names have the same values. -/
  symbol : ∀ n, .symbol n ∈ parts → v.symbol n = w.symbol n
  /-- Functions have the same values on the arguments to which they are applied. -/
  application : ∀ f args, .apply f args ∈ parts → ∀ xs, Expr.evalAllAt v .current args = .ok xs →
    v.application f xs = w.application f xs

theorem Valuation.AgreeOn.mono {v w : Valuation} {es es' : List Expr} (h : v.AgreeOn w es)
    (hes : es' ⊆ es) : v.AgreeOn w es' where
  old a ha := h.old a (hes ha)
  symbol n hn := h.symbol n (hes hn)
  application f args hf := h.application f args (hes hf)

namespace Expr

variable {v w : Valuation}

mutual

/-- Valuations that agree on the parts of an expression give it the same value. -/
theorem evalAt_congr_parts : ∀ e : Expr, v.AgreeOn w e.subexprs →
    e.evalAt v .current = e.evalAt w .current
  | literal (.bool _), _ => rfl
  | literal (.int _), _ => rfl
  | literal (.bv _ _), _ => rfl
  | symbol n, h => by
    rw [evalAt, evalAt, Valuation.read, Valuation.read, h.symbol n (by simp [subexprs])]
  | old a, h => (h.old a (by simp [subexprs])).elim
  | unary _ a, h => by
    rw [evalAt, evalAt, evalAt_congr_parts a (h.mono (by simp [subexprs]))]
  | binary _ a b, h => by
    have ha := evalAt_congr_parts a (h.mono (by simp [subexprs]))
    have hb := evalAt_congr_parts b (h.mono (by simp [subexprs]))
    rw [evalAt, evalAt, ha, hb]
  | apply f args, h => by
    have hargs := evalAllAt_congr_parts args (h.mono (by simp [subexprs]))
    rw [evalAt, evalAt, ← hargs]
    -- The functions are asked to agree where the arguments have values.
    cases hxs : evalAllAt v .current args with
    | error e => rfl
    | ok xs =>
      simp only [bind, Except.bind]
      rw [h.application f args (by simp [subexprs]) xs hxs]

/-- The same for several expressions. -/
theorem evalAllAt_congr_parts : ∀ es : List Expr, v.AgreeOn w (subexprsAll es) →
    evalAllAt v .current es = evalAllAt w .current es
  | [], _ => rfl
  | a :: as, h => by
    have ha := evalAt_congr_parts a (h.mono (by simp [subexprsAll]))
    have has := evalAllAt_congr_parts as (h.mono (by simp [subexprsAll]))
    rw [evalAllAt, evalAllAt, ha, has]

end

mutual

/-- An expression without `old` reads its names in the state at hand. -/
theorem symbol_mem_subexprs : ∀ e : Expr, (∀ a, .old a ∉ e.subexprs) →
    ∀ r ∈ e.readsAt .current, r.1 = .current ∧ .symbol r.2 ∈ e.subexprs
  | literal _, _, _, hr => by cases hr
  | symbol n, _, r, hr => by
    cases List.mem_singleton.1 hr
    exact ⟨rfl, by simp [subexprs]⟩
  | old a, h, _, _ => (h a (by simp [subexprs])).elim
  | unary _ a, h, r, hr => by
    obtain ⟨htime, hmem⟩ := symbol_mem_subexprs a
      (fun b hb => h b (List.mem_cons_of_mem _ hb)) r hr
    exact ⟨htime, List.mem_cons_of_mem _ hmem⟩
  | binary _ a b, h, r, hr => by
    rcases List.mem_append.1 hr with hr | hr
    · obtain ⟨htime, hmem⟩ := symbol_mem_subexprs a
        (fun c hc => h c (by simp [subexprs, hc])) r hr
      exact ⟨htime, by simp [subexprs, hmem]⟩
    · obtain ⟨htime, hmem⟩ := symbol_mem_subexprs b
        (fun c hc => h c (by simp [subexprs, hc])) r hr
      exact ⟨htime, by simp [subexprs, hmem]⟩
  | apply _ args, h, r, hr => by
    obtain ⟨htime, hmem⟩ := symbol_mem_subexprsAll args
      (fun b hb => h b (List.mem_cons_of_mem _ hb)) r hr
    exact ⟨htime, List.mem_cons_of_mem _ hmem⟩

/-- The same for several expressions. -/
theorem symbol_mem_subexprsAll : ∀ es : List Expr, (∀ a, .old a ∉ subexprsAll es) →
    ∀ r ∈ readsAllAt .current es, r.1 = .current ∧ .symbol r.2 ∈ subexprsAll es
  | [], _, _, hr => by cases hr
  | e :: es, h, r, hr => by
    rcases List.mem_append.1 hr with hr | hr
    · obtain ⟨htime, hmem⟩ := symbol_mem_subexprs e
        (fun a ha => h a (List.mem_append_left _ ha)) r hr
      exact ⟨htime, List.mem_append_left _ hmem⟩
    · obtain ⟨htime, hmem⟩ := symbol_mem_subexprsAll es
        (fun a ha => h a (List.mem_append_right _ ha)) r hr
      exact ⟨htime, List.mem_append_right _ hmem⟩

end

end Expr

namespace Bounded

variable {table : List TableEntry} {f g : Name} {xs ys : List Value} {r r' : Value}

theorem tableLookup_append : tableLookup (table ++ [(f, xs, r)]) g ys =
    (tableLookup table g ys).or (if f = g ∧ xs = ys then some r else none) := by
  rw [tableLookup, tableLookup, List.findSome?_append, List.findSome?_singleton]

/-- The table with a result for a function on arguments, unless it has one already. -/
def record (table : List TableEntry) (f : Name) (xs : List Value) (r : Value) : List TableEntry :=
  if (tableLookup table f xs).isSome then table else table ++ [(f, xs, r)]

theorem tableLookup_record_of_some (h : tableLookup table g ys = some r') :
    tableLookup (record table f xs r) g ys = some r' := by
  rw [record]
  split_ifs
  · exact h
  · rw [tableLookup_append, h, Option.some_or]

theorem isSome_tableLookup_record : (tableLookup (record table f xs r) f xs).isSome := by
  rw [record]
  split_ifs with h
  · exact h
  · rw [tableLookup_append, if_pos ⟨rfl, rfl⟩, Option.isSome_or, Option.isSome_some, Bool.or_true]

theorem of_tableLookup_record (h : tableLookup (record table f xs r) g ys = some r') :
    tableLookup table g ys = some r' ∨ f = g ∧ xs = ys ∧ r' = r := by
  rw [record] at h
  split_ifs at h
  · exact .inl h
  · rw [tableLookup_append, Option.or_eq_some_iff] at h
    refine h.imp_right fun h => ?_
    obtain ⟨⟨hf, hxs⟩, hr⟩ := Option.ite_none_right_eq_some.1 h.2
    exact ⟨hf, hxs, (Option.some.inj hr).symm⟩

/-- A table is made from another one by the digits of applications. -/
structure Tabulates (v : Valuation) (as : List (Application × Choices)) (ds : List Nat)
    (table table' : List TableEntry) : Prop where
  /-- What was known before is kept. -/
  keeps : ∀ f xs r, tableLookup table f xs = some r → tableLookup table' f xs = some r
  /-- Every application whose arguments have values has a result. -/
  covers : ∀ a ∈ as, ∀ xs, Expr.evalAllAt v .current a.1.args = .ok xs →
    (tableLookup table' a.1.function xs).isSome
  /-- A new result is the value of the digit of such an application. -/
  source : ∀ f xs r, tableLookup table' f xs = some r → tableLookup table f xs = some r ∨
    ∃ p ∈ as.zip ds, p.1.1.function = f ∧
      Expr.evalAllAt v .current p.1.1.args = .ok xs ∧ r = p.1.2.value p.2

variable {v : Valuation}

/-- Where the arguments of applications have values or divide by zero, their digits make a table. -/
theorem exists_tables : ∀ (as : List (Application × Choices)) (ds : List Nat)
    (table : List TableEntry), as.length ≤ ds.length →
    (∀ a ∈ as, Expr.evalAllAt v .current a.1.args = .error .divisionByZero ∨
      ∃ xs, Expr.evalAllAt v .current a.1.args = .ok xs) →
    ∃ table', tables v as ds table = .ok table' ∧ Tabulates v as ds table table'
  | [], ds, table, _, _ => by
    refine ⟨table, by cases ds <;> rfl, fun _ _ _ h => h, ?_, fun _ _ _ h => .inl h⟩
    intro a ha
    cases ha
  | _ :: _, [], _, hlen, _ => by cases hlen
  | (a, c) :: as, d :: ds, table, hlen, hargs => by
    have hlen : as.length ≤ ds.length := Nat.le_of_succ_le_succ hlen
    obtain ⟨hhead, hrest⟩ := List.forall_mem_cons.1 hargs
    -- An application whose arguments have no values makes no entry.
    rcases hhead with herr | ⟨ys, hys⟩
    · obtain ⟨table', hok, htable⟩ := exists_tables as ds table hlen hrest
      refine ⟨table', by rw [tables, herr]; exact hok, htable.keeps, ?_, ?_⟩
      · intro b hb xs hxs
        rcases List.mem_cons.1 hb with rfl | hb
        · rw [herr] at hxs
          cases hxs
        · exact htable.covers b hb xs hxs
      · intro f xs r hr
        refine (htable.source f xs r hr).imp_right ?_
        rintro ⟨p, hp, h⟩
        exact ⟨p, List.mem_cons_of_mem _ hp, h⟩
    · obtain ⟨table', hok, htable⟩ :=
        exists_tables as ds (record table a.function ys (c.value d)) hlen hrest
      refine ⟨table', by rw [tables, hys]; exact hok, ?_, ?_, ?_⟩
      · exact fun f xs r hr => htable.keeps f xs r (tableLookup_record_of_some hr)
      · intro b hb xs hxs
        rcases List.mem_cons.1 hb with rfl | hb
        · obtain rfl : ys = xs := Except.ok.inj (hys.symm.trans hxs)
          obtain ⟨r, hr⟩ := Option.isSome_iff_exists.1 isSome_tableLookup_record
          exact Option.isSome_of_eq_some (htable.keeps _ _ r hr)
        · exact htable.covers b hb xs hxs
      · intro f xs r hr
        rcases htable.source f xs r hr with hr | ⟨p, hp, h⟩
        · refine (of_tableLookup_record hr).imp_right ?_
          rintro ⟨hf, rfl, hvalue⟩
          exact ⟨((a, c), d), List.mem_cons_self, hf, hys, hvalue⟩
        · exact .inr ⟨p, List.mem_cons_of_mem _ hp, h⟩

end Bounded

end Obligations
