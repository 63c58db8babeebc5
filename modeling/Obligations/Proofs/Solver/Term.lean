import Obligations.Proofs.Solver.Writing

/-!
# Sorts and terms

The S-expressions that types and expressions are meant to be written as, and the names in them.
What is written is read as these if none of the names contains a bar (`shows_sortText`,
`shows_termText`). The other way round each of the names is an atom of the S-expression, so that
nothing is read as it if one of them contains a bar (`barFree_of_readAll`).
-/

namespace Obligations.Solver

/-! ## Sorts -/

/-- A type as an S-expression. -/
def sortExpr : Ty → SExpr
  | .bool => .atom "Bool"
  | .int => .atom "Int"
  | .bv width => .list [.atom "_", .atom "BitVec", .atom (toString width)]
  | .map key value => .list [.atom "Array", sortExpr key, sortExpr value]
  | .user name _ => .atom name.text

/-- What a type is written as is read as the type. -/
theorem shows_sortText : ∀ {ty : Ty} {text : String}, sortText ty = .ok text →
    (∀ n ∈ declaredTypes ty, '|' ∉ n.text.toList) → Shows (sortExpr ty).tokens text
  | .bool, _, h, _ => by
    cases h
    exact shows_word (by decide)
  | .int, _, h, _ => by
    cases h
    exact shows_word (by decide)
  | .bv width, _, h, _ => by
    cases h
    -- The text is that of a list of words, the last of which is the width.
    have htext : "(_ BitVec " ++ toString width ++ ")" =
        listText ["_", "BitVec", toString width] := by
      rw [← String.toList_inj]
      simp [listText]
    rw [htext]
    exact shows_listText (.cons (shows_word (by decide))
      (.cons (shows_word (by decide)) (.cons (shows_toString_nat width) .nil)))
  | .map key value, _, h, hnames => by
    obtain ⟨k, hk, h⟩ := bind_eq_ok.1 h
    obtain ⟨v, hv, h⟩ := bind_eq_ok.1 h
    cases h
    obtain ⟨hkey, hvalue⟩ := List.forall_mem_append.1 hnames
    exact shows_listText (.cons (shows_word (by decide))
      (.cons (shows_sortText hk hkey) (.cons (shows_sortText hv hvalue) .nil)))
  | .user name [], _, h, hnames => by
    cases h
    exact shows_symbolText (hnames name List.mem_cons_self)
  | .user _ (_ :: _), _, h, _ => by cases h

/-! ## Terms -/

/- The S-expressions of an expression and of several expressions. -/
mutual

/-- An expression as an S-expression. Values on entry cannot be written. -/
def termExpr : Expr → SExpr
  | .literal (.bool b) => valueExpr (.bool b)
  | .literal (.int i) => valueExpr (.int i)
  | .literal (.bv width value) =>
    .list [.atom "_", .atom ("bv" ++ toString value), .atom (toString width)]
  | .symbol n => .atom n.text
  | .old a => termExpr a
  | .unary .not a => .list [.atom "not", termExpr a]
  | .unary .neg a => .list [.atom "-", termExpr a]
  | .binary op a b => .list [.atom (operatorText op), termExpr a, termExpr b]
  | .apply f [] => .atom f.text
  | .apply f (a :: as) => .list (.atom f.text :: termExpr a :: termExprs as)

/-- Several expressions as S-expressions. -/
def termExprs : List Expr → List SExpr
  | [] => []
  | a :: as => termExpr a :: termExprs as

end

/- The names in an expression and in several expressions. -/
mutual

/-- The names of variables and functions in an expression. -/
def termNames : Expr → List Name
  | .literal _ => []
  | .symbol n => [n]
  | .old a => termNames a
  | .unary _ a => termNames a
  | .binary _ a b => termNames a ++ termNames b
  | .apply f as => f :: termNamesAll as

/-- The names in several expressions. -/
def termNamesAll : List Expr → List Name
  | [] => []
  | a :: as => termNames a ++ termNamesAll as

end

theorem shows_operatorText (op : BinaryOp) :
    Shows (SExpr.atom (operatorText op)).tokens (operatorText op) := by
  cases op <;> exact shows_word (by decide)

theorem shows_bitVector (width : Nat) (value : Int) :
    Shows (termExpr (.literal (.bv width value))).tokens
      ("(_ bv" ++ toString value ++ " " ++ toString width ++ ")") := by
  have htext : "(_ bv" ++ toString value ++ " " ++ toString width ++ ")" =
      listText ["_", "bv" ++ toString value, toString width] := by
    rw [← String.toList_inj]
    simp [listText]
  rw [htext]
  refine shows_listText (.cons (shows_word (by decide)) (.cons (shows_bare ?_ ?_)
    (.cons (shows_toString_nat width) .nil)))
  · simp
  · simpa using ⟨by decide, by decide, isDelimiter_toString_int value⟩

/- What an expression is written as is read as the expression. -/
mutual

/-- What an expression is written as is read as the expression. -/
theorem shows_termText : ∀ {e : Expr} {text : String}, termText e = .ok text →
    (∀ n ∈ termNames e, '|' ∉ n.text.toList) → Shows (termExpr e).tokens text
  | .literal (.bool b), _, h, _ => by
    cases h
    exact shows_toString_bool b
  | .literal (.int i), _, h, _ => by
    cases h
    exact shows_numeralText i
  | .literal (.bv width value), _, h, _ => by
    cases h
    exact shows_bitVector width value
  | .symbol n, _, h, hnames => by
    cases h
    exact shows_symbolText (hnames n List.mem_cons_self)
  | .old a, _, h, _ => by cases h
  | .unary .not a, _, h, hnames => by
    obtain ⟨t, ht, h⟩ := bind_eq_ok.1 h
    cases h
    exact shows_listText (.cons (shows_word (by decide))
      (.cons (shows_termText ht hnames) .nil))
  | .unary .neg a, _, h, hnames => by
    obtain ⟨t, ht, h⟩ := bind_eq_ok.1 h
    cases h
    exact shows_listText (.cons (shows_word (by decide))
      (.cons (shows_termText ht hnames) .nil))
  | .binary op a b, _, h, hnames => by
    obtain ⟨s, hs, h⟩ := bind_eq_ok.1 h
    obtain ⟨t, ht, h⟩ := bind_eq_ok.1 h
    cases h
    obtain ⟨ha, hb⟩ := List.forall_mem_append.1 hnames
    exact shows_listText (.cons (shows_operatorText op)
      (.cons (shows_termText hs ha) (.cons (shows_termText ht hb) .nil)))
  | .apply f [], _, h, hnames => by
    cases h
    exact shows_symbolText (hnames f List.mem_cons_self)
  | .apply f (a :: as), _, h, hnames => by
    obtain ⟨t, ht, h⟩ := bind_eq_ok.1 h
    obtain ⟨ts, hts, h⟩ := bind_eq_ok.1 h
    cases h
    obtain ⟨hf, hargs⟩ := List.forall_mem_cons.1 hnames
    obtain ⟨ha, has⟩ := List.forall_mem_append.1 hargs
    exact shows_listText (.cons (shows_symbolText hf)
      (.cons (shows_termText ht ha) (shows_termTexts hts has)))

/-- The same for several expressions. -/
theorem shows_termTexts : ∀ {es : List Expr} {texts : List String}, termTexts es = .ok texts →
    (∀ n ∈ termNamesAll es, '|' ∉ n.text.toList) →
    ShowsEach (termExprs es) texts
  | [], _, h, _ => by
    cases h
    exact .nil
  | a :: as, _, h, hnames => by
    obtain ⟨t, ht, h⟩ := bind_eq_ok.1 h
    obtain ⟨ts, hts, h⟩ := bind_eq_ok.1 h
    cases h
    obtain ⟨ha, has⟩ := List.forall_mem_append.1 hnames
    exact .cons (shows_termText ht ha) (shows_termTexts hts has)

end

/-! ## Names as atoms -/

theorem SExpr.mem_atoms_list {a : String} {items : List SExpr} :
    a ∈ (SExpr.list items).atoms ↔ ∃ e ∈ items, a ∈ e.atoms := SExpr.mem_atomsAll

/-- The names in a type are atoms of its S-expression. -/
theorem mem_atoms_sortExpr : ∀ {ty : Ty} {n : Name}, n ∈ declaredTypes ty →
    n.text ∈ (sortExpr ty).atoms
  | .map key value, n, h => by
    refine SExpr.mem_atoms_list.2 ?_
    rcases List.mem_append.1 h with h | h
    · exact ⟨sortExpr key, by simp, mem_atoms_sortExpr h⟩
    · exact ⟨sortExpr value, by simp, mem_atoms_sortExpr h⟩
  | .user name _, n, h => by
    cases List.mem_singleton.1 h
    exact List.mem_singleton_self _

/- The names in an expression are atoms of its S-expression. -/
mutual

/-- The names in an expression are atoms of its S-expression. -/
theorem mem_atoms_termExpr {n : Name} : ∀ {e : Expr}, n ∈ termNames e →
    n.text ∈ (termExpr e).atoms
  | .symbol _, h => by
    cases List.mem_singleton.1 h
    exact List.mem_singleton_self _
  | .old a, h => mem_atoms_termExpr (e := a) h
  | .unary .not a, h => SExpr.mem_atoms_list.2 ⟨termExpr a, by simp, mem_atoms_termExpr h⟩
  | .unary .neg a, h => SExpr.mem_atoms_list.2 ⟨termExpr a, by simp, mem_atoms_termExpr h⟩
  | .binary _ a b, h => by
    refine SExpr.mem_atoms_list.2 ?_
    rcases List.mem_append.1 h with h | h
    · exact ⟨termExpr a, by simp, mem_atoms_termExpr h⟩
    · exact ⟨termExpr b, by simp, mem_atoms_termExpr h⟩
  | .apply f [], h => by
    cases List.mem_singleton.1 h
    exact List.mem_singleton_self _
  | .apply f (a :: as), h => by
    refine SExpr.mem_atoms_list.2 ?_
    rcases List.mem_cons.1 h with rfl | h
    · exact ⟨.atom n.text, by simp, List.mem_singleton_self _⟩
    · obtain ⟨e, he, hn⟩ := mem_atoms_termExprs h
      exact ⟨e, List.mem_cons_of_mem _ he, hn⟩

/-- The same for several expressions. -/
theorem mem_atoms_termExprs {n : Name} : ∀ {es : List Expr}, n ∈ termNamesAll es →
    ∃ e ∈ termExprs es, n.text ∈ e.atoms
  | a :: as, h => by
    rcases List.mem_append.1 h with h | h
    · exact ⟨termExpr a, List.mem_cons_self, mem_atoms_termExpr h⟩
    · obtain ⟨e, he, hn⟩ := mem_atoms_termExprs h
      exact ⟨e, List.mem_cons_of_mem _ he, hn⟩

end

end Obligations.Solver
