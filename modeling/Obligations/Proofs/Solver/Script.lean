import Obligations.Proofs.Solver.Term

/-!
# Commands of a script

The commands that a script is meant to consist of (`commands`), and what is read from it. Between
bars every character stands for itself except a bar, and in a comment every character does except a
line feed. So the script is read as its commands exactly if no name that it writes contains a bar
and the lines of the condition's name after the first are read as nothing (`readAll_script_iff`).
-/

namespace Obligations.Solver

/-! ## The intended commands -/

/-- The declaration of a sort. -/
def declareSort (n : Name) : SExpr := .list [.atom "declare-sort", .atom n.text, .atom "0"]

/-- The declaration of a symbol. -/
def declareConst (s : Name × Ty) : SExpr :=
  .list [.atom "declare-const", .atom s.1.text, sortExpr s.2]

/-- The declaration of a function. -/
def declareFun (f : Function) : SExpr :=
  .list [.atom "declare-fun", .atom f.name.text, .list (f.params.map fun p => sortExpr p.ty),
    sortExpr f.result]

/-- The question for the values of symbols, if there are any. -/
def getValue (symbols : List (Name × Ty)) : List SExpr :=
  if symbols.isEmpty then []
  else [.list [.atom "get-value", .list (symbols.map fun s => .atom s.1.text)]]

/-- The commands that the script of a condition is meant to consist of. -/
def commands (l : Lexicon) (vc : VerificationCondition) (timeout : Option Nat) : List SExpr :=
  .list [.atom "set-option", .atom ":produce-models", .atom "true"] ::
    timeout.toList.map (fun t => .list [.atom "set-option", .atom ":timeout", .atom (toString t)]) ++
    (l.sortedSet ((declarationTypes vc).flatMap declaredTypes)).map declareSort ++
    vc.symbols.map declareConst ++ vc.functions.map declareFun ++
    [.list [.atom "assert", .list [.atom "not", termExpr vc.formula]],
      .list [.atom "check-sat"]] ++
    getValue vc.symbols ++ [.list [.atom "get-info", .atom ":reason-unknown"]]

/-- The names that are written in the script of a condition outside of its comment. -/
def scriptNames (vc : VerificationCondition) : List Name :=
  vc.symbols.map (·.1) ++ vc.functions.map (·.name) ++
    (declarationTypes vc).flatMap declaredTypes ++ termNames vc.formula

/-- The lines of a text after the first. -/
def laterLines (text : String) : String :=
  .ofList ((text.toList.dropWhile (· ≠ '\n')).drop 1)

/-! ## Names that are free of bars -/

section

variable {l : Lexicon} {vc : VerificationCondition} {timeout : Option Nat} {text : String}

/-- The parts of the condition that have names write no bar. -/
theorem bars_of_scriptNames (h : ∀ n ∈ scriptNames vc, '|' ∉ n.text.toList) :
    (∀ s ∈ vc.symbols, '|' ∉ s.1.text.toList ∧ ∀ n ∈ declaredTypes s.2, '|' ∉ n.text.toList) ∧
      (∀ f ∈ vc.functions, '|' ∉ f.name.text.toList ∧
        (∀ p ∈ f.params, ∀ n ∈ declaredTypes p.ty, '|' ∉ n.text.toList) ∧
        ∀ n ∈ declaredTypes f.result, '|' ∉ n.text.toList) ∧
      (∀ n ∈ termNames vc.formula, '|' ∉ n.text.toList) ∧
      ∀ n ∈ (declarationTypes vc).flatMap declaredTypes, '|' ∉ n.text.toList := by
  simp only [scriptNames, List.forall_mem_append, List.forall_mem_map] at h
  obtain ⟨⟨⟨hsymbols, hfunctions⟩, hdeclared⟩, hformula⟩ := h
  have htypes : ∀ ty ∈ declarationTypes vc, ∀ n ∈ declaredTypes ty, '|' ∉ n.text.toList :=
    fun ty hty n hn => hdeclared n (List.mem_flatMap.2 ⟨ty, hty, hn⟩)
  simp only [declarationTypes, List.forall_mem_append, List.forall_mem_map] at htypes
  refine ⟨fun s hs => ⟨hsymbols s hs, htypes.1 s hs⟩, fun f hf => ?_, hformula, hdeclared⟩
  have hof : ∀ ty ∈ f.params.map (·.ty) ++ [f.result], ∀ n ∈ declaredTypes ty,
      '|' ∉ n.text.toList := fun ty hty => htypes.2 ty (List.mem_flatMap.2 ⟨f, hf, hty⟩)
  simp only [List.forall_mem_append, List.forall_mem_map, List.forall_mem_singleton] at hof
  exact ⟨hfunctions f hf, hof⟩

theorem shows_declareSort {n : Name} (hn : '|' ∉ n.text.toList) :
    Shows (declareSort n).tokens (listText ["declare-sort", symbolText n, "0"]) :=
  shows_listText (.cons (shows_word (by decide)) (.cons (shows_symbolText hn)
    (.cons (shows_word (by decide)) .nil)))

theorem shows_timeout (t : Nat) :
    Shows (SExpr.list [.atom "set-option", .atom ":timeout", .atom (toString t)]).tokens
      ("(set-option :timeout " ++ toString t ++ ")") := by
  have htext : "(set-option :timeout " ++ toString t ++ ")" =
      listText ["set-option", ":timeout", toString t] := by
    rw [← String.toList_inj]
    simp [listText]
  rw [htext]
  exact shows_listText (.cons (shows_word (by decide))
    (.cons (shows_word (by decide)) (.cons (shows_toString_nat t) .nil)))

theorem shows_assert {e : Expr} (h : termText e = .ok text)
    (hnames : ∀ n ∈ termNames e, '|' ∉ n.text.toList) :
    Shows (SExpr.list [.atom "assert", .list [.atom "not", termExpr e]]).tokens
      (listText ["assert", listText ["not", text]]) :=
  shows_listText (.cons (shows_word (by decide)) (.cons
    (shows_listText (.cons (shows_word (by decide))
      (.cons (shows_termText h hnames) .nil))) .nil))

theorem shows_declareConst {s : Name × Ty}
    (hs : '|' ∉ s.1.text.toList ∧ ∀ n ∈ declaredTypes s.2, '|' ∉ n.text.toList)
    (h : (sortText s.2 >>= fun ty => .ok (listText ["declare-const", symbolText s.1, ty])) =
      .ok text) : Shows (declareConst s).tokens text := by
  obtain ⟨ty, hty, h⟩ := bind_eq_ok.1 h
  cases h
  exact shows_listText (.cons (shows_word (by decide)) (.cons (shows_symbolText hs.1)
    (.cons (shows_sortText hty hs.2) .nil)))

theorem shows_declareFun {f : Function}
    (hf : '|' ∉ f.name.text.toList ∧
      (∀ p ∈ f.params, ∀ n ∈ declaredTypes p.ty, '|' ∉ n.text.toList) ∧
      ∀ n ∈ declaredTypes f.result, '|' ∉ n.text.toList)
    (h : ((f.params.mapM fun p => sortText p.ty) >>= fun params => sortText f.result >>=
      fun result => .ok (listText ["declare-fun", symbolText f.name, listText params, result])) =
      .ok text) : Shows (declareFun f).tokens text := by
  obtain ⟨params, hparams, h⟩ := bind_eq_ok.1 h
  obtain ⟨result, hresult, h⟩ := bind_eq_ok.1 h
  cases h
  obtain ⟨hname, hdeclared, hof⟩ := hf
  have heach : ShowsEach (f.params.map fun p => sortExpr p.ty) params :=
    showsEach_mapM (fun p text hp htext => shows_sortText htext hp) hdeclared hparams
  exact shows_listText (.cons (shows_word (by decide)) (.cons (shows_symbolText hname)
    (.cons (shows_listText heach) (.cons (shows_sortText hresult hof) .nil))))

theorem showsEach_getValue {symbols : List (Name × Ty)}
    (h : ∀ s ∈ symbols, '|' ∉ s.1.text.toList) :
    ShowsEach (getValue symbols) (if symbols.isEmpty then []
      else [listText ["get-value", listText (symbols.map fun (n, _) => symbolText n)]]) := by
  unfold getValue
  split_ifs
  · exact .nil
  · exact .cons (shows_listText (.cons (shows_word (by decide))
      (.cons (shows_listText (showsEach_map fun s hs => shows_symbolText (h s hs))) .nil))) .nil

/-- A script is a comment and then one line for each of the intended commands. -/
theorem exists_lines (h : script l vc timeout = .ok text) :
    ∃ lines, text = "\n".intercalate (("; " ++ vc.name.text) :: (lines ++ [""])) ∧
      ((∀ n ∈ scriptNames vc, '|' ∉ n.text.toList) →
        ShowsEach (commands l vc timeout) lines) := by
  obtain ⟨constants, hconstants, h⟩ := bind_eq_ok.1 h
  obtain ⟨functions, hfunctions, h⟩ := bind_eq_ok.1 h
  obtain ⟨goal, hgoal, h⟩ := bind_eq_ok.1 h
  cases h
  refine ⟨"(set-option :produce-models true)" ::
    timeout.toList.map (fun t => "(set-option :timeout " ++ toString t ++ ")") ++
    (l.sortedSet ((declarationTypes vc).flatMap declaredTypes)).map
      (fun n => listText ["declare-sort", symbolText n, "0"]) ++
    constants ++ functions ++ [listText ["assert", listText ["not", goal]], "(check-sat)"] ++
    (if vc.symbols.isEmpty then []
      else [listText ["get-value", listText (vc.symbols.map fun (n, _) => symbolText n)]]) ++
    ["(get-info :reason-unknown)"], ?_, fun hnames => ?_⟩
  · simp
  obtain ⟨hsymbols, hfunctionNames, hformula, hdeclared⟩ := bars_of_scriptNames hnames
  have hsorts : ∀ n ∈ l.sortedSet ((declarationTypes vc).flatMap declaredTypes),
      '|' ∉ n.text.toList := fun n hn => hdeclared n (Lexicon.mem_sortedSet.1 hn)
  have hproduce := shows_words "(set-option :produce-models true)"
    ["set-option", ":produce-models", "true"] (by decide) (by decide)
  have hcheck := shows_words "(check-sat)" ["check-sat"] (by decide) (by decide)
  have hinfo := shows_words "(get-info :reason-unknown)" ["get-info", ":reason-unknown"]
    (by decide) (by decide)
  -- The lines are those of the commands, group by group and in the same order.
  unfold commands
  refine .append (.append (.append (.append (.append (.append (.cons hproduce ?_) ?_) ?_) ?_) ?_) ?_)
    (.cons hinfo .nil)
  · exact showsEach_map fun t _ => shows_timeout t
  · exact showsEach_map fun n hn => shows_declareSort (hsorts n hn)
  · exact showsEach_mapM (fun s text hs htext => shows_declareConst hs htext) hsymbols hconstants
  · exact showsEach_mapM (fun f text hf htext => shows_declareFun hf htext) hfunctionNames hfunctions
  · exact .cons (shows_assert hgoal hformula) (.cons hcheck .nil)
  · exact showsEach_getValue fun s hs => (hsymbols s hs).1

/-- The lines of a script after the comment are read as the intended commands. -/
theorem tokens_lines {lines : List String} {es : List SExpr} (h : ShowsEach es lines) :
    tokens .between ("\n".intercalate (lines ++ [""])).toList = SExpr.tokensAll es := by
  have hempty : Shows [] "" := fun rest _ => rfl
  have hlines : List.Forall₂ Shows (es.map SExpr.tokens ++ [[]]) (lines ++ [""]) :=
    List.rel_append (List.forall₂_map_left_iff.2 h) (.cons hempty .nil)
  have hsep : "\n".toList = ['\n'] := by decide
  have hread := tokens_intercalate hsep (by decide) hlines ends_nil
  rw [List.append_nil, tokens, Solver.finish, List.append_nil] at hread
  rw [hread, SExpr.tokensAll_eq_flatten]
  simp

end

/-! ## The comment -/

/-- A text has one line, or a first line and later ones. -/
theorem toList_eq_firstLine (text : String) :
    '\n' ∉ text.toList ∧ laterLines text = "" ∨
      ∃ line, '\n' ∉ line ∧ text.toList = line ++ '\n' :: (laterLines text).toList := by
  have hdrop : ∀ line rest : List Char, '\n' ∉ line →
      (line ++ rest).dropWhile (· ≠ '\n') = rest.dropWhile (· ≠ '\n') := fun line rest hline =>
    List.dropWhile_append_of_pos fun c hc => by simpa using fun heq : c = '\n' => hline (heq ▸ hc)
  by_cases h : '\n' ∈ text.toList
  · obtain ⟨line, later, htext, hline⟩ := List.eq_append_cons_of_mem h
    refine .inr ⟨line, hline, ?_⟩
    rw [laterLines, htext, hdrop line _ hline]
    simp
  · refine .inl ⟨h, ?_⟩
    have hrest := hdrop text.toList [] h
    rw [List.append_nil] at hrest
    rw [laterLines, hrest]
    rfl

/-- Of a name in a comment its later lines are read. -/
theorem assemble_tokens_comment {text : String} {rest : List Char} {xs es : List SExpr}
    (htext : readAll (laterLines text) = .ok xs) (hrest : tokens .between rest = SExpr.tokensAll es) :
    assemble [] [] (tokens .comment (text.toList ++ '\n' :: rest)) = .ok (xs ++ es) := by
  rcases toList_eq_firstLine text with ⟨hline, hlater⟩ | ⟨line, hline, hlater⟩
  · rw [hlater] at htext
    cases htext
    have hes := assemble_tokensAll [] [] [] es
    rw [List.append_nil, List.append_nil] at hes
    rw [tokens_comment hline, hrest, hes]
    simp [assemble]
  · rw [hlater, List.append_assoc, List.cons_append, tokens_comment hline]
    exact assemble_tokens_append_newline htext hrest

/-! ## The script -/

section

variable {l : Lexicon} {vc : VerificationCondition} {timeout : Option Nat} {text : String}
  {xs : List SExpr}

/-- If no name has a bar, a script is read as what the later lines of the condition's name are read
as, and then the intended commands. -/
theorem readAll_script (h : script l vc timeout = .ok text)
    (hlater : readAll (laterLines vc.name.text) = .ok xs)
    (hnames : ∀ n ∈ scriptNames vc, '|' ∉ n.text.toList) :
    readAll text = .ok (xs ++ commands l vc timeout) := by
  obtain ⟨lines, rfl, hlines⟩ := exists_lines h
  have hbody := tokens_lines (hlines hnames)
  have hcomment : tokens .between
      ("\n".intercalate (("; " ++ vc.name.text) :: (lines ++ [""]))).toList =
        tokens .comment (vc.name.text.toList ++ '\n' ::
          ("\n".intercalate (lines ++ [""])).toList) := by
    rw [String.intercalate_cons_of_ne_nil (by simp)]
    simp only [String.toList_append, List.append_assoc]
    rfl
  rw [readAll, hcomment]
  exact assemble_tokens_comment hlater hbody

/-- Each name of a script is an atom of an intended command. -/
theorem exists_mem_commands {n : Name} (hn : n ∈ scriptNames vc) :
    ∃ e ∈ commands l vc timeout, n.text ∈ e.atoms := by
  simp only [scriptNames, List.mem_append] at hn
  -- A name is a symbol, a function, a sort of a declaration, or occurs in the formula.
  rcases hn with ((hn | hn) | hn) | hn
  · obtain ⟨s, hs, rfl⟩ := List.mem_map.1 hn
    have hmem : declareConst s ∈ vc.symbols.map declareConst := List.mem_map_of_mem hs
    refine ⟨declareConst s, ?_, ?_⟩
    · simp only [commands, List.mem_append, hmem, true_or, or_true]
    · simp [declareConst, SExpr.atoms, SExpr.atomsAll]
  · obtain ⟨f, hf, rfl⟩ := List.mem_map.1 hn
    have hmem : declareFun f ∈ vc.functions.map declareFun := List.mem_map_of_mem hf
    refine ⟨declareFun f, ?_, ?_⟩
    · simp only [commands, List.mem_append, hmem, true_or, or_true]
    · simp [declareFun, SExpr.atoms, SExpr.atomsAll]
  · have hmem : declareSort n ∈
        (l.sortedSet ((declarationTypes vc).flatMap declaredTypes)).map declareSort :=
      List.mem_map_of_mem (Lexicon.mem_sortedSet.2 hn)
    refine ⟨declareSort n, ?_, ?_⟩
    · simp only [commands, List.mem_append, hmem, true_or, or_true]
    · simp [declareSort, SExpr.atoms, SExpr.atomsAll]
  · refine ⟨.list [.atom "assert", .list [.atom "not", termExpr vc.formula]], ?_, ?_⟩
    · simp only [commands, List.mem_append, List.mem_cons, true_or, or_true]
    · simp [SExpr.atoms, SExpr.atomsAll, mem_atoms_termExpr hn]

/-- A script is read as exactly the intended commands if and only if no name that it writes has a
bar and the lines of the condition's name after the first, which are no part of the comment, are
read as nothing. -/
theorem readAll_script_iff (h : script l vc timeout = .ok text)
    (hlater : readAll (laterLines vc.name.text) = .ok xs) :
    readAll text = .ok (commands l vc timeout) ↔
      xs = [] ∧ ∀ n ∈ scriptNames vc, '|' ∉ n.text.toList := by
  constructor
  · intro hread
    have hnames : ∀ n ∈ scriptNames vc, '|' ∉ n.text.toList := fun n hn => by
      obtain ⟨e, he, hatom⟩ := exists_mem_commands hn
      exact barFree_of_readAll hread e he _ hatom
    have hcommands := Except.ok.inj ((readAll_script h hlater hnames).symm.trans hread)
    exact ⟨List.append_left_eq_self.1 hcommands, hnames⟩
  · rintro ⟨rfl, hnames⟩
    exact readAll_script h hlater hnames

end

/-- A condition on a number, under a given name. -/
def numberCondition (name : Name) : VerificationCondition where
  name := name
  formula := .binary .le (.int (-1)) (.symbol ⟨"x y"⟩)
  symbols := [(⟨"x y"⟩, .int)]
  functions := []
  blockVariables := []

/-- The lines of its script after the comment. -/
def numberLines : List String :=
  ["(set-option :produce-models true)", "(declare-const |x y| Int)",
    "(assert (not (<= (- 1) |x y|)))", "(check-sat)", "(get-value (|x y|))",
    "(get-info :reason-unknown)", ""]

theorem script_numberCondition (name : Name) :
    script .initial (numberCondition name) none =
      .ok ("\n".intercalate (("; " ++ name.text) :: numberLines)) := by
  have hsymbol : symbolText ⟨"x y"⟩ = "|x y|" := by decide
  have hone : numeralText (-1) = "(- 1)" := by decide
  have hconst : listText ["declare-const", "|x y|", "Int"] = "(declare-const |x y| Int)" := by decide
  have hassert : listText ["assert", listText ["not", listText ["<=", "(- 1)", "|x y|"]]] =
      "(assert (not (<= (- 1) |x y|)))" := by decide
  have hvalue : listText ["get-value", listText ["|x y|"]] = "(get-value (|x y|))" := by decide
  have hgoal : termText (numberCondition name).formula =
      .ok (listText ["<=", "(- 1)", "|x y|"]) := by
    simp [numberCondition, Expr.int, termText, hsymbol, hone, operatorText, bind, Except.bind, pure,
      Except.pure]
  have hconstants : ((numberCondition name).symbols.mapM fun (n, ty) => do
      let s ← sortText ty
      return listText ["declare-const", symbolText n, s]) = .ok ["(declare-const |x y| Int)"] := by
    simp [numberCondition, sortText, hsymbol, hconst, bind, Except.bind, pure, Except.pure]
  -- No declaration is of a declared type, so no sort is declared.
  have hsorts : Lexicon.initial.sortedSet
      ((declarationTypes (numberCondition name)).flatMap declaredTypes) = [] := by
    simp [numberCondition, declarationTypes, declaredTypes, Lexicon.sortedSet, Lexicon.sort]
  refine bind_eq_ok.2 ⟨_, hconstants, bind_eq_ok.2 ⟨[], rfl, bind_eq_ok.2 ⟨_, hgoal, ?_⟩⟩⟩
  simp only [hsorts, hassert]
  have hvalues : (if (numberCondition name).symbols.isEmpty then []
      else [listText ["get-value", listText ((numberCondition name).symbols.map fun (n, _) =>
        symbolText n)]]) = ["(get-value (|x y|))"] := by
    simp [numberCondition, hsymbol, hvalue]
  rw [hvalues]
  rfl

theorem readAll_script_iff_number :
    let text := "\n".intercalate ("; P" :: numberLines)
    script .initial (numberCondition ⟨"P"⟩) none = .ok text ∧ readAll (laterLines "P") = .ok [] ∧
      (readAll text = .ok (commands .initial (numberCondition ⟨"P"⟩) none) ↔
        ([] : List SExpr) = [] ∧
          ∀ n ∈ scriptNames (numberCondition ⟨"P"⟩), '|' ∉ n.text.toList) := by
  have hscript := script_numberCondition ⟨"P"⟩
  have hlater : readAll (laterLines "P") = .ok [] := by rfl
  exact ⟨hscript, hlater, readAll_script_iff hscript hlater⟩

/-- The second line of a condition's name is read as a command. -/
theorem readAll_script_escaping :
    let text := "\n".intercalate ("; P\n(exit)" :: numberLines)
    script .initial (numberCondition ⟨"P\n(exit)"⟩) none = .ok text ∧
      readAll text ≠ .ok (commands .initial (numberCondition ⟨"P\n(exit)"⟩) none) := by
  have hscript := script_numberCondition ⟨"P\n(exit)"⟩
  have hlater : readAll (laterLines "P\n(exit)") = .ok [.list [.atom "exit"]] := by rfl
  have hnames : ∀ n ∈ scriptNames (numberCondition ⟨"P\n(exit)"⟩), '|' ∉ n.text.toList := by decide
  refine ⟨hscript, fun hread => ?_⟩
  have hcommands := Except.ok.inj ((readAll_script hscript hlater hnames).symm.trans hread)
  exact absurd (List.append_left_eq_self.1 hcommands) (List.cons_ne_nil _ _)

end Obligations.Solver
