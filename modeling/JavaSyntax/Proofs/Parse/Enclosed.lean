import JavaSyntax.Proofs.Parse.Value

namespace JavaSyntax

open Piece Grammar

variable {text : String} {k : Kind} {ps : List Piece} {x : Branch}

/-- A text on lines of its own between two others. -/
def between (front text back : String) : String := front ++ "\n" ++ text ++ "\n" ++ back

/-- The tokens of a text between two fixed ones. -/
theorem significantTokens_between {front back : String} {ts q : List Token} {n : Nat}
    (hfront : significantTokens front = ts) (hback : significantTokens back = q)
    (hsize : front.utf8ByteSize + 1 = n) (hts : ∀ t ∈ ts, t.kind ≠ .unknown)
    (hslash : '/' ∉ front.toList) (hknown : ∀ t ∈ significantTokens text, t.kind ≠ .unknown)
    (hopen : ¬ EndsInComment text) :
    significantTokens (between front text back) = ts ++ ((significantTokens text).map (Token.shift n) ++
      q.map (Token.shift n ∘ Token.shift (text.utf8ByteSize + 1))) := by
  subst hfront hback hsize
  have hassoc : between front text back = front ++ "\n" ++ (text ++ "\n" ++ back) := by
    simp only [between, String.append_assoc]
  rw [hassoc, significantTokens_newline _ hts (not_endsInComment hslash),
    significantTokens_newline back hknown hopen, List.map_append, List.map_map]

/-- A file that is read as these pieces. -/
theorem parse_of_makes {ts : List Token} {parts : List Piece} (htokens : significantTokens text = ts)
    (h : (classDeclarations ts).Makes parts []) :
    parse text = .ok ⟨.ofBranch text (tree .compilationUnit parts).disambiguated, []⟩ := by
  subst htokens
  have hproblems : (compilationUnit (significantTokens text)).problems = [] := h.problems
  have hparts : fileParts text = parts := h.parts
  rw [parse_eq, hproblems, hparts]
  rfl

namespace Branch

/-- A file with a class `A` that has one member. -/
def HasMember (root member : Branch) : Prop :=
  ∃ file declaration modifiers body : Span, root =
    ⟨.compilationUnit, none, file, [⟨.classDeclaration, some "A", declaration,
      [⟨.modifierList, none, modifiers, []⟩, ⟨.classBody, none, body, [member]⟩]⟩]⟩

/-- A file with a class that has one field, and the value of the field. -/
def HasInitializer (root value : Branch) : Prop :=
  ∃ field modifiers type declarator id : Span, root.HasMember
    ⟨.fieldDeclaration, none, field,
      [⟨.modifierList, none, modifiers, []⟩, ⟨.classType, some "Object", type, []⟩,
        ⟨.variableDeclarator, none, declarator,
          [⟨.variableDeclaratorId, some "o", id, []⟩, value]⟩]⟩

/-- A file with a class that has one method, whose block holds one statement. -/
def HasStatement (root statement : Branch) : Prop :=
  ∃ method modifiers result parameters block : Span, root.HasMember
    ⟨.methodDeclaration, some "m", method,
      [⟨.modifierList, none, modifiers, []⟩, ⟨.voidType, some "void", result, []⟩,
        ⟨.formalParameters, none, parameters, []⟩, ⟨.block, none, block, [statement]⟩]⟩

end Branch

namespace Piece

/-- The finished nodes of pieces that no gap behind them changes, with their names settled. -/
def Finish (ps : List Piece) (bs : List Branch) : Prop :=
  ∀ gap, (branches gap ps).map Branch.disambiguated = bs

variable {ps parts : List Piece} {bs cs : List Branch} {k : Kind}

theorem finish_nil : Finish [] [] := fun _ => rfl

theorem Finish.token (h : Finish ps bs) (t : Token) (i : Bool) : Finish (.token t i :: ps) bs := h

theorem Finish.cons {v : Piece} {b : Branch} (hv : ∀ gap, (v.branch gap).map Branch.disambiguated = [b])
    (hps : Finish ps bs) : Finish (v :: ps) (b :: bs) := by
  intro gap
  rw [branches, List.map_append, hv, hps gap]
  rfl

/-- A node with nodes behind it, where some of them cover a token. -/
theorem Finish.node (hk : isQualified k = false) (hparts : Finish parts cs) (hps : Finish ps bs)
    (hne : tokensOfAll (.node k parts :: ps) ≠ []) :
    ∃ span, Finish (.node k parts :: ps) (⟨k, payload none parts, span, cs⟩ :: bs) := by
  refine ⟨(cover parts).getD (.empty ((firstStart (tokensOfAll ps)).getD 0)), fun gap => ?_⟩
  have hspan : (cover parts).getD (.empty ((firstStart (tokensOfAll ps)).getD gap)) =
      (cover parts).getD (.empty ((firstStart (tokensOfAll ps)).getD 0)) := by
    cases hcover : cover parts with
    | some span => rfl
    | none =>
      cases hfirst : tokensOfAll ps with
      | cons t ts => rfl
      | nil =>
        rw [tokensOfAll, hfirst] at hne
        exact absurd (List.append_eq_nil_iff.mpr ⟨cover_eq_none.mp hcover, rfl⟩) hne
  rw [branches, branch, List.map_append, hps gap, hspan, List.map_singleton,
    Branch.disambiguated_mk hk, hparts]
  rfl

/-- A node with tokens of its own. -/
theorem Finish.node_token (hk : isQualified k = false) {t : Token} {i : Bool}
    (hparts : Finish (.token t i :: parts) cs) (hps : Finish ps bs) :
    ∃ span, Finish (.node k (.token t i :: parts) :: ps)
      (⟨k, payload none (.token t i :: parts), span, cs⟩ :: bs) :=
  hparts.node hk hps (List.cons_ne_nil _ _)

theorem Finish.tree (hk : isQualified k = false) (hparts : Finish parts cs) :
    ∃ span, (Piece.tree k parts).disambiguated = ⟨k, payload none parts, span, cs⟩ := by
  rw [Piece.tree, Branch.disambiguated_mk hk, hparts]
  exact ⟨_, rfl⟩

end Piece

theorem hasMember_tree {c n l u : Token} {m : Kind} {qs : List Piece} {member : Branch}
    (hn : n.text = "A") (h : Finish [.node m qs, .token u false] [member]) :
    (tree .compilationUnit [.node .classDeclaration [.node .modifierList [], .token c false,
      .token n true, .node .classBody [.token l false, .node m qs, .token u false]]]).disambiguated.HasMember
        member := by
  obtain ⟨body, hbody⟩ := (h.token l false).node_token (k := .classBody) rfl finish_nil
  obtain ⟨modifiers, hmodifiers⟩ := finish_nil.node (k := .modifierList) rfl
    ((hbody.token n true).token c false) (List.cons_ne_nil _ _)
  obtain ⟨declaration, hdeclaration⟩ := hmodifiers.node (k := .classDeclaration) rfl finish_nil
    (List.cons_ne_nil _ _)
  obtain ⟨file, hfile⟩ := hdeclaration.tree (k := .compilationUnit) rfl
  simp only [payload, hn, Option.getD_none, String.empty_append] at hfile
  exact ⟨file, declaration, modifiers, body, hfile⟩

theorem hasInitializer_tree {c n l u t o q s : Token} (hn : n.text = "A") (ht : t.text = "Object")
    (ho : o.text = "o") (hx : ∀ gap, ((Piece.node k ps).branch gap).map Branch.disambiguated = [x]) :
    (tree .compilationUnit [.node .classDeclaration [.node .modifierList [], .token c false,
      .token n true, .node .classBody [.token l false, .node .fieldDeclaration
        [.node .modifierList [], .node .classType [.token t true],
          .node .variableDeclarator [.node .variableDeclaratorId [.token o true], .token q false, .node k ps],
          .token s false], .token u false]]]).disambiguated.HasInitializer x := by
  obtain ⟨id, hid⟩ := (finish_nil.token o true).node_token (k := .variableDeclaratorId) rfl
    ((finish_nil.cons hx).token q false)
  obtain ⟨declarator, hdeclarator⟩ := hid.node (k := .variableDeclarator) rfl
    (finish_nil.token s false) (List.cons_ne_nil _ _)
  obtain ⟨type, htype⟩ := (finish_nil.token t true).node_token (k := .classType) rfl hdeclarator
  obtain ⟨modifiers, hmodifiers⟩ := finish_nil.node (k := .modifierList) rfl htype
    (List.cons_ne_nil _ _)
  obtain ⟨field, hfield⟩ := hmodifiers.node (k := .fieldDeclaration) rfl (finish_nil.token u false)
    (List.cons_ne_nil _ _)
  simp only [payload, ht, ho, Option.getD_none, String.empty_append] at hfield
  exact ⟨field, modifiers, type, declarator, id, hasMember_tree hn hfield⟩

theorem hasStatement_tree {c n l u t m p q b e : Token} {k : Kind} {ps : List Piece}
    {statement : Branch} (hn : n.text = "A") (ht : t.text = "void") (hm : m.text = "m")
    (h : Finish [.node k ps, .token e false] [statement]) :
    (tree .compilationUnit [.node .classDeclaration [.node .modifierList [], .token c false,
      .token n true, .node .classBody [.token l false, .node .methodDeclaration
        [.node .modifierList [], .node .voidType [.token t true], .token m true,
          .node .formalParameters [.token p false, .token q false],
          .node .block [.token b false, .node k ps, .token e false]],
        .token u false]]]).disambiguated.HasStatement statement := by
  obtain ⟨block, hblock⟩ := (h.token b false).node_token (k := .block) rfl finish_nil
  obtain ⟨parameters, hparameters⟩ := ((finish_nil.token q false).token p false).node_token
    (k := .formalParameters) rfl hblock
  obtain ⟨result, hresult⟩ := (finish_nil.token t true).node_token (k := .voidType) rfl
    (hparameters.token m true)
  obtain ⟨modifiers, hmodifiers⟩ := finish_nil.node (k := .modifierList) rfl hresult
    (List.cons_ne_nil _ _)
  obtain ⟨method, hmethod⟩ := hmodifiers.node (k := .methodDeclaration) rfl (finish_nil.token u false)
    (List.cons_ne_nil _ _)
  simp only [payload, ht, hm, Option.getD_none, String.empty_append] at hmethod
  exact ⟨method, modifiers, result, parameters, block, hasMember_tree hn hmethod⟩

/-- A file whose tokens are those of a method around a statement. -/
theorem parse_statement {t u w : Token} {r : List Token} {b : Branch}
    (htokens : significantTokens text =
      [⟨.classKw, "class", 0⟩, ⟨.ident, "A", 6⟩, ⟨.leftBrace, "\x7b", 8⟩, ⟨.voidKw, "void", 10⟩,
        ⟨.ident, "m", 15⟩, ⟨.leftParen, "(", 16⟩, ⟨.rightParen, ")", 17⟩, ⟨.leftBrace, "\x7b", 19⟩] ++
        t :: r)
    (ht : t.kind ≠ .rightBrace) (hu : u.kind = .rightBrace) (hw : w.kind = .rightBrace)
    (h : (statement t r).Makes [.node k ps] [u, w]) (hb : Finish [.node k ps, .token u false] [b]) :
    ∃ p, parse text = .ok p ∧ p.errors = [] ∧ p.tree.root.HasStatement b := by
  have hmember := makes_method (t := ⟨.voidKw, "void", 10⟩) (n := ⟨.ident, "m", 15⟩)
    (l := ⟨.leftParen, "(", 16⟩) (p := ⟨.rightParen, ")", 17⟩) (b := ⟨.leftBrace, "\x7b", 19⟩)
    rfl rfl rfl rfl rfl (makes_blockTail ht hu h)
  have hclass := makes_classDeclarations (c := ⟨.classKw, "class", 0⟩) (n := ⟨.ident, "A", 6⟩)
    (b := ⟨.leftBrace, "\x7b", 8⟩) rfl rfl rfl (makes_membersTail (by decide) hw hmember)
  exact ⟨_, parse_of_makes htokens hclass, rfl, hasStatement_tree rfl rfl rfl hb⟩

/-- As the value of a field. -/
theorem parse_field (h : IsValue text k ps x)
    (hknown : ∀ t ∈ significantTokens text, t.kind ≠ .unknown) (hopen : ¬ EndsInComment text) :
    ∃ p, parse (between "class A \x7b Object o =" text "; \x7d") = .ok p ∧ p.errors = [] ∧
      p.tree.root.HasInitializer (x.shift 21) := by
  obtain ⟨s, u, hs, hu, htokens⟩ : ∃ s u : Token, s.kind = .semicolon ∧ u.kind = .rightBrace ∧
      significantTokens (between "class A \x7b Object o =" text "; \x7d") =
        [⟨.classKw, "class", 0⟩, ⟨.ident, "A", 6⟩, ⟨.leftBrace, "\x7b", 8⟩, ⟨.ident, "Object", 10⟩,
          ⟨.ident, "o", 17⟩, ⟨.eq, "=", 19⟩] ++
          ((significantTokens text).map (Token.shift 21) ++ [s, u]) :=
    ⟨_, _, by rfl, by rfl, significantTokens_between
      (q := [⟨.semicolon, ";", 0⟩, ⟨.rightBrace, "\x7d", 2⟩]) (by decide +kernel) (by decide +kernel)
      (by decide) (by decide) (by decide) hknown hopen⟩
  have hend : isEnd (ahead [s, u]) = true := by
    rw [ahead, hs]
    rfl
  have hmember := makes_field (t := ⟨.ident, "Object", 10⟩) (o := ⟨.ident, "o", 17⟩)
    (q := ⟨.eq, "=", 19⟩) rfl rfl rfl hs (h.makes_moved 21 hend)
  have hclass := makes_classDeclarations (c := ⟨.classKw, "class", 0⟩) (n := ⟨.ident, "A", 6⟩)
    (b := ⟨.leftBrace, "\x7b", 8⟩) rfl rfl rfl (makes_membersTail (by decide) hu hmember)
  exact ⟨_, parse_of_makes htokens hclass, rfl,
    hasInitializer_tree rfl rfl rfl (h.branch_moved 21)⟩

/-- As the operand of `return`. -/
theorem parse_return (h : IsValue text k ps x)
    (hknown : ∀ t ∈ significantTokens text, t.kind ≠ .unknown) (hopen : ¬ EndsInComment text) :
    ∃ p, parse (between "class A \x7b void m() \x7b return" text "; \x7d \x7d") = .ok p ∧
      p.errors = [] ∧
      ∃ span, p.tree.root.HasStatement ⟨.returnStatement, none, span, [x.shift 28]⟩ := by
  obtain ⟨s, u, w, hs, hu, hw, htokens⟩ : ∃ s u w : Token,
      s.kind = .semicolon ∧ u.kind = .rightBrace ∧ w.kind = .rightBrace ∧
      significantTokens (between "class A \x7b void m() \x7b return" text "; \x7d \x7d") =
        [⟨.classKw, "class", 0⟩, ⟨.ident, "A", 6⟩, ⟨.leftBrace, "\x7b", 8⟩, ⟨.voidKw, "void", 10⟩,
          ⟨.ident, "m", 15⟩, ⟨.leftParen, "(", 16⟩, ⟨.rightParen, ")", 17⟩, ⟨.leftBrace, "\x7b", 19⟩,
          ⟨.returnKw, "return", 21⟩] ++
          ((significantTokens text).map (Token.shift 28) ++ [s, u, w]) :=
    ⟨_, _, _, by rfl, by rfl, by rfl, significantTokens_between
      (q := [⟨.semicolon, ";", 0⟩, ⟨.rightBrace, "\x7d", 2⟩, ⟨.rightBrace, "\x7d", 4⟩])
      (by decide +kernel) (by decide +kernel) (by decide) (by decide) (by decide) hknown hopen⟩
  have hend : isEnd (ahead [s, u, w]) = true := by
    rw [ahead, hs]
    rfl
  have hne : ahead ((significantTokens text).map (Token.shift 28) ++ [s, u, w]) ≠ .semicolon := by
    intro hsemicolon
    have hstarts := h.starts
    rw [← h.ahead_moved 28 [s, u, w], hsemicolon] at hstarts
    cases hstarts
  have hstatement := makes_return (t := ⟨.returnKw, "return", 21⟩) rfl hs hne (h.makes_moved 28 hend)
  obtain ⟨span, hfinish⟩ := (((finish_nil.token s false).cons (h.branch_moved 28)).token
    ⟨.returnKw, "return", 21⟩ false).node_token (k := .returnStatement) rfl (finish_nil.token u false)
  obtain ⟨p, hp, he, hroot⟩ := parse_statement htokens (by decide) hu hw hstatement hfinish
  exact ⟨p, hp, he, span, hroot⟩

/-- An expression without errors is the same value in a field and behind `return`. -/
theorem parse_value {p : Parse} (hp : parseExpression text = .ok p) (he : p.errors = [])
    (hopen : ¬ EndsInComment text) : ∃ x, p.tree.root.children = [x] ∧
      (∃ q, parse (between "class A \x7b Object o =" text "; \x7d") = .ok q ∧ q.errors = [] ∧
        q.tree.root.HasInitializer (x.shift 21)) ∧
      ∃ q, parse (between "class A \x7b void m() \x7b return" text "; \x7d \x7d") = .ok q ∧
        q.errors = [] ∧
        ∃ span, q.tree.root.HasStatement ⟨.returnStatement, none, span, [x.shift 28]⟩ := by
  obtain ⟨k, ps, x, hvalue, hx⟩ := exists_isValue hp he
  have hknown := known_of_no_errors (.inr hp) he
  exact ⟨x, hx, parse_field hvalue hknown hopen, parse_return hvalue hknown hopen⟩

/-- A sum with a call in it. -/
theorem parse_value_sum :
    let text := "a + b.f(c)"
    ∃ p, parseExpression text = .ok p ∧ p.errors = [] ∧ ¬ EndsInComment text ∧
      ∃ x, p.tree.root.children = [x] ∧
        (∃ q, parse (between "class A \x7b Object o =" text "; \x7d") = .ok q ∧ q.errors = [] ∧
          q.tree.root.HasInitializer (x.shift 21)) ∧
        ∃ q, parse (between "class A \x7b void m() \x7b return" text "; \x7d \x7d") = .ok q ∧
          q.errors = [] ∧
          ∃ span, q.tree.root.HasStatement ⟨.returnStatement, none, span, [x.shift 28]⟩ := by
  intro text
  have hproblems : (loneExpression (significantTokens text)).problems = [] := by decide +kernel
  have herrors : (loneExpression (significantTokens text)).problems.map
      (Problem.diagnostic text) = [] := List.map_eq_nil_iff.mpr hproblems
  have hopen : ¬ EndsInComment text := not_endsInComment (by decide +kernel)
  exact ⟨_, parseExpression_eq text, herrors, hopen,
    parse_value (parseExpression_eq text) herrors hopen⟩

end JavaSyntax
