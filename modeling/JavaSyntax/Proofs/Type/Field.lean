import JavaSyntax.Proofs.Parse.Enclosed
import JavaSyntax.Proofs.Type.Writable

namespace JavaSyntax

open Word

namespace Grammar

open Step

variable {t o s : Token} {r rest : List Token} {qs : List Piece}

/-- A field of any type, without a value. -/
theorem makes_declaredField (ht : startsType t.kind = true) (ho : o.kind = .ident)
    (hs : s.kind = .semicolon) (htyped : (type false (t :: r)).toStep.Makes qs (o :: s :: rest)) :
    (member t r).Makes
      [.node .fieldDeclaration (.node .modifierList [] :: qs ++
        [.node .variableDeclarator [.node .variableDeclaratorId [.token o true]], .token s false])]
      rest := by
  have hvalue : (initializer (s :: rest)).Makes [] (s :: rest) := by
    rw [initializer, if_neg (by rw [hs]; decide)]
    exact makes_idle _
  have hresult : (resultType (t :: r)).Makes qs (o :: s :: rest) := by
    rw [resultType, if_neg (ne_voidKw_of_startsType ht)]
    exact htyped
  have hahead : ahead (s :: rest) ≠ .leftParen := fun hk => by cases hs.symm.trans hk
  exact makes_member (.inl ht) hresult (makes_fieldTail ho hs hahead hvalue _)

end Grammar

/-- A file whose class `A` has one field `x` of this type. -/
def Branch.fileOfField (type : Branch) : Branch :=
  .bare .compilationUnit none [.bare .classDeclaration (some "A")
    [.bare .modifierList none [], .bare .classBody none [.bare .fieldDeclaration none
      [.bare .modifierList none [], type,
        .bare .variableDeclarator none [.bare .variableDeclaratorId (some "x") []]]]]]

/-- The text of such a file. -/
def TypeInfo.fieldText (w : TypeInfo) : String := "class A \x7b " ++ w.written ++ " x; \x7d"

/-- A file that is read as these pieces, without its places. -/
theorem exists_unplaced_of_makes {text : String} {ts : List Token} {parts : List Piece}
    (htokens : significantTokens text = ts) (h : (Grammar.classDeclarations ts).Makes parts []) :
    ∃ p, parse text = .ok p ∧ p.errors = [] ∧ p.tree.root.unplaced =
      .bare .compilationUnit (Piece.joined (Piece.imageTexts parts)) (Piece.shapes parts) := by
  refine ⟨_, parse_of_makes htokens h, rfl, ?_⟩
  change (Piece.tree .compilationUnit parts).disambiguated.unplaced = _
  rw [Piece.unplaced_disambiguated, Branch.settleFirst_bare rfl]

/-- The shape of such a file, whatever pieces the type is made of. -/
theorem Branch.shapes_fileOfField {c n b o e u : Token} {qs : List Piece} {type : Branch}
    (hn : n.text = "A") (ho : o.text = "x") (htype : Grammar.Stands qs type) :
    Branch.bare .compilationUnit none (Piece.shapes [.node .classDeclaration
      [.node .modifierList [], .token c false, .token n true, .node .classBody (.token b false ::
        ([.node .fieldDeclaration (.node .modifierList [] :: qs ++
          [.node .variableDeclarator [.node .variableDeclaratorId [.token o true]],
            .token e false])] ++ [.token u false]))]]) = fileOfField type := by
  simp (disch := decide) [Piece.shapes, Piece.shape_node, Piece.shape.eq_1, Piece.shapes_append,
    Piece.imageTexts, Piece.imageTexts_append, Piece.joined, htype.texts, htype.shapes, hn, ho,
    fileOfField]

namespace TypeSyntax

/-- The words of the file. -/
def fieldWords (s : TypeSyntax) : List Word :=
  ⟨.classKw, "class"⟩ :: ⟨.ident, "A"⟩ :: ⟨.leftBrace, "\x7b"⟩ ::
    (s.words ++ [⟨.ident, "x"⟩, ⟨.semicolon, ";"⟩, ⟨.rightBrace, "\x7d"⟩])

variable {s : TypeSyntax} {w : TypeInfo}

theorem Writes.spelled (h : s.Writes w) :
    Word.Spelled s.fieldWords (significantTokens w.fieldText) := by
  have hclass : Lexeme.Names .classKw "class" := .of_isLetters rfl rfl
  have hA : Lexeme.Names .ident "A" := .of_isLetters rfl rfl
  have hx : Lexeme.Names .ident "x" := .of_isLetters rfl rfl
  have hclosed := (Glued.nil.sign (w := ⟨.rightBrace, "\x7d"⟩) (by simp)).space.sign
    (w := ⟨.semicolon, ";"⟩) (by simp)
  have hmember := h.glued (Glued.word (ends_of_names hx (fun d hd => by cases hd; rfl)) hclosed).space
    ⟨fun d hd => by cases hd; rfl, by simp⟩
  have hbody := hmember.space.sign (w := ⟨.leftBrace, "\x7b"⟩) (by simp)
  have hall := Glued.word (ends_of_names hclass (fun d hd => by cases hd; rfl))
    (Glued.word (ends_of_names hA (fun d hd => by cases hd; rfl)) hbody.space).space
  refine Glued.spelled ?_
  simpa [TypeInfo.fieldText, fieldWords] using hall

/-- Such a file is read without an error. -/
theorem Writes.parse_field (h : s.Writes w) : ∃ p, parse w.fieldText = .ok p ∧ p.errors = [] ∧
    p.tree.root.unplaced = Branch.fileOfField s.tree := by
  obtain ⟨c, _, htokens, hname⟩ := h.spelled.cons
  obtain ⟨n, _, rfl, hbrace⟩ := hname.cons
  obtain ⟨b, _, rfl, hmembers⟩ := hbrace.cons
  obtain ⟨ts, _, rfl, hts, hrest⟩ := hmembers.append
  obtain ⟨o, _, rfl, hsemicolon⟩ := hrest.cons
  obtain ⟨e, _, rfl, hclosed⟩ := hsemicolon.cons
  obtain ⟨u, _, rfl, hnil⟩ := hclosed.cons
  rw [hnil.nil] at htokens
  have htype := yields (r := [⟨.ident, "x", o⟩, ⟨.semicolon, ";", e⟩, ⟨.rightBrace, "\x7d", u⟩]) hts
    (endsType_of_ne (by simp))
  obtain ⟨t, r, rfl, ht⟩ := starts hts
  have hfield := Grammar.makes_declaredField ht rfl rfl ⟨rfl, htype.problems, htype.rest⟩
  have hbrace : t.kind ≠ .rightBrace := by
    intro hk
    rw [hk] at ht
    cases ht
  have hfile := Grammar.makes_classDeclarations (c := ⟨.classKw, "class", c⟩) (n := ⟨.ident, "A", n⟩)
    (b := ⟨.leftBrace, "\x7b", b⟩) rfl rfl rfl (Grammar.makes_membersTail hbrace rfl hfield)
  obtain ⟨p, hp, he, hroot⟩ := exists_unplaced_of_makes htokens hfile
  refine ⟨p, hp, he, hroot.trans ?_⟩
  exact Branch.shapes_fileOfField rfl rfl htype.stands

end TypeSyntax

end JavaSyntax
