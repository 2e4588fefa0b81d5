import JavaSyntax.Proofs.Grammar.Surroundings

namespace JavaSyntax.Grammar

open Step
open Piece (imageTexts shapes joined)

variable {ts us r m : List Token} {xs : List String} {b c d : Branch} {bs cs : List Branch}

namespace Step

theorem Yields.makes {s : Step ts} (h : s.Yields xs bs r) : s.Makes s.parts r :=
  ⟨rfl, h.problems, h.rest⟩

theorem Makes.yields {s : Step ts} {ps : List Piece} (h : s.Makes ps r) :
    s.Yields (imageTexts ps) (shapes ps) r :=
  ⟨congrArg _ h.parts, congrArg _ h.parts, h.problems, h.rest⟩

end Step

theorem UpToBrace.yields_item {rule : (ts : List Token) → Step ts}
    {item : (t : Token) → (r : List Token) → Step r} (h : UpToBrace rule item) {t : Token}
    (ht : t.kind ≠ .rightBrace) (hitem : (item t r).Yields [] bs m) (hmore : (rule m).Yields [] cs us) :
    (rule (t :: r)).Yields [] (bs ++ cs) us := by
  have hall := (h.makes_item ht hitem.makes hmore.makes).yields
  rw [Piece.imageTexts_append, Piece.shapes_append, hitem.texts, hitem.shapes, hmore.texts,
    hmore.shapes] at hall
  exact hall

/-- Statements that the kinds of their tokens make clean are so in front of anything. -/
theorem makes_blockTail_of_kinds (hs : (blockTail (tokensOf (ts.map Token.kind))).problems = [])
    (hrest : (blockTail (tokensOf (ts.map Token.kind))).rest = []) (r : List Token) :
    (blockTail (ts ++ r)).Makes (blockTail ts).parts r := by
  obtain ⟨f, hf, hts⟩ := exists_map_tokensOf ts
  obtain ⟨ps, o, hps, ho⟩ := upToBrace_blockTail.exists_brace (fun _ => reads_statement outside) hs
  rw [hrest] at hps
  have alone := local_blockTail (ends_nil hf) (alongside_map f (tokensOf (ts.map Token.kind)))
    (.inl ⟨rfl, rfl⟩)
  rw [← hts] at alone
  have hbehind : Alongside f [o] (f o :: r) (tokensOf (ts.map Token.kind)) (ts ++ r) := by
    have h := alongside_append f ps [o] (f o :: r)
    rwa [← hps, List.append_cons, ← List.map_singleton, ← List.map_append, ← hps, ← hts] at h
  have along := upToBrace_blockTail.along hf (fun hz t h => local_statement hz t h) ho hbehind hs hrest
  refine ⟨along.parts.trans alone.parts.symm, ?_, along.rest.eq_of_eq hrest⟩
  rw [along.problems, hs, List.map_nil]

theorem yields_variableId {t : Token} (ht : t.kind = .ident) (r : List Token) :
    (variableId (t :: r)).Yields [] [.bare .variableDeclaratorId (some t.text) []] r := by
  rw [variableId, if_pos ht]
  exact (yields_bump_true t r).bare rfl

/-- Keywords as modifiers. -/
theorem yields_modifiers (hr : startsModifier (ahead r) = false) : ∀ {ms : List Token},
    (∀ m ∈ ms, modifierKeywords.contains m.kind = true) →
      (modifiers (ms ++ r)).Yields [] (ms.map fun m => .bare .modifier (some m.text) []) r
  | [], _ => by
    cases r with
    | nil =>
      rw [List.nil_append, modifiers]
      exact yields_idle []
    | cons t r =>
      obtain ⟨hkeyword, hat⟩ := Bool.or_eq_false_iff.mp hr
      have hno : ¬ modifierKeywords.contains t.kind = true := Bool.eq_false_iff.mp hkeyword
      have hne : ¬ t.kind = .at := ne_of_beq_false hat
      rw [List.nil_append, modifiers, if_neg hno, if_neg hne]
      exact yields_idle _
  | m :: ms, hms => by
    obtain ⟨hm, hms⟩ := List.forall_mem_cons.mp hms
    rw [List.cons_append, modifiers, if_pos hm]
    exact ((yields_bump_true m _).bare rfl).andThen (f := modifiers) (yields_modifiers hr hms)

theorem yields_modifierList {ms : List Token} (hms : ∀ m ∈ ms, modifierKeywords.contains m.kind = true)
    (hr : startsModifier (ahead r) = false) : (modifierList (ms ++ r)).Yields []
      [.bare .modifierList none (ms.map fun m => .bare .modifier (some m.text) [])] r :=
  (yields_modifiers hr hms).bare rfl

section

variable {v : Bool} {t o e : Token}

theorem yields_dimensions_ident (ho : o.kind = .ident) (r : List Token) :
    (dimensions v (o :: r)).Yields [] [] (o :: r) := by
  rw [dimensions_eq_ellipsis v (by simp [ho]), ellipsis, if_neg (by simp [ho])]
  exact yields_idle _

theorem yields_dimensions_brackets {l p : Token} (hl : l.kind = .leftBracket)
    (hp : p.kind = .rightBracket) (h : (dimensions v m).Yields [] bs r) :
    (dimensions v (l :: p :: m)).Yields [] (.bare .arrayTypeDim (some (l.text ++ p.text)) [] :: bs) r := by
  have hpair := ((((yields_idle m).lead_true p).lead_true l).bare (k := .arrayTypeDim) rfl).lift p
  rw [dimensions, if_pos ⟨hl, hp⟩]
  exact (hpair.lift l).andThen h

theorem yields_dimensions_ellipsis (he : e.kind = .ellipsis) (r : List Token) :
    (dimensions true (e :: r)).Yields [] [.bare .arrayTypeDim (some e.text) []] r := by
  rw [dimensions_eq_ellipsis true (by simp [he]), ellipsis, if_pos ⟨rfl, he⟩]
  exact (yields_bump_true e r).bare rfl

/-- An element type with dimensions behind it. -/
theorem yields_arrayType {element : Operand ts} (helement : element.Yields b m)
    (hdims : (dimensions v m).Yields [] (d :: bs) r) :
    (withDimensions v element).Yields (.bare .arrayType none [b, .bare .arrayDimensions none (d :: bs)])
      r := by
  have hsome : (dimensions v element.rest).parts.isEmpty = false := by
    rw [helement.rest]
    cases hparts : (dimensions v m).parts with
    | nil =>
      have hshapes := hdims.shapes
      rw [hparts] at hshapes
      cases hshapes
    | cons p ps => rfl
  have hall := helement.toStep.andThen (f := fun us => (dimensions v us).node .arrayDimensions)
    (hdims.bare rfl)
  rw [withDimensions]
  simp only [hsome, Bool.false_eq_true, if_false]
  exact hall.foundBare rfl

theorem yields_primitiveArray (ht : primitiveKeywords.contains t.kind = true)
    (hdims : (dimensions v m).Yields [] (d :: bs) r) :
    (type v (t :: m)).Yields (.bare .arrayType none
      [.bare .primitiveType (some t.text) [], .bare .arrayDimensions none (d :: bs)]) r := by
  rw [type, if_pos ht]
  exact yields_arrayType ((yields_bump_true t m).foundBare rfl) hdims

theorem yields_classArray (ht : t.kind = .ident) (hname : EndsName m) (hlt : ahead m ≠ .lt)
    (hdims : (dimensions v m).Yields [] (d :: bs) r) :
    (type v (t :: m)).Yields (.bare .arrayType none
      [.bare .classType (some t.text) [], .bare .arrayDimensions none (d :: bs)]) r := by
  have hsegments : (qualifiedName t m).Yields [t.text] [] m := by
    rw [qualifiedName, segments_of_endsName hname]
    exact (yields_idle m).lead_true t
  have hplain : (typeArguments? m).Yields [] [] m := by
    rw [TypeSyntax.typeArguments?_of_ne hlt]
    exact yields_idle m
  have helement := (hsegments.andThen (f := typeArguments?) hplain).foundBare (k := .classType) rfl
  have hprimitive : ¬ primitiveKeywords.contains t.kind = true := by
    rw [ht]
    decide
  rw [type, if_neg hprimitive, if_pos ht, classType]
  exact yields_arrayType (helement.lift t) hdims

theorem yields_resultType (ht : startsType t.kind = true) (h : (type false (t :: r)).Yields b m) :
    (resultType (t :: r)).Yields [] [b] m := by
  rw [resultType, if_neg (ne_voidKw_of_startsType ht)]
  exact h.toStep

theorem yields_parameter {ms : List Token} (h : (type true ts).Yields b (o :: r)) (ho : o.kind = .ident)
    (hms : ∀ m ∈ ms, modifierKeywords.contains m.kind = true)
    (hts : startsModifier (ahead ts) = false) :
    (parameter (ms ++ ts)).Yields [] [.bare .formalParameter none
      [.bare .modifierList none (ms.map fun m => .bare .modifier (some m.text) []), b,
        .bare .variableDeclaratorId (some o.text) []]] r := by
  have htyped := (yields_modifierList hms hts).andThen (f := fun us => (type true us).toStep) h.toStep
  exact (htyped.andThen (f := variableId) (yields_variableId ho r)).bare rfl

theorem not_ends_of_startsParameter {k : Kind} (h : startsParameter k = true) :
    ¬ (k = .rightParen ∨ parameterRecovery.contains k = true) := by
  revert h
  cases k <;> decide +kernel

/-- A parameter and what comes after it. -/
theorem yields_parametersTail (ht : startsParameter t.kind = true)
    (h : (parameter (t :: r)).Yields [] bs m) (hmore : (parametersMore m).Yields [] cs us) :
    (parametersTail (t :: r)).Yields [] (bs ++ cs) us := by
  rw [parametersTail, if_neg (not_ends_of_startsParameter ht), dif_pos ht]
  exact ((h.within _).andThen (f := parametersMore) hmore).lift t

theorem yields_parametersMore_comma (ht : t.kind = .comma) (h : (parametersTail r).Yields [] bs us) :
    (parametersMore (t :: r)).Yields [] bs us := by
  rw [parametersMore, if_pos ht]
  exact (h.lead_false t).lift t

theorem yields_parametersMore_rightParen (ht : t.kind = .rightParen) (r : List Token) :
    (parametersMore (t :: r)).Yields [] [] r := by
  rw [parametersMore, if_neg (by simp [ht])]
  exact yields_expect ht r

end

/-- A method, with the modifiers and the type that were read before. -/
theorem yields_memberTail {n l o : Token} (hn : n.kind = .ident) (hl : l.kind = .leftParen)
    (hparameters : (parametersTail ts).Yields [] bs (o :: us)) (ho : o.kind = .leftBrace)
    (hblock : (blockTail us).Yields xs cs r) {typed : List Piece} (htexts : imageTexts typed = []) :
    (memberTail typed (n :: l :: ts)).Yields [] [.bare .methodDeclaration (some n.text)
      (shapes typed ++ [.bare .formalParameters none bs, .bare .block (joined xs) cs])] r := by
  have hbody : (methodBody (o :: us)).Yields [] [.bare .block (joined xs) cs] r := by
    rw [methodBody, if_pos ho, blockFrom]
    exact ((hblock.lead_false o).bare rfl).lift o
  have hmethod := (((hparameters.lead_false l).bare (k := .formalParameters) rfl).andThen
    (f := methodBody) hbody).lead_true n
  rw [memberTail, if_pos ⟨hn, hl⟩]
  refine ⟨rfl, ?_, hmethod.problems, hmethod.rest⟩
  simp only [Step.lift, Piece.shapes, List.append_nil]
  rw [Piece.shape_node (k := .methodDeclaration) rfl, Piece.imageTexts_append, Piece.shapes_append,
    htexts, hmethod.texts, hmethod.shapes]
  rfl

/-- A member, from its modifiers, its type and what comes after them. -/
theorem yields_member {t : Token} (ht : startsMember t.kind = true)
    (hmodifiers : (modifierList (t :: r)).Yields [] bs m) (htype : (resultType m).Yields [] cs us)
    (htail : ∀ {typed}, imageTexts typed = [] → shapes typed = bs ++ cs →
      (memberTail typed us).Yields [] [d] ts) :
    (member t r).Yields [] [d] ts := by
  have htyped := hmodifiers.andThen (f := resultType) htype
  have htail := htail htyped.texts htyped.shapes
  have hne : ¬ t.kind = .semicolon := by
    intro hk
    rw [hk] at ht
    cases ht
  have hdeclared : (declaredMember (t :: r)).Yields [] [d] ts := by
    rw [← htyped.rest] at htail
    exact ⟨htail.texts, htail.shapes, List.append_eq_nil_iff.mpr ⟨htyped.problems, htail.problems⟩,
      htail.rest⟩
  rw [member, if_neg hne, dif_pos ht]
  exact hdeclared.within _

section

variable {ms : List Token} {k n o : Token}

theorem yields_classDeclaration (hms : ∀ m ∈ ms, modifierKeywords.contains m.kind = true)
    (hk : k.kind = .classKw) (hn : n.kind = .ident) (ho : o.kind = .leftBrace)
    (h : (membersTail ts).Yields [] bs r) :
    (classDeclaration (ms ++ k :: n :: o :: ts)).Yields [] [.bare .classDeclaration (some n.text)
      [.bare .modifierList none (ms.map fun m => .bare .modifier (some m.text) []),
        .bare .classBody none bs]] r := by
  have hstart : startsModifier (ahead (k :: n :: o :: ts)) = false := by
    rw [ahead_cons, hk]
    decide
  have hname : (className (n :: o :: ts)).Yields [n.text] [] (o :: ts) := by
    rw [className, if_pos hn]
    exact yields_bump_true n _
  have hbody : (classBody (o :: ts)).Yields [] [.bare .classBody none bs] r := by
    rw [classBody, if_pos ho]
    exact ((h.lead_false o).bare rfl).lift o
  have hannounced := (yields_modifierList hms hstart).andThen (f := expect .classKw)
    (yields_expect hk _)
  have hnamed := hannounced.andThen (f := className) hname
  exact (hnamed.andThen (f := classBody) hbody).bare rfl

/-- One class, and nothing behind it. -/
theorem yields_classDeclarations (hms : ∀ m ∈ ms, modifierKeywords.contains m.kind = true)
    (hk : k.kind = .classKw) (hn : n.kind = .ident) (ho : o.kind = .leftBrace)
    (h : (membersTail ts).Yields [] bs []) :
    (classDeclarations (ms ++ k :: n :: o :: ts)).Yields [] [.bare .classDeclaration (some n.text)
      [.bare .modifierList none (ms.map fun m => .bare .modifier (some m.text) []),
        .bare .classBody none bs]] [] := by
  have hclass := yields_classDeclaration hms hk hn ho h
  have hnone : (classDeclarations []).Yields [] [] [] := by
    rw [classDeclarations]
    exact yields_idle []
  obtain ⟨t, us, hts, ht⟩ : ∃ t us, ms ++ k :: n :: o :: ts = t :: us ∧
      classStart.contains t.kind = true := by
    cases ms with
    | nil => exact ⟨k, _, rfl, contains_classStart_of_eq hk⟩
    | cons m ms =>
      have hm := hms m List.mem_cons_self
      exact ⟨m, _, rfl, by rw [contains_classStart, startsModifier, hm]; rfl⟩
  rw [hts] at hclass ⊢
  rw [classDeclarations, dif_pos ht]
  exact ((hclass.within _).andThen (f := classDeclarations) hnone).lift t

end

end JavaSyntax.Grammar
