import JavaSyntax.Proofs.Expression.Types
import JavaSyntax.Proofs.Grammar.DeclarationLocal

namespace JavaSyntax.Grammar

open Step

variable {ts r m rest : List Token} {ps qs : List Piece} {v : Piece}

/-- No problem is found, these pieces are made, and `rest` is left. -/
structure Step.Makes (s : Step ts) (parts : List Piece) (rest : List Token) : Prop where
  parts : s.parts = parts
  problems : s.problems = []
  rest : s.rest = rest

namespace Step

theorem makes_idle (ts : List Token) : (idle ts).Makes [] ts := ⟨rfl, rfl, rfl⟩

theorem Makes.lead {s : Step r} (h : s.Makes ps rest) (i : Bool) (t : Token) :
    (s.lead i t).Makes (.token t i :: ps) rest :=
  ⟨congrArg (Piece.token t i :: ·) h.parts, h.problems, h.rest⟩

theorem Makes.lift {s : Step r} (h : s.Makes ps rest) (t : Token) : (s.lift t).Makes ps rest :=
  ⟨h.parts, h.problems, h.rest⟩

theorem Makes.within {s : Step ts} (h : s.Makes ps rest) (hr : s.rest.length ≤ r.length) :
    (s.within r hr).Makes ps rest :=
  ⟨h.parts, h.problems, h.rest⟩

theorem makes_bump (i : Bool) (t : Token) (r : List Token) : (bump i t r).Makes [.token t i] r :=
  ((makes_idle r).lead i t).lift t

theorem Makes.andThen {s : Step ts} (h : s.Makes ps m) {f : (us : List Token) → Step us}
    (hf : (f m).Makes qs rest) : (s.andThen (f s.rest)).Makes (ps ++ qs) rest := by
  rw [← h.rest] at hf
  refine ⟨?_, List.append_eq_nil_iff.mpr ⟨h.problems, hf.problems⟩, hf.rest⟩
  rw [Step.andThen, h.parts, hf.parts]

theorem Makes.node {s : Step ts} (h : s.Makes ps rest) (k : Kind) :
    (s.node k).Makes [.node k ps] rest :=
  ⟨congrArg (fun parts => [Piece.node k parts]) h.parts, h.problems, h.rest⟩

theorem makes_expect {t : Token} {k : Kind} (ht : t.kind = k) (r : List Token) :
    (expect k (t :: r)).Makes [.token t false] r := by
  rw [expect, if_pos ht]
  exact makes_bump false t r

/-- This is the first problem that is found. -/
def Reports (e : Problem) (s : Step ts) : Prop := ∃ es, s.problems = e :: es

variable {e : Problem}

theorem Reports.lead {s : Step r} (h : s.Reports e) (i : Bool) (t : Token) : (s.lead i t).Reports e := h

theorem Reports.lift {s : Step r} (h : s.Reports e) (t : Token) : (s.lift t).Reports e := h

theorem Reports.within {s : Step ts} (h : s.Reports e) (hr : s.rest.length ≤ r.length) :
    (s.within r hr).Reports e := h

theorem Reports.node {s : Step ts} (h : s.Reports e) (k : Kind) : (s.node k).Reports e := h

theorem Reports.andThen {s : Step ts} (h : s.Reports e) (b : Step s.rest) :
    (s.andThen b).Reports e := by
  obtain ⟨es, hes⟩ := h
  exact ⟨es ++ b.problems, by rw [Step.andThen, hes, List.cons_append]⟩

theorem Makes.reports {s : Step ts} (h : s.Makes ps m) {f : (us : List Token) → Step us}
    (hf : (f m).Reports e) : (s.andThen (f s.rest)).Reports e := by
  obtain ⟨es, hes⟩ := hf
  rw [← h.rest] at hes
  exact ⟨es, by rw [Step.andThen, h.problems, hes, List.nil_append]⟩

end Step

namespace UpToBrace

variable {rule : (ts : List Token) → Step ts} {item : (t : Token) → (r : List Token) → Step r}

theorem makes_brace (h : UpToBrace rule item) {b : Token} (hb : b.kind = .rightBrace)
    (rest : List Token) : (rule (b :: rest)).Makes [.token b false] rest := by
  rw [h.cons, if_pos hb]
  exact makes_expect hb rest

theorem makes_item (h : UpToBrace rule item) {t : Token} (ht : t.kind ≠ .rightBrace)
    (hitem : (item t r).Makes ps m) (hmore : (rule m).Makes qs rest) :
    (rule (t :: r)).Makes (ps ++ qs) rest := by
  rw [h.cons, if_neg ht]
  exact (hitem.andThen hmore).lift t

end UpToBrace

theorem makes_modifierList {t : Token} (ht : startsModifier t.kind = false) (r : List Token) :
    (modifierList (t :: r)).Makes [.node .modifierList []] (t :: r) := by
  obtain ⟨hkeyword, hat⟩ := Bool.or_eq_false_iff.mp ht
  rw [modifierList, modifiers, hkeyword, if_neg Bool.false_ne_true, if_neg (ne_of_beq_false hat)]
  exact (makes_idle _).node _

section

variable {c n b s u : Token} {e : Problem}

/-- A class without modifiers, up to its body. -/
theorem makes_classHead (hc : c.kind = .classKw) (hn : n.kind = .ident) (ts : List Token) :
    let announced := (modifierList (c :: n :: ts)).andThen
      (expect .classKw (modifierList (c :: n :: ts)).rest)
    (announced.andThen (className announced.rest)).Makes
      [.node .modifierList [], .token c false, .token n true] ts := by
  have hmodifiers := makes_modifierList (t := c) (by rw [hc]; decide) (n :: ts)
  have hname : (className (n :: ts)).Makes [.token n true] ts := by
    rw [className, if_pos hn]
    exact makes_bump true n _
  have hannounced := hmodifiers.andThen (f := expect .classKw) (makes_expect hc _)
  exact hannounced.andThen (f := className) hname

theorem contains_classStart_of_eq (hc : c.kind = .classKw) : classStart.contains c.kind = true := by
  rw [hc]
  decide

/-- A class without modifiers, and nothing behind it. -/
theorem makes_classDeclarations (hc : c.kind = .classKw) (hn : n.kind = .ident)
    (hb : b.kind = .leftBrace) (h : (membersTail ts).Makes ps []) :
    (classDeclarations (c :: n :: b :: ts)).Makes
      [.node .classDeclaration [.node .modifierList [], .token c false, .token n true,
        .node .classBody (.token b false :: ps)]] [] := by
  have hbody : (classBody (b :: ts)).Makes [.node .classBody (.token b false :: ps)] [] := by
    rw [classBody, if_pos hb]
    exact ((h.lead false b).node _).lift b
  have hclass := ((makes_classHead hc hn (b :: ts)).andThen (f := classBody) hbody).node
    .classDeclaration
  have hnone : (classDeclarations []).Makes [] [] := by
    rw [classDeclarations]
    exact makes_idle []
  rw [classDeclarations, dif_pos (contains_classStart_of_eq hc)]
  exact ((hclass.within _).andThen (f := classDeclarations) hnone).lift c

theorem reports_classDeclarations (hc : c.kind = .classKw) (hn : n.kind = .ident)
    (hb : b.kind = .leftBrace) (h : (membersTail ts).Reports e) :
    (classDeclarations (c :: n :: b :: ts)).Reports e := by
  have hbody : (classBody (b :: ts)).Reports e := by
    rw [classBody, if_pos hb]
    exact ((h.lead false b).node _).lift b
  have hclass := ((makes_classHead hc hn (b :: ts)).reports (f := classBody) hbody).node
    .classDeclaration
  rw [classDeclarations, dif_pos (contains_classStart_of_eq hc)]
  exact ((hclass.within _).andThen _).lift c

/-- The only member of a class. -/
theorem makes_membersTail {t : Token} (ht : t.kind ≠ .rightBrace) (hu : u.kind = .rightBrace)
    (h : (member t r).Makes ps (u :: rest)) :
    (membersTail (t :: r)).Makes (ps ++ [.token u false]) rest :=
  upToBrace_membersTail.makes_item ht h (upToBrace_membersTail.makes_brace hu rest)

theorem reports_membersTail {t : Token} (ht : t.kind ≠ .rightBrace) (h : (member t r).Reports e) :
    (membersTail (t :: r)).Reports e := by
  rw [membersTail, if_neg ht]
  exact (h.andThen _).lift t

theorem withDimensions_of_ne {element : Operand ts} (h : ahead element.rest ≠ .leftBracket) :
    withDimensions false element = element := by
  rw [withDimensions, TypeSyntax.dimensions_of_ne h]
  rfl

/-- The name of a class in front of another name. -/
theorem makes_type {t o : Token} (ht : t.kind = .ident) (ho : o.kind = .ident) (ts : List Token) :
    (type false (t :: o :: ts)).toStep.Makes [.node .classType [.token t true]] (o :: ts) := by
  have hahead : ahead (o :: ts) = .ident := ho
  have hname : (qualifiedName t (o :: ts)).Makes [.token t true] (o :: ts) := by
    rw [qualifiedName, segments_of_endsName (endsName_of_ne (by simp [hahead]))]
    exact (makes_idle _).lead true t
  have hplain : (typeArguments? (o :: ts)).Makes [] (o :: ts) := by
    rw [TypeSyntax.typeArguments?_of_ne (by simp [hahead])]
    exact makes_idle _
  have hclass : (classType t (o :: ts)).toStep.Makes [.node .classType [.token t true]] (o :: ts) := by
    rw [classType]
    exact (hname.andThen (f := typeArguments?) hplain).node _
  have hprimitive : ¬ primitiveKeywords.contains t.kind = true := by
    rw [ht]
    decide
  have hrest : ahead ((classType t (o :: ts)).lift t).rest ≠ .leftBracket := by
    rw [Operand.rest_lift, hclass.rest, hahead]
    decide
  rw [type, if_neg hprimitive, if_pos ht, withDimensions_of_ne hrest]
  exact hclass.lift t

theorem ne_voidKw_of_startsType {k : Kind} (h : startsType k = true) : k ≠ .voidKw := by
  rintro rfl
  cases h

/-- What starts a member without modifiers. -/
theorem starts_member {k : Kind} (hk : startsType k = true ∨ k = .voidKw) :
    startsModifier k = false ∧ startsMember k = true ∧ k ≠ .semicolon := by
  revert hk
  cases k <;> decide +kernel

/-- A member without modifiers. -/
theorem makes_member {t : Token} (ht : startsType t.kind = true ∨ t.kind = .voidKw)
    (htyped : (resultType (t :: r)).Makes qs m)
    (htail : (memberTail (.node .modifierList [] :: qs) m).Makes ps rest) :
    (member t r).Makes ps rest := by
  obtain ⟨hmodifier, hmember, hne⟩ := starts_member ht
  have hmodified := (makes_modifierList hmodifier r).andThen (f := resultType) htyped
  have hdeclared : (declaredMember (t :: r)).Makes ps rest := by
    let typed := (modifierList (t :: r)).andThen (resultType (modifierList (t :: r)).rest)
    have hrest : typed.rest = m := hmodified.rest
    have hparts : typed.parts = .node .modifierList [] :: qs := hmodified.parts
    have hthere : (memberTail typed.parts typed.rest).Makes ps rest := by
      rw [hparts, hrest]
      exact htail
    exact ⟨hthere.parts, List.append_eq_nil_iff.mpr ⟨hmodified.problems, hthere.problems⟩,
      hthere.rest⟩
  rw [member, if_neg hne, dif_pos hmember]
  exact hdeclared.within _

theorem reports_member {t : Token} (ht : startsType t.kind = true ∨ t.kind = .voidKw)
    (htyped : (resultType (t :: r)).Makes qs m) (htail : ∀ typed, (memberTail typed m).Reports e) :
    (member t r).Reports e := by
  obtain ⟨hmodifier, hmember, hne⟩ := starts_member ht
  have hmodified := (makes_modifierList hmodifier r).andThen (f := resultType) htyped
  have hdeclared : (declaredMember (t :: r)).Reports e := hmodified.reports (htail _)
  rw [member, if_neg hne, dif_pos hmember]
  exact hdeclared.within _

/-- The only variable of a field, with what stands between its name and the semicolon. -/
theorem makes_fieldTail {o : Token} {us : List Token} (ho : o.kind = .ident) (hs : s.kind = .semicolon)
    (hus : ahead us ≠ .leftParen) (hvalue : (initializer us).Makes ps (s :: rest))
    (typed : List Piece) :
    (memberTail typed (o :: us)).Makes
      [.node .fieldDeclaration (typed ++
        [.node .variableDeclarator (.node .variableDeclaratorId [.token o true] :: ps),
          .token s false])] rest := by
  have hid : (variableId (o :: us)).Makes [.node .variableDeclaratorId [.token o true]] us := by
    rw [variableId, if_pos ho]
    exact (makes_bump true o _).node _
  have hmore : (moreDeclarators (s :: rest)).Makes [] (s :: rest) := by
    rw [moreDeclarators, if_neg (by rw [hs]; decide)]
    exact makes_idle _
  have hdeclared : (declarators (o :: us)).Makes
      [.node .variableDeclarator (.node .variableDeclaratorId [.token o true] :: ps)] (s :: rest) := by
    rw [declarators]
    exact ((hid.andThen (f := initializer) hvalue).node .variableDeclarator).andThen
      (f := moreDeclarators) hmore
  have hclosed := hdeclared.andThen (f := expect .semicolon) (makes_expect hs rest)
  have hfield : memberTail typed (o :: us) = memberTail.field typed (o :: us) := by
    cases us with
    | nil => rfl
    | cons q us => rw [memberTail, if_neg fun h => hus h.2]
  rw [hfield, memberTail.field]
  exact ⟨congrArg (fun parts => [Piece.node .fieldDeclaration (typed ++ parts)]) hclosed.parts,
    hclosed.problems, hclosed.rest⟩

/-- A field of some class with a value. -/
theorem makes_field {t o q : Token} (ht : t.kind = .ident) (ho : o.kind = .ident) (hq : q.kind = .eq)
    (hs : s.kind = .semicolon) (h : (expr ts).toStep.Makes [v] (s :: rest)) :
    (member t (o :: q :: ts)).Makes
      [.node .fieldDeclaration [.node .modifierList [], .node .classType [.token t true],
        .node .variableDeclarator [.node .variableDeclaratorId [.token o true], .token q false, v],
        .token s false]] rest := by
  have hvalue : (initializer (q :: ts)).Makes [.token q false, v] (s :: rest) := by
    rw [initializer, if_pos hq]
    exact (h.lead false q).lift q
  have htyped : (resultType (t :: o :: q :: ts)).Makes [.node .classType [.token t true]]
      (o :: q :: ts) := by
    rw [resultType, if_neg (by simp [ht])]
    exact makes_type ht ho _
  have hahead : ahead (q :: ts) ≠ .leftParen := fun hk => by cases hq.symm.trans hk
  exact makes_member (.inl (by rw [ht]; rfl)) htyped (makes_fieldTail ho hs hahead hvalue _)

section

variable {t n l p b : Token}

theorem makes_noParameters (l : Token) (hp : p.kind = .rightParen) (ts : List Token) :
    (((parametersTail (p :: ts)).lead false l).node .formalParameters).Makes
      [.node .formalParameters [.token l false, .token p false]] ts := by
  rw [parametersTail, if_pos (.inl hp)]
  exact ((makes_expect hp ts).lead false l).node _

theorem makes_void (ht : t.kind = .voidKw) (ts : List Token) :
    (resultType (t :: ts)).Makes [.node .voidType [.token t true]] ts := by
  rw [resultType, if_pos ht]
  exact (makes_bump true t _).node _

/-- A method without parameters and without a result. -/
theorem makes_method (ht : t.kind = .voidKw) (hn : n.kind = .ident) (hl : l.kind = .leftParen)
    (hp : p.kind = .rightParen) (hb : b.kind = .leftBrace) (h : (blockTail ts).Makes ps rest) :
    (member t (n :: l :: p :: b :: ts)).Makes
      [.node .methodDeclaration [.node .modifierList [], .node .voidType [.token t true],
        .token n true, .node .formalParameters [.token l false, .token p false],
        .node .block (.token b false :: ps)]] rest := by
  have hbody : (methodBody (b :: ts)).Makes [.node .block (.token b false :: ps)] rest := by
    rw [methodBody, if_pos hb, blockFrom]
    exact ((h.lead false b).node _).lift b
  have hmethod := ((makes_noParameters l hp (b :: ts)).andThen (f := methodBody) hbody).lead true n
  have htail : ∀ typed, (memberTail typed (n :: l :: p :: b :: ts)).Makes
      [.node .methodDeclaration (typed ++ [.token n true,
        .node .formalParameters [.token l false, .token p false],
        .node .block (.token b false :: ps)])] rest := by
    intro typed
    rw [memberTail, if_pos ⟨hn, hl⟩]
    exact ⟨congrArg (fun parts => [Piece.node .methodDeclaration (typed ++ parts)]) hmethod.parts,
      hmethod.problems, hmethod.rest⟩
  exact makes_member (.inr ht) (makes_void ht _) (htail _)

theorem reports_method (ht : t.kind = .voidKw) (hn : n.kind = .ident) (hl : l.kind = .leftParen)
    (hp : p.kind = .rightParen) (hb : b.kind = .leftBrace) (h : (blockTail ts).Reports e) :
    (member t (n :: l :: p :: b :: ts)).Reports e := by
  have hbody : (methodBody (b :: ts)).Reports e := by
    rw [methodBody, if_pos hb, blockFrom]
    exact ((h.lead false b).node _).lift b
  have hmethod := (makes_noParameters l hp (b :: ts)).reports (f := methodBody) hbody
  refine reports_member (.inr ht) (makes_void ht _) fun typed => ?_
  rw [memberTail, if_pos ⟨hn, hl⟩]
  exact hmethod

end

/-- The only statement of a block. -/
theorem makes_blockTail {t : Token} (ht : t.kind ≠ .rightBrace) (hu : u.kind = .rightBrace)
    (h : (statement t r).Makes ps (u :: rest)) :
    (blockTail (t :: r)).Makes (ps ++ [.token u false]) rest :=
  upToBrace_blockTail.makes_item ht h (upToBrace_blockTail.makes_brace hu rest)

theorem reports_blockTail {t : Token} (ht : t.kind ≠ .rightBrace) (h : (statement t r).Reports e) :
    (blockTail (t :: r)).Reports e := by
  rw [blockTail, if_neg ht]
  exact (h.andThen _).lift t

theorem makes_return {t : Token} (ht : t.kind = .returnKw) (hs : s.kind = .semicolon)
    (hne : ahead ts ≠ .semicolon) (h : (expr ts).toStep.Makes [v] (s :: rest)) :
    (statement t ts).Makes [.node .returnStatement [.token t false, v, .token s false]] rest := by
  have hclosed := h.andThen (f := expect .semicolon) (makes_expect hs rest)
  have hreturned : (returned ts).Makes [v, .token s false] rest := by
    cases ts with
    | nil => exact hclosed
    | cons t r =>
      have ht : ¬ t.kind = .semicolon := hne
      rw [returned, if_neg ht]
      exact hclosed
  rw [statement, if_neg (by simp [ht]), if_neg (by simp [ht]), if_pos ht]
  exact (hreturned.lead false t).node _

/-- What starts with a token that starts expressions is a declaration or an expression. -/
theorem statement_of_starts {t : Token} (ht : expressionFirst.contains t.kind = true) :
    statement t r =
      if h : atLocalVariable (t :: r) then
        (localVariable (t :: r)).within r (length_rest_localVariable_lt h)
      else (expressionStatement (t :: r)).within r (length_rest_expressionStatement_lt ht) := by
  have hne {k : Kind} (hk : expressionFirst.contains k = false) : ¬ t.kind = k := by
    rintro rfl
    exact Bool.false_ne_true (hk.symm.trans ht)
  rw [statement, if_neg (hne rfl), if_neg (hne rfl), if_neg (hne rfl), if_neg (hne rfl),
    if_neg (hne rfl), if_neg (hne rfl), if_neg (hne rfl), dif_pos ht]

theorem makes_expressionStatement {t : Token} (ht : expressionFirst.contains t.kind = true)
    (hat : atLocalVariable (t :: r) = false) (hs : s.kind = .semicolon)
    (h : (expr (t :: r)).toStep.Makes [v] (s :: rest)) :
    (statement t r).Makes [.node .expressionStatement [v, .token s false]] rest := by
  have hclosed := h.andThen (f := expect .semicolon) (makes_expect hs rest)
  rw [statement_of_starts ht, dif_neg (by rw [hat]; decide)]
  exact (hclosed.node _).within _

end

end JavaSyntax.Grammar
