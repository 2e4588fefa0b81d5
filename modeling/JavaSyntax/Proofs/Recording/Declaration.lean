import JavaSyntax.Proofs.Recording.Expression

namespace JavaSyntax.Recording

open Grammar

variable {ts r : List Token} {t : Token}

theorem makes_annotationName (ts : List Token) : Makes annotationName (Grammar.annotationName ts) := by
  refine (looks_isAt ts .ident).makes ?_
  rcases ts with _ | ⟨t, r⟩
  · exact makes_report .annotationName []
  · exact .ite beq_iff_eq makes_qualifiedName fun _ => makes_report .annotationName (t :: r)

theorem makes_annotated (r : List Token) (ht : t.kind = .at) :
    Makes annotation ((annotationUse t r).lift t) := by
  have huse := ((makes_annotationName r).lead false t).node .annotationUse (by decide)
  simp only [bind_assoc] at huse
  exact (looks_assert ht r).makes huse

theorem makes_modifier (t : Token) (r : List Token) :
    Makes (fun _ => modifier) ((Step.bump true t r).node .modifier) :=
  (makes_bump true t r).node .modifier (by decide)

theorem makes_modifiers (ts : List Token) : Makes modifiers (Grammar.modifiers ts) := by
  refine .deeper modifiers.eq_2 ((looks_isAtAny ts modifierKeywords).makes ?_)
  rcases ts with _ | ⟨t, r⟩
  · rw [fun_if_neg (by decide +kernel), Grammar.modifiers]
    exact (looks_isAt [] .at).makes (makes_idle [])
  rw [Grammar.modifiers]
  refine .ite Iff.rfl (fun _ => ?_) fun _ => (looks_isAt (t :: r) .at).makes ?_
  · exact (makes_modifier t r).andThen (makes_modifiers r)
  · refine .ite beq_iff_eq (fun ht => ?_) fun _ => makes_idle (t :: r)
    exact (makes_annotated r ht).andThen (makes_modifiers _)
termination_by ts.length
decreasing_by all_goals grind

theorem makes_modifierList (ts : List Token) : Makes modifierList (Grammar.modifierList ts) :=
  (makes_modifiers ts).node .modifierList (by decide)

theorem makes_variableId (ts : List Token) : Makes (fun _ => variableId) (Grammar.variableId ts) := by
  rcases ts with _ | ⟨t, r⟩
  · exact ((looks_isAt [] .ident).makes (makes_report .variableName [])).node .variableDeclaratorId (by decide)
  · have hname : Makes (fun _ => variableName)
        (if t.kind = .ident then Step.bump true t r else Step.report .variableName (t :: r)) :=
      (looks_isAt (t :: r) .ident).makes
        (.ite beq_iff_eq (fun _ => makes_bump true t r) fun _ => makes_report .variableName (t :: r))
    rw [Grammar.variableId, ← apply_ite (Step.node · .variableDeclaratorId)]
    exact hname.node .variableDeclaratorId (by decide)

theorem makes_initializer (ts : List Token) : Makes initializer (Grammar.initializer ts) := by
  by_cases heq : ahead ts = .eq
  · obtain ⟨t, r, rfl, ht⟩ := exists_of_ahead heq (by decide)
    rw [Grammar.initializer, if_pos ht]
    exact (finds_expr r).makes.eat ht
  · have hidle : Grammar.initializer ts = Step.idle ts := by
      cases ts with
      | nil => rfl
      | cons t r => exact if_neg heq
    rw [hidle]
    exact (looks_eat heq).makes (makes_idle ts)

theorem makes_declarator (ts : List Token) : Makes declarator (Grammar.declarator ts) := by
  have hdeclared := ((makes_variableId ts).andThen (makes_initializer _)).node .variableDeclarator (by decide)
  simp only [bind_assoc] at hdeclared
  exact hdeclared

mutual

theorem makes_declarators (ts : List Token) : Makes declarators (Grammar.declarators ts) := by
  rw [Grammar.declarators]
  exact .deeper declarators.eq_2 ((makes_declarator ts).andThen (makes_moreDeclarators _))
termination_by 2 * ts.length + 1
decreasing_by all_goals grind

theorem makes_moreDeclarators (ts : List Token) :
    Makes (fun d => do if ← eat .comma then declarators d) (moreDeclarators ts) := by
  by_cases hcomma : ahead ts = .comma
  · obtain ⟨t, r, rfl, ht⟩ := exists_of_ahead hcomma (by decide)
    rw [moreDeclarators, if_pos ht]
    exact (makes_declarators r).eat ht
  · have hidle : moreDeclarators ts = Step.idle ts := by
      cases ts with
      | nil => rw [moreDeclarators]
      | cons t r => rw [moreDeclarators, if_neg (show t.kind ≠ .comma from hcomma)]
    rw [hidle]
    exact (looks_eat hcomma).makes (makes_idle ts)
termination_by 2 * ts.length
decreasing_by all_goals grind

end

theorem makes_condition (ts : List Token) : Makes condition (Grammar.condition ts) := by
  have htested := ((makes_expect (k := .leftParen) (by decide) ts).andThen (finds_expr _).makes).andThen
    (makes_expect (k := .rightParen) (by decide) _)
  simp only [bind_assoc, pure_bind] at htested
  exact htested

theorem makes_foreachHead (ts : List Token) : Makes foreachHead (Grammar.foreachHead ts) := by
  have helement (us : List Token) := (((makes_modifierList us).andThen (finds_type false _).makes).andThen
    ((makes_variableId _).node .variableDeclarator (by decide))).node .localVariableDeclaration (by decide)
  have hdivided := ((makes_expect (k := .leftParen) (by decide) ts).andThen (helement _)).andThen
    (makes_expect (k := .colon) (by decide) _)
  have hhead := (hdivided.andThen (finds_expr _).makes).andThen (makes_expect (k := .rightParen) (by decide) _)
  simp only [bind_assoc, pure_bind] at hhead
  exact hhead

theorem makes_catchHead (ts : List Token) : Makes catchHead (Grammar.catchHead ts) := by
  have hparameter (us : List Token) := (((makes_modifierList us).andThen (finds_type false _).makes).andThen
    (makes_variableId _)).node .catchParameter (by decide)
  have hhead := ((makes_expect (k := .leftParen) (by decide) ts).andThen (hparameter _)).andThen
    (makes_expect (k := .rightParen) (by decide) _)
  simp only [bind_assoc, pure_bind] at hhead
  exact hhead

theorem makes_localVariable (ts : List Token) : Makes localVariable (Grammar.localVariable ts) := by
  have hdeclared := ((makes_modifierList ts).andThen (finds_type false _).makes).andThen (makes_declarators _)
  have hvariable := (hdeclared.andThen (makes_expect (k := .semicolon) (by decide) _)).node
    .localVariableDeclaration (by decide)
  simp only [bind_assoc, pure_bind] at hvariable
  exact hvariable

theorem makes_expressionStatement (ts : List Token) :
    Makes expressionStatement (Grammar.expressionStatement ts) := by
  have hvalue := ((finds_expr ts).makes.andThen (makes_expect (k := .semicolon) (by decide) _)).node
    .expressionStatement (by decide)
  simp only [bind_assoc, pure_bind] at hvalue
  exact hvalue

theorem loops_returned (ts : List Token) : Loops returned (Step.expect .semicolon) (Grammar.returned ts) := by
  refine (looks_isAt ts .semicolon).loops ?_
  rcases ts with _ | ⟨t, r⟩
  · exact ⟨_, (finds_expr []).makes, rfl⟩
  rw [Grammar.returned]
  by_cases ht : t.kind = .semicolon
  · have hread : Step.bump false t r = Step.expect .semicolon (t :: r) := (if_pos ht).symm
    rw [fun_if_pos (show (ahead (t :: r) == .semicolon) = true from beq_iff_eq.mpr ht), if_pos ht, hread]
    exact loops_done _ _
  · rw [fun_if_neg (show ¬(ahead (t :: r) == .semicolon) = true from mt beq_iff_eq.mp ht), if_neg ht]
    exact ⟨_, (finds_expr (t :: r)).makes, rfl⟩

theorem makes_returnStatement (t : Token) (r : List Token) :
    Makes returnStatement ((((Grammar.returned r).lead false t).node .returnStatement).lift t) := by
  have hreturn := (((loops_returned r).makes (makes_expect (by decide))).lead false t).node .returnStatement
    (by decide)
  simp only [bind_assoc] at hreturn
  exact hreturn

theorem blockTail_of_closed (h : ts = [] ∨ ahead ts = .rightBrace) :
    blockTail ts = Step.expect .rightBrace ts := by
  rcases ts with _ | ⟨t, r⟩
  · rw [blockTail]
  · rw [blockTail]
    exact if_pos (h.resolve_left (List.cons_ne_nil t r))

theorem block_of_not (h : ahead ts ≠ .leftBrace) : Grammar.block ts = Step.report .block ts := by
  rcases ts with _ | ⟨t, r⟩
  · rw [Grammar.block]
  · rw [Grammar.block]
    exact if_neg h

theorem body_of_closed (h : ts = [] ∨ ahead ts = .rightBrace) :
    Grammar.body ts = Step.report .statement ts := by
  rcases ts with _ | ⟨t, r⟩
  · rw [Grammar.body]
  · rw [Grammar.body]
    exact if_pos (h.resolve_left (List.cons_ne_nil t r))

theorem elseBranch_of_not (h : ahead ts ≠ .elseKw) : Grammar.elseBranch ts = Step.idle ts := by
  rcases ts with _ | ⟨t, r⟩
  · rw [Grammar.elseBranch]
  · rw [Grammar.elseBranch]
    exact if_neg h

theorem moreCatches_of_not (h : ahead ts ≠ .catchKw) : moreCatches ts = Step.idle ts := by
  rcases ts with _ | ⟨t, r⟩
  · rw [moreCatches]
  · rw [moreCatches]
    exact if_neg h

theorem catches_of_not (h : ahead ts ≠ .catchKw) :
    Grammar.catches ts = Step.report .catchClause ts := by
  rcases ts with _ | ⟨t, r⟩
  · rw [Grammar.catches]
  · rw [Grammar.catches]
    exact if_neg h

theorem catches_of_catch (h : ahead ts = .catchKw) : Grammar.catches ts = moreCatches ts := by
  obtain ⟨t, r, rfl, ht⟩ := exists_of_ahead h (by decide)
  rw [Grammar.catches, moreCatches, if_pos ht, if_pos ht]

mutual

theorem makes_block (ts : List Token) : Makes block (Grammar.block ts) := by
  by_cases hbrace : ahead ts = .leftBrace
  · obtain ⟨t, r, rfl, ht⟩ := exists_of_ahead hbrace (by decide)
    rw [Grammar.block, if_pos ht]
    exact makes_blockFrom r ht
  · rw [block_of_not hbrace]
    refine .deeper block.eq_2 ((looks_isAt ts .leftBrace).makes ?_)
    rw [fun_if_neg (mt beq_iff_eq.mp hbrace)]
    exact makes_report .block ts
termination_by 8 * ts.length + 1
decreasing_by all_goals grind

theorem makes_blockFrom {t : Token} (r : List Token) (ht : t.kind = .leftBrace) :
    Makes block ((blockFrom t r).lift t) := by
  rw [blockFrom]
  refine .deeper block.eq_2 (Looks.makes (looks_isAt (t :: r) .leftBrace) ?_)
  have hblock := (((loops_statements r).makes (makes_expect (by decide))).lead false t).node .block (by decide)
  simp only [bind_assoc] at hblock
  rw [ahead_cons, fun_if_pos (beq_iff_eq.mpr ht)]
  exact hblock
termination_by 8 * r.length + 1
decreasing_by all_goals grind

theorem loops_statements (ts : List Token) :
    Loops statements (Step.expect .rightBrace) (blockTail ts) := by
  refine .deeper statements.eq_2 (loops_until blockTail_of_closed fun hts hopen => ?_)
  obtain ⟨t, r, rfl⟩ := List.exists_cons_of_ne_nil hts
  rw [blockTail, if_neg (show t.kind ≠ .rightBrace from hopen)]
  exact (makes_statement r hopen).loops (loops_statements _)
termination_by 8 * ts.length
decreasing_by all_goals grind

theorem makes_statement {t : Token} (r : List Token) (hopen : t.kind ≠ .rightBrace) :
    Makes statement ((Grammar.statement t r).lift t) := by
  intro n h
  have heof := h.ahead_ne_eof
  rw [Grammar.statement]
  refine .deeper statement.eq_2 ((looks_next (t :: r) n h).reaches ?_)
  rw [ahead_cons]
  by_cases hbrace : t.kind = .leftBrace
  · rw [if_pos hbrace, hbrace]
    exact makes_blockFrom r hbrace n h
  rw [if_neg hbrace]
  by_cases hsemicolon : t.kind = .semicolon
  · rw [if_pos hsemicolon, hsemicolon]
    exact makes_bump false t r n h
  rw [if_neg hsemicolon]
  by_cases hreturn : t.kind = .returnKw
  · rw [if_pos hreturn, hreturn]
    exact makes_returnStatement t r n h
  rw [if_neg hreturn]
  by_cases hif : t.kind = .ifKw
  · rw [if_pos hif, hif]
    exact makes_ifStatement t r n h
  rw [if_neg hif]
  by_cases hwhile : t.kind = .whileKw
  · rw [if_pos hwhile, hwhile]
    exact makes_whileStatement t r n h
  rw [if_neg hwhile]
  by_cases hfor : t.kind = .forKw
  · rw [if_pos hfor, hfor]
    exact makes_foreachStatement r hfor n h
  rw [if_neg hfor]
  by_cases htry : t.kind = .tryKw
  · rw [if_pos htry, htry]
    exact makes_tryStatement r htry n h
  rw [if_neg htry]
  split
  all_goals try contradiction
  refine (looks_atLocalVariable (t :: r) n h).reaches ?_
  by_cases hlocal : Grammar.atLocalVariable (t :: r) = true
  · rw [fun_if_pos hlocal, dif_pos hlocal]
    exact makes_localVariable (t :: r) n h
  rw [fun_if_neg hlocal, dif_neg hlocal]
  refine (looks_isAtAny (t :: r) expressionFirst n h).reaches ?_
  rw [ahead_cons]
  by_cases hexpression : expressionFirst.contains t.kind = true
  · rw [fun_if_pos hexpression, dif_pos hexpression]
    exact makes_expressionStatement (t :: r) n h
  · rw [fun_if_neg hexpression, dif_neg hexpression]
    exact makes_skip .statement t r n h
termination_by 8 * r.length + 4
decreasing_by all_goals grind

theorem makes_body (ts : List Token) : Makes body (Grammar.body ts) := by
  refine .deeper body.eq_2 ((looks_isAt ts _).makes ((looks_atEnd ts).makes ?_))
  by_cases hclosed : ts = [] ∨ ahead ts = .rightBrace
  · rw [fun_if_pos (by simpa [or_comm] using hclosed), body_of_closed hclosed]
    exact makes_report .statement ts
  · obtain ⟨hts, hopen⟩ := not_or.mp hclosed
    obtain ⟨t, r, rfl⟩ := List.exists_cons_of_ne_nil hts
    rw [ahead_cons] at hopen
    rw [fun_if_neg (by simp [hopen]), Grammar.body, if_neg hopen]
    exact makes_statement r hopen
termination_by 8 * ts.length
decreasing_by all_goals grind

theorem makes_ifStatement (t : Token) (r : List Token) : Makes ifStatement
    ((((((Grammar.condition r).andThen (Grammar.body _)).andThen (Grammar.elseBranch _)).lead false t).node
      .ifStatement).lift t) := by
  have hchosen := ((((makes_condition r).andThen (makes_body _)).andThen (makes_elseBranch _)).lead false t).node
    .ifStatement (by decide)
  simp only [bind_assoc] at hchosen
  exact .deeper ifStatement.eq_2 hchosen
termination_by 8 * r.length + 1
decreasing_by all_goals grind

theorem makes_elseBranch (ts : List Token) : Makes elseBranch (Grammar.elseBranch ts) := by
  refine .deeper elseBranch.eq_2 ?_
  by_cases helse : ahead ts = .elseKw
  · obtain ⟨t, r, rfl, ht⟩ := exists_of_ahead helse (by decide)
    rw [Grammar.elseBranch, if_pos ht]
    exact (makes_body r).eat ht
  · rw [elseBranch_of_not helse]
    exact (looks_eat helse).makes (makes_idle ts)
termination_by 8 * ts.length
decreasing_by all_goals grind

theorem makes_whileStatement (t : Token) (r : List Token) : Makes whileStatement
    (((((Grammar.condition r).andThen (Grammar.body _)).lead false t).node .whileStatement).lift t) := by
  have htested := (((makes_condition r).andThen (makes_body _)).lead false t).node .whileStatement (by decide)
  simp only [bind_assoc] at htested
  exact .deeper whileStatement.eq_2 htested
termination_by 8 * r.length + 1
decreasing_by all_goals grind

theorem makes_foreachStatement {t : Token} (r : List Token) (ht : t.kind = .forKw) : Makes foreachStatement
    (((((Grammar.foreachHead r).andThen (Grammar.body _)).lead false t).node .foreachStatement).lift t) := by
  have hloop := (((makes_foreachHead r).andThen (makes_body _)).lead false t).node .foreachStatement (by decide)
  simp only [bind_assoc] at hloop
  exact .deeper foreachStatement.eq_2 (Looks.makes (looks_assert ht r) hloop)
termination_by 8 * r.length + 1
decreasing_by all_goals grind

theorem makes_tryStatement {t : Token} (r : List Token) (ht : t.kind = .tryKw) : Makes tryStatement
    (((((Grammar.block r).andThen (Grammar.catches _)).lead false t).node .tryStatement).lift t) := by
  have htried := (((makes_block r).andThen (makes_expectedCatches _)).lead false t).node .tryStatement (by decide)
  simp only [bind_assoc] at htried
  exact .deeper tryStatement.eq_2 (Looks.makes (looks_assert ht r) htried)
termination_by 8 * r.length + 2
decreasing_by all_goals grind

theorem makes_expectedCatches (ts : List Token) :
    Makes (fun d => expectCatch >>= fun _ => catches d) (Grammar.catches ts) := by
  by_cases hcatch : ahead ts = .catchKw
  · rw [catches_of_catch hcatch]
    have hfound := looks_isAt ts .catchKw
    rw [beq_iff_eq.mpr hcatch] at hfound
    have hlooks : Looks (fun _ => expectCatch) ts () := hfound.bind .pure
    exact hlooks.makes (makes_catches ts)
  · have hreport : Makes (fun _ => expectCatch) (Step.report .catchClause ts) := by
      refine (looks_isAt ts .catchKw).makes ?_
      rw [fun_if_neg (mt beq_iff_eq.mp hcatch)]
      exact makes_report .catchClause ts
    have hmore := hreport.andThen (makes_catches ts)
    rw [moreCatches_of_not hcatch] at hmore
    rw [catches_of_not hcatch]
    exact hmore
termination_by 8 * ts.length + 1
decreasing_by all_goals grind

theorem makes_catches (ts : List Token) : Makes catches (moreCatches ts) := by
  refine .deeper catches.eq_2 ((looks_isAt ts .catchKw).makes ?_)
  rcases ts with _ | ⟨t, r⟩
  · rw [moreCatches]
    exact makes_idle []
  rw [moreCatches]
  refine .ite beq_iff_eq (fun _ => ?_) fun _ => makes_idle (t :: r)
  rw [catchesFrom]
  exact (makes_catchClause t r).andThen (makes_catches _)
termination_by 8 * ts.length
decreasing_by all_goals grind

theorem makes_catchClause (t : Token) (r : List Token) : Makes catchClause
    (((((Grammar.catchHead r).andThen (Grammar.block _)).lead false t).node .catchClause).lift t) := by
  have hclause := (((makes_catchHead r).andThen (makes_block _)).lead false t).node .catchClause (by decide)
  simp only [bind_assoc] at hclause
  exact .deeper catchClause.eq_2 hclause
termination_by 8 * r.length + 2
decreasing_by all_goals grind

end

theorem makes_parameter (ts : List Token) : Makes parameter (Grammar.parameter ts) := by
  have hparameter := (((makes_modifierList ts).andThen (finds_type true _).makes).andThen
    (makes_variableId _)).node .formalParameter (by decide)
  simp only [bind_assoc, pure_bind] at hparameter
  exact hparameter

theorem parametersTail_of_closed (h : ts = [] ∨ ahead ts = .rightParen) :
    parametersTail ts = Step.expect .rightParen ts := by
  rcases ts with _ | ⟨t, r⟩
  · rw [parametersTail]
  · rw [parametersTail]
    exact if_pos (.inl (h.resolve_left (List.cons_ne_nil t r)))

theorem parametersMore_of_not (h : ahead ts ≠ .comma) : parametersMore ts = Step.expect .rightParen ts := by
  rcases ts with _ | ⟨t, r⟩
  · rw [parametersMore]
  · rw [parametersMore]
    exact if_neg h

mutual

theorem loops_parameters (ts : List Token) :
    Loops parameters (Step.expect .rightParen) (parametersTail ts) := by
  refine .deeper parameters.eq_2 (loops_until parametersTail_of_closed fun hts hopen =>
    (looks_isAtAny ts parameterRecovery).loops ?_)
  obtain ⟨t, r, rfl⟩ := List.exists_cons_of_ne_nil hts
  replace hopen : t.kind ≠ .rightParen := hopen
  rw [parametersTail]
  by_cases hrecovery : parameterRecovery.contains t.kind = true
  · rw [ahead_cons, fun_if_pos hrecovery, if_pos (.inr hrecovery)]
    exact loops_done _ _
  rw [ahead_cons, fun_if_neg hrecovery, if_neg (not_or.mpr ⟨hopen, hrecovery⟩)]
  refine Looks.loops (looks_next (t :: r)) ?_
  by_cases hstart : startsParameter t.kind = true
  · have hread := length_rest_parameter_lt (r := r) hstart
    rw [ahead_cons, fun_if_pos hstart, dif_pos hstart]
    exact (makes_parameter (t :: r)).loops (loops_moreParameters _)
  · rw [ahead_cons, fun_if_neg hstart, dif_neg hstart]
    exact (makes_skip .parameter t r).loops (loops_parameters r)
termination_by 2 * ts.length
decreasing_by all_goals grind

theorem loops_moreParameters (ts : List Token) :
    Loops (fun d => do if ← eat .comma then parameters d) (Step.expect .rightParen) (parametersMore ts) := by
  by_cases hcomma : ahead ts = .comma
  · obtain ⟨t, r, rfl, ht⟩ := exists_of_ahead hcomma (by decide)
    rw [parametersMore, if_pos ht]
    exact (loops_parameters r).eat ht
  · rw [parametersMore_of_not hcomma]
    exact (looks_eat hcomma).loops (loops_done _ ts)
termination_by 2 * ts.length + 1
decreasing_by all_goals grind

end

theorem makes_formalParameters (r : List Token) (ht : t.kind = .leftParen) : Makes formalParameters
    ((((parametersTail r).lead false t).node .formalParameters).lift t) := by
  have hparameters := (((loops_parameters r).makes (makes_expect (by decide))).lead false t).node
    .formalParameters (by decide)
  simp only [bind_assoc] at hparameters
  exact Looks.makes (looks_assert ht r) hparameters

theorem makes_methodBody (ts : List Token) : Makes methodBody (Grammar.methodBody ts) := by
  refine (looks_isAt ts .leftBrace).makes ?_
  rcases ts with _ | ⟨t, r⟩
  · exact makes_expect (by decide) []
  · rw [Grammar.methodBody]
    exact .ite beq_iff_eq (makes_blockFrom r) fun _ => makes_expect (by decide) (t :: r)

theorem makes_resultType (ts : List Token) : Makes resultType (Grammar.resultType ts) := by
  refine (looks_isAt ts .voidKw).makes ?_
  rcases ts with _ | ⟨t, r⟩
  · exact (finds_type false []).makes
  · rw [Grammar.resultType]
    refine .ite beq_iff_eq (fun _ => ?_) fun _ => (finds_type false (t :: r)).makes
    exact (makes_bump true t r).node .voidType (by decide)

/-- What follows the type of a method, and the node that it ends. -/
theorem exists_method (h : ahead ts = .ident ∧ ahead (ts.drop 1) = .leftParen) : ∃ s : Step ts,
    Makes method s ∧
      ∀ typed, memberTail typed ts = { s with parts := [.node .methodDeclaration (typed ++ s.parts)] } := by
  obtain ⟨m, p, r, rfl, hm, hp⟩ := exists_of_ahead_two h (by decide) (by decide)
  refine ⟨_, ((makes_formalParameters r hp).andThen (makes_methodBody _)).lead true m, fun typed => ?_⟩
  rw [memberTail, if_pos ⟨hm, hp⟩]
  rfl

theorem exists_field (h : ¬(ahead ts = .ident ∧ ahead (ts.drop 1) = .leftParen)) : ∃ s : Step ts,
    Makes field s ∧
      ∀ typed, memberTail typed ts = { s with parts := [.node .fieldDeclaration (typed ++ s.parts)] } := by
  refine ⟨_, (makes_declarators ts).andThen (makes_expect (by decide) _), fun typed => ?_⟩
  rcases ts with _ | ⟨m, _ | ⟨p, r⟩⟩
  · rfl
  · rfl
  · exact if_neg h

theorem makes_declaredMember (ts : List Token) : Makes declaredMember (Grammar.declaredMember ts) := by
  intro n h
  obtain ⟨_, n₁, hmodifiers, ps₁, h₁⟩ := makes_modifierList ts n.start h.start
  obtain ⟨_, n₂, hresult, ps₂, h₂⟩ := makes_resultType _ n₁ h₁.faces
  refine (performs_start n).reaches (hmodifiers.reaches (hresult.reaches
    ((looks_isAt _ .ident n₂ h₂.faces).reaches ((looks_kindAt _ 1 n₂ h₂.faces).reaches ?_))))
  have hend {x : Nat → Recording Unit} {k : Kind} (hk : k.isNode = true ∧ k ≠ .tombstone)
      (hx : ∃ s, Makes x s ∧ ∀ typed, memberTail typed (Grammar.resultType (Grammar.modifierList ts).rest).rest =
        { s with parts := [.node k (typed ++ s.parts)] }) :
      Reaches (fun d => x d >>= fun _ => complete ⟨UInt32.ofNat n.recorded⟩ k >>= fun _ => pure ()) n₂
        fun _ n' => ∃ ps, n.Reads ps (Grammar.declaredMember ts) n' := by
    obtain ⟨s, hs, htail⟩ := hx
    obtain ⟨_, n₃, hrun, qs, hqs⟩ := hs n₂ h₂.faces
    obtain ⟨n', hcomplete, hnode⟩ := exists_node ((h₁.andThen h₂).andThen hqs) k hk
    refine ⟨(), n', hrun.bind (hcomplete.bind .pure), [.node n.recorded k false (ps₁ ++ ps₂ ++ qs)], ?_⟩
    rw [Grammar.declaredMember]
    simp only [Step.rest_andThen, htail]
    exact hnode
  by_cases hmethod : ahead (Grammar.resultType (Grammar.modifierList ts).rest).rest = .ident ∧
    ahead ((Grammar.resultType (Grammar.modifierList ts).rest).rest.drop 1) = .leftParen
  · rw [fun_if_pos (by simpa using hmethod)]
    exact hend (by decide) (exists_method hmethod)
  · rw [fun_if_neg (by simpa using hmethod)]
    exact hend (by decide) (exists_field hmethod)

theorem makes_member (t : Token) (r : List Token) : Makes member ((Grammar.member t r).lift t) := by
  rw [Grammar.member]
  by_cases hsemicolon : t.kind = .semicolon
  · rw [if_pos hsemicolon]
    exact (makes_idle r).eat hsemicolon
  rw [if_neg hsemicolon]
  have hother : Looks (fun _ => eat .semicolon) (t :: r) false := looks_eat hsemicolon
  refine hother.makes (Looks.makes (looks_next (t :: r)) ?_)
  by_cases hstart : startsMember t.kind = true
  · rw [ahead_cons, fun_if_pos hstart, dif_pos hstart]
    exact makes_declaredMember (t :: r)
  · rw [ahead_cons, fun_if_neg hstart, dif_neg hstart]
    exact makes_skip .member t r

theorem membersTail_of_closed (h : ts = [] ∨ ahead ts = .rightBrace) :
    membersTail ts = Step.expect .rightBrace ts := by
  rcases ts with _ | ⟨t, r⟩
  · rw [membersTail]
  · rw [membersTail]
    exact if_pos (h.resolve_left (List.cons_ne_nil t r))

theorem loops_members (ts : List Token) : Loops members (Step.expect .rightBrace) (membersTail ts) := by
  refine .deeper members.eq_2 (loops_until membersTail_of_closed fun hts hopen => ?_)
  obtain ⟨t, r, rfl⟩ := List.exists_cons_of_ne_nil hts
  rw [membersTail, if_neg (show t.kind ≠ .rightBrace from hopen)]
  exact (makes_member t r).loops (loops_members _)
termination_by ts.length
decreasing_by all_goals grind

theorem makes_classBody (r : List Token) (ht : t.kind = .leftBrace) :
    Makes classBody ((((membersTail r).lead false t).node .classBody).lift t) := by
  have hbody := (((loops_members r).makes (makes_expect (by decide))).lead false t).node .classBody (by decide)
  simp only [bind_assoc] at hbody
  exact Looks.makes (looks_assert ht r) hbody

theorem makes_declaredBody (ts : List Token) : Makes declaredBody (Grammar.classBody ts) := by
  refine (looks_isAt ts .leftBrace).makes ?_
  rcases ts with _ | ⟨t, r⟩
  · exact makes_report .classBody []
  · rw [Grammar.classBody]
    exact .ite beq_iff_eq (makes_classBody r) fun _ => makes_report .classBody (t :: r)

theorem makes_className (ts : List Token) : Makes (fun _ => className) (Grammar.className ts) := by
  refine (looks_isAt ts .ident).makes ?_
  rcases ts with _ | ⟨t, r⟩
  · exact makes_report .className []
  · rw [Grammar.className]
    exact .ite beq_iff_eq (fun _ => makes_bump true t r) fun _ => makes_report .className (t :: r)

theorem makes_classDeclaration (ts : List Token) : Makes classDeclaration (Grammar.classDeclaration ts) := by
  have hnamed := ((makes_modifierList ts).andThen (makes_expect (k := .classKw) (by decide) _)).andThen
    (makes_className _)
  have hclass := (hnamed.andThen (makes_declaredBody _)).node .classDeclaration (by decide)
  simp only [bind_assoc] at hclass
  exact hclass

theorem makes_declaration (t : Token) (r : List Token) : Makes declaration
    (if classStart.contains t.kind = true then Grammar.classDeclaration (t :: r)
      else (Step.skip .classDeclaration t r).lift t) :=
  (looks_isAtAny (t :: r) classStart).makes
    (.ite Iff.rfl (fun _ => makes_classDeclaration (t :: r)) fun _ => makes_skip .classDeclaration t r)

theorem makes_classDeclarations (ts : List Token) :
    Makes classDeclarations (Grammar.classDeclarations ts) := by
  refine .deeper classDeclarations.eq_2 ((looks_atEnd ts).makes ?_)
  rcases ts with _ | ⟨t, r⟩
  · rw [Grammar.classDeclarations]
    exact makes_idle []
  rw [Grammar.classDeclarations, fun_if_neg (by simp)]
  have hdeclaration := makes_declaration t r
  by_cases hclass : classStart.contains t.kind = true
  · have hread := length_rest_classDeclaration_lt (r := r) hclass
    rw [if_pos hclass] at hdeclaration
    rw [dif_pos hclass]
    exact hdeclaration.andThen (makes_classDeclarations _)
  · rw [if_neg hclass] at hdeclaration
    rw [dif_neg hclass]
    exact hdeclaration.andThen (makes_classDeclarations r)
termination_by ts.length
decreasing_by all_goals grind

end JavaSyntax.Recording
