import JavaSyntax.Proofs.Expression.Reading
import JavaSyntax.Proofs.Expression.Settled

namespace JavaSyntax

open Grammar Word

variable {ts us r m : List Token} {b b' c : Branch}

namespace Term

/-- After `(` or a comma: an argument, then what comes after it. -/
theorem yields_argument {e : Term} {bs : List Branch} (hwf : e.WellFormed) (he : e.Reads)
    (hts : Spelled e.words ts)
    (hm : EndsExpression m ∧ Apart m ∧ (argumentsMore m).Yields [] bs r) :
    (argumentsTail (ts ++ m)).Yields [] (e.tree :: bs) r := by
  obtain ⟨hend, hapart, hmore⟩ := hm
  have hvalue := he.whole hts hend hapart
  have hstart := startsOperand e hwf hts m
  generalize ts ++ m = us at hvalue hstart ⊢
  cases us with
  | nil => cases hstart
  | cons t us =>
    have hparen : t.kind ≠ .rightParen := hstart.ne (by decide)
    rw [argumentsTail, if_neg hparen]
    dsimp only
    rw [hvalue.lead]
    exact hvalue.toStep.andThen hmore

/-- What comes after an argument: further ones, then `)`. -/
theorem yields_moreArguments : ∀ {es : List Term} {ts : List Token}, AllWellFormed es →
    (∀ e ∈ es, e.Reads) → Spelled (moreWords es) ts → ∀ (s : Nat) (r : List Token),
      EndsExpression (ts ++ ⟨rightParen.kind, rightParen.text, s⟩ :: r) ∧
        Apart (ts ++ ⟨rightParen.kind, rightParen.text, s⟩ :: r) ∧
          (argumentsMore (ts ++ ⟨rightParen.kind, rightParen.text, s⟩ :: r)).Yields [] (trees es) r
  | [], ts, _, _, hts, s, r => by
    rw [hts.nil, List.nil_append, argumentsMore, if_neg (by simp)]
    exact ⟨.inl rfl, apart_rightParen s r, Step.yields_expect rfl r⟩
  | e :: es, ts, hwf, hes, hts, s, r => by
    refine ⟨?_, apart_moreWords hwf hts rfl, ?_⟩
    all_goals obtain ⟨s', _, rfl, hmore⟩ := Spelled.cons hts
    · exact .inr (.inl rfl)
    · obtain ⟨us, vs, rfl, hus, hvs⟩ := hmore.append
      have htail := yields_argument hwf.1 (hes e List.mem_cons_self) hus
        (yields_moreArguments hwf.2 (fun e he => hes e (List.mem_cons_of_mem _ he)) hvs s r)
      rw [List.cons_append, List.append_assoc, argumentsMore, if_pos rfl]
      exact (htail.lead_false _).lift _

/-- Arguments in parentheses. -/
theorem yields_argumentList {es : List Term} (hwf : AllWellFormed es) (hes : ∀ e ∈ es, e.Reads)
    (hts : Spelled (.leftParen :: argumentWords es ++ [.rightParen]) ts) (r : List Token) :
    ahead (ts ++ r) = .leftParen ∧
      (argumentList (ts ++ r)).Yields [] [.bare .argumentList none (trees es)] r := by
  obtain ⟨s, us, s', rfl, hus⟩ := Spelled.enclosed hts
  have htail : (argumentsTail (us ++ ⟨rightParen.kind, rightParen.text, s'⟩ :: r)).Yields []
      (trees es) r := by
    cases es with
    | nil =>
      rw [hus.nil, List.nil_append, argumentsTail, if_pos rfl]
      exact Step.yields_expect rfl r
    | cons e es =>
      obtain ⟨vs, ws, rfl, hvs, hws⟩ := Spelled.append hus
      rw [List.append_assoc]
      exact yields_argument hwf.1 (hes e List.mem_cons_self) hvs
        (yields_moreArguments hwf.2 (fun e he => hes e (List.mem_cons_of_mem _ he)) hws s' r)
  have hlist := ((htail.lead_false ⟨leftParen.kind, leftParen.text, s⟩).node .argumentList).lift
    ⟨leftParen.kind, leftParen.text, s⟩
  rw [Branch.settleFirst_bare rfl] at hlist
  refine ⟨rfl, ?_⟩
  rw [List.cons_append, List.append_assoc, argumentList, if_pos rfl]
  exact hlist

theorem readsSuffixed_literal (l : LiteralText) : (literal l).ReadsSuffixed := by
  intro ts m r c hts _ _ hm
  obtain ⟨s, us, rfl, hus⟩ := Spelled.cons hts
  rw [hus.nil]
  exact suffixed_of_primary (l.yields s m) hm

theorem readsSuffixed_this : this.ReadsSuffixed := by
  intro ts m r c hts _ _ hm
  obtain ⟨s, us, rfl, hus⟩ := Spelled.cons hts
  rw [hus.nil]
  exact suffixed_of_primary (yields_this s m) hm

theorem readsSuffixed_name (n : DottedName) : (name n).ReadsSuffixed := by
  intro ts m r c hts _ hname hm
  exact suffixed_of_primary (n.yields hts (hname rfl)) hm

theorem readsSuffixed_outerThis (n : DottedName) : (outerThis n).ReadsSuffixed := by
  intro ts m r c hts _ _ hm
  obtain ⟨us, s, s', rfl, hus⟩ := Spelled.selection hts
  rw [List.append_assoc]
  exact suffixed_of_primary (n.yields hus (endsOperandName_dot rfl (by simp) m))
    (.thisExpression rfl hm)

theorem readsSuffixed_nameClass (n : DottedName) : (nameClass n).ReadsSuffixed := by
  intro ts m r c hts _ _ hm
  obtain ⟨us, s, s', rfl, hus⟩ := Spelled.selection hts
  rw [List.append_assoc]
  exact suffixed_of_primary (n.yields hus (endsOperandName_dot rfl (by simp) m))
    (.classLiteral (.inl rfl) hm)

theorem readsSuffixed_typeClass {t : TypeSyntax} (hwf : (typeClass t).WellFormed) :
    (typeClass t).ReadsSuffixed := by
  intro ts m r c hts _ _ hm
  obtain ⟨us, s, s', rfl, hus⟩ := Spelled.selection hts
  rw [List.append_assoc]
  refine suffixed_of_primary (t.yields_operand hus (.inr ⟨hwf, rfl, rfl⟩))
    (.classLiteral (.inr t.isType_tree) ?_)
  rw [t.settleFirst_classLiteral]
  exact hm

theorem readsSuffixed_typeReference {t : TypeSyntax} {a : GenericArguments} {target : ReferenceTarget}
    (hwf : (typeReference t a target).WellFormed) : (typeReference t a target).ReadsSuffixed := by
  intro ts m r c hts _ _ hm
  obtain ⟨us, vs, rfl, hus, hvs⟩ := Spelled.append hts
  have hbefore : t.StandsBefore (vs ++ m) :=
    .inl ⟨hwf, ahead_append (Spelled.ahead_eq hvs) (by decide) m⟩
  rw [List.append_assoc]
  refine suffixed_of_primary (t.yields_operand hus hbefore) (continues_reference hvs ?_)
  rw [t.settleFirst_methodReference]
  exact hm

theorem readsSuffixed_parens {e : Term} (he : e.Reads) : (parens e).ReadsSuffixed := by
  intro ts m r c hts _ _ hm
  obtain ⟨s, us, s', rfl, hus⟩ := Spelled.enclosed hts
  have hinner := he.whole hus (endsExpression_rightParen s' m) (apart_rightParen s' m)
  rw [List.cons_append, List.append_assoc]
  exact suffixed_of_primary (yields_parens hinner) hm

theorem readsSuffixed_construct {n : DottedName} {a : GenericArguments} {es : List Term}
    (hwf : AllWellFormed es) (hes : ∀ e ∈ es, e.Reads) : (construct n a es).ReadsSuffixed := by
  intro ts m r c hts _ _ hm
  obtain ⟨s, _, rfl, hnew⟩ := Spelled.cons hts
  obtain ⟨us, _, rfl, hus, hmore⟩ := Spelled.append hnew
  obtain ⟨vs, ws, rfl, hvs, hws⟩ := Spelled.append hmore
  obtain ⟨hparen, hlist⟩ := yields_argumentList hwf hes hws m
  have htypes := GenericArguments.yields (r := ws ++ m) hvs (by simp [hparen])
  have hname : EndsName (vs ++ (ws ++ m)) :=
    GenericArguments.endsName hvs (endsName_of_ne (by simp [hparen]))
  rw [List.cons_append, List.append_assoc, List.append_assoc]
  exact suffixed_of_primary (yields_construct hus hname htypes hlist) hm

theorem readsSuffixed_call {f : Identifier} {es : List Term} (hwf : AllWellFormed es)
    (hes : ∀ e ∈ es, e.Reads) : (call f es).ReadsSuffixed := by
  intro ts m r c hts _ _ hm
  obtain ⟨s, us, rfl, hus⟩ := Spelled.cons hts
  obtain ⟨hparen, hlist⟩ := yields_argumentList hwf hes hus m
  exact suffixed_of_primary (yields_call hparen hlist) hm

theorem readsSuffixed_callOn {q : Term} {f : Identifier} {es : List Term} (hq : q.ReadsSuffixed)
    (hwf : AllWellFormed es) (hes : ∀ e ∈ es, e.Reads) : (callOn q f es).ReadsSuffixed := by
  intro ts m r c hts _ _ hm
  obtain ⟨us, s, _, rfl, hus, hf⟩ := Spelled.middle hts
  obtain ⟨s', vs, rfl, hvs⟩ := Spelled.cons hf
  obtain ⟨hparen, hlist⟩ := yields_argumentList hwf hes hvs m
  rw [List.append_assoc]
  exact hq hus (by simp) (fun _ => endsOperandName_call hparen) (.call hparen hlist hm)

theorem readsSuffixed_field {q : Term} {f : Identifier} (hq : q.ReadsSuffixed)
    (hname : q.isName = false) : (field q f).ReadsSuffixed := by
  intro ts m r c hts hparen _ hm
  obtain ⟨us, s, s', rfl, hus⟩ := Spelled.selection hts
  rw [List.append_assoc]
  exact hq hus (by simp) (by simp [hname]) (.field hm hparen)

theorem readsSuffixed_reference {q : Term} {a : GenericArguments} {target : ReferenceTarget}
    (hq : q.ReadsSuffixed) : (reference q a target).ReadsSuffixed := by
  intro ts m r c hts _ _ hm
  obtain ⟨us, vs, rfl, hus, hvs⟩ := Spelled.append hts
  have hcolon : ahead (vs ++ m) = .colonColon := ahead_append (Spelled.ahead_eq hvs) (by decide) m
  have hname : EndsOperandName (vs ++ m) := endsOperandName_of_ne (by simp [hcolon])
    (by simp [hcolon]) ((endsType_of_ne (by simp [hcolon])).apart_of_ne (by simp [hcolon]))
  rw [List.append_assoc]
  refine hq hus (by simp [hcolon]) (fun _ => hname) (continues_reference hvs ?_)
  rw [q.settleFirst_reference]
  exact hm

theorem readsUnary_unary {o : UnaryOperator} {e : Term} (he : e.ReadsUnary) :
    (unary o e).ReadsUnary := by
  intro ts r hts hend hr
  obtain ⟨s, us, rfl, hus⟩ := Spelled.cons hts
  have hoperand := he hus hend (fun _ => hr rfl)
  have hfound := ((hoperand.toStep.lead_true ⟨o.word.kind, o.word.text, s⟩).lift
    ⟨o.word.kind, o.word.text, s⟩).found .unaryExpression
  rw [Branch.settleFirst_bare rfl] at hfound
  have hsign : o.kind = .bang ∨ o.kind = .minus := by cases o <;> decide
  rw [List.cons_append, Grammar.unary, if_pos hsign]
  exact hfound

/-- An assignment, whose value may be one itself. -/
theorem readsWhole_assign {o : AssignmentOperator} {e e' : Term} (he : e.ReadsBinary)
    (hlevel : 1 ≤ e.level) (he' : e'.ReadsWhole) : (assign o e e').ReadsWhole := by
  intro ts r hts hend hr
  obtain ⟨us, s, vs, rfl, hus, hvs⟩ := Spelled.middle hts
  have hoperator : EndsOperand (⟨o.word.kind, o.word.text, s⟩ :: (vs ++ r)) := by
    cases o <;>
      exact ⟨by simp [AssignmentOperator.kind], by simp [AssignmentOperator.kind],
        by simp [AssignmentOperator.kind]⟩
  have hnone : precedence? o.kind = none := by cases o <;> rfl
  have htarget : (Grammar.binary (us ++ ⟨o.word.kind, o.word.text, s⟩ :: (vs ++ r)) 1).Yields e.tree
      (⟨o.word.kind, o.word.text, s⟩ :: (vs ++ r)) := by
    refine he hus hlevel hoperator (fun _ => apart_assignment o s _) ?_
      fun operand => binaryTail_of_weaker ?_
    all_goals simp [hnone]
  rw [List.append_assoc, expr]
  exact htarget.resume fun operand => assignment_operator (he' hvs hend hr)

/-- Two operands that bind strongly enough for the operator between them. -/
theorem readsBinary_binary {o : BinaryOperator} {e e' : Term} (he : e.ReadsBinary)
    (he' : e'.ReadsBinary) (hwf : (binary o e e').WellFormed) : (binary o e e').ReadsBinary := by
  obtain ⟨-, hwf', hlevel, hlevel'⟩ := hwf
  intro ts m r c weakest hts hweakest hend hm hstrength htail
  obtain ⟨us, s, vs, rfl, hus, hvs⟩ := Spelled.middle hts
  have hopen : Apart m := hm (isClosed_binary o e e')
  have hstrength : ∀ strength, precedence? (ahead m) = some strength → strength ≤ o.strength :=
    hstrength
  -- the right operand ends in front of `m`, because no operator there binds more strongly
  have hright : (Grammar.binary (vs ++ m) (o.strength + 1)).Yields e'.tree m := by
    refine he' hvs hlevel' hend (fun _ => hopen) ?_ fun operand => binaryTail_of_weaker ?_
    · intro strength h
      exact Nat.le_trans (hstrength strength h) (Nat.le_of_lt hlevel')
    · intro strength h
      exact Nat.lt_succ_of_le (hstrength strength h)
  have hoperator : EndsOperand (⟨o.word.kind, o.word.text, s⟩ :: (vs ++ m)) := by
    cases o <;> exact ⟨by simp [BinaryOperator.kind], by simp [BinaryOperator.kind],
      by simp [BinaryOperator.kind]⟩
  have hapart : Apart (⟨o.word.kind, o.word.text, s⟩ :: (vs ++ m)) :=
    apart_operator (startsOperand e' hwf' hvs m) (operandBehind hwf' hvs fun _ => hopen)
  rw [List.append_assoc]
  refine he hus (Nat.le_trans hweakest hlevel) hoperator (fun _ => hapart) ?_ fun operand =>
    binaryTail_operator hweakest hright htail
  intro strength h
  rw [List.cons_append, ahead_cons, precedence_operator] at h
  cases h
  exact hlevel

mutual

/-- A well-formed term is read as it is written. -/
theorem reads : ∀ {e : Term}, e.WellFormed → e.Reads
  | .literal l, h => (readsSuffixed_literal l).reads h rfl
  | .this, h => readsSuffixed_this.reads h rfl
  | .name n, h => (readsSuffixed_name n).reads h rfl
  | .outerThis n, h => (readsSuffixed_outerThis n).reads h rfl
  | .nameClass n, h => (readsSuffixed_nameClass n).reads h rfl
  | .typeClass _, h => (readsSuffixed_typeClass h).reads h rfl
  | .parens e, h => (readsSuffixed_parens (reads (e := e) h)).reads h rfl
  | .construct _ _ es, h => (readsSuffixed_construct h (readsAll es h)).reads h rfl
  | .call _ es, h => (readsSuffixed_call h (readsAll es h)).reads h rfl
  | .callOn _ _ es, h =>
    (readsSuffixed_callOn ((reads h.1).suffixed h.2.1) h.2.2 (readsAll es h.2.2)).reads h rfl
  | .field _ _, h => (readsSuffixed_field ((reads h.1).suffixed h.2.1) h.2.2).reads h rfl
  | .reference _ _ _, h => (readsSuffixed_reference ((reads h.1).suffixed h.2)).reads h rfl
  | .typeReference _ _ _, h => (readsSuffixed_typeReference h).reads h rfl
  | .unary _ _, h => (readsUnary_unary ((reads h.1).unary h.2)).reads rfl
  | .binary o e e', h => by
    have hleft := (reads h.1).binary (Nat.le_trans o.strength_pos h.2.2.1)
    have hright := (reads h.2.1).binary (Nat.le_trans o.strength_pos (Nat.le_of_lt h.2.2.2))
    exact (readsBinary_binary hleft hright h).reads ⟨o.strength_pos, o.strength_le⟩
  | .assign _ _ _, h =>
    (readsWhole_assign ((reads h.1).binary h.2.2) h.2.2 (reads h.2.1).whole).reads rfl

theorem readsAll : ∀ (es : List Term), AllWellFormed es → ∀ e ∈ es, e.Reads
  | [], _ => by simp
  | _ :: es, h => List.forall_mem_cons.mpr ⟨reads h.1, readsAll es h.2⟩

end

end Term

/-- Printing and parsing an expression gives its tree again, with the names settled that their
surroundings settle, and reports no error. -/
theorem parseExpression_print {e : Term} (h : e.WellFormed) :
    ∃ p, parseExpression e.print = .ok p ∧ p.errors = [] ∧
      p.tree.root.unplaced = .bare .expressionStatement none [e.tree] := by
  have hvalue := (Term.reads h).whole (r := []) e.spelled_print (.inr (.inr rfl))
    ((endsType_of_ne (by simp [ahead])).apart_of_ne (by simp [ahead]))
  rw [List.append_nil] at hvalue
  have hall := hvalue.toStep.andThen (f := unexpectedRest) (Step.yields_idle [])
  have hproblems : (loneExpression (significantTokens e.print)).problems = [] := hall.problems
  refine ⟨_, parseExpression_eq e.print, ?_, ?_⟩
  · rw [hproblems]
    rfl
  · change (Piece.tree _ _).disambiguated.unplaced = _
    rw [Piece.unplaced_disambiguated, Branch.settleFirst_bare rfl]
    have htexts : Piece.imageTexts (expressionParts e.print) = [] := hall.texts
    have hshapes : Piece.shapes (expressionParts e.print) = [e.tree] := hall.shapes
    rw [htexts, hshapes]
    rfl

/-- What looks like type arguments is a chain of comparisons, and the name in front of `:: new` is that
of a type. -/
theorem parseExpression_print_comparison : ∃ e : Term, e.WellFormed ∧
    e.print = "a . b ( c ) < d > e :: new" ∧ ∃ p, parseExpression e.print = .ok p ∧ p.errors = [] ∧
      p.tree.root.unplaced = .bare .expressionStatement none
        [.bare .infixExpression (some ">")
          [.bare .infixExpression (some "<")
            [.bare .methodCall (some "b")
              [.bare .ambiguousName (some "a") [],
                .bare .argumentList none [.bare .ambiguousName (some "c") []]],
              .bare .ambiguousName (some "d") []],
            .bare .methodReference (some "new")
              [.bare .typeExpression none [.bare .classType (some "e") []]]]] := by
  have hwf : Term.WellFormed (.binary .gt
      (.binary .lt
        (.callOn (.name ⟨.ofText "a" (by decide), []⟩) (.ofText "b" (by decide))
          [.name ⟨.ofText "c" (by decide), []⟩])
        (.name ⟨.ofText "d" (by decide), []⟩))
      (.reference (.name ⟨.ofText "e" (by decide), []⟩) none .constructor)) := by
    simp [Term.WellFormed, Term.AllWellFormed, Term.level, BinaryOperator.strength]
  exact ⟨_, hwf, by decide, parseExpression_print hwf⟩

end JavaSyntax
