import JavaSyntax.Proofs.Expression.Follow

namespace JavaSyntax

open Grammar Word

variable {ts us r m : List Token} {b c a : Branch} {bs : List Branch}

/-- Any operand that is this node in the end is read on up to `c`, and `r` is left. -/
def Continues (b : Branch) (m : List Token) (c : Branch) (r : List Token) : Prop :=
  ∀ operand, Stands operand b → (suffixedTail b.kind operand m).Yields c r

theorem continues_end (hdot : ahead r ≠ .dot) (hcolon : ahead r ≠ .colonColon) :
    Continues b r b r := by
  intro operand hoperand
  cases r with
  | nil =>
    rw [suffixedTail]
    exact Operand.yields_done hoperand []
  | cons t r =>
    rw [suffixedTail, if_neg (by simpa using hdot), if_neg (by simpa using hcolon)]
    exact Operand.yields_done hoperand (t :: r)

theorem suffixed_of_primary (h : (primary ts).Yields b m) (hm : Continues b m c r) :
    (suffixed ts).Yields c r := by
  rw [suffixed]
  exact h.resume hm

theorem Continues.field {s s' : Nat} {f : Identifier}
    (h : Continues (.bare .fieldAccess (some f.text) [b]) m c r) (hm : ahead m ≠ .leftParen) :
    Continues b (⟨dot.kind, dot.text, s⟩ :: ⟨f.word.kind, f.word.text, s'⟩ :: m) c r := by
  intro operand hoperand
  have haccess := (((Step.yields_idle m).lead_true ⟨f.word.kind, f.word.text, s'⟩).lead_false
    ⟨dot.kind, dot.text, s⟩).around hoperand .fieldAccess
  rw [Branch.settleFirst_bare rfl] at haccess
  rw [suffixedTail, if_pos rfl, selection, if_pos rfl, if_neg hm]
  exact ((haccess.goOn h).lift _).lift _

theorem Continues.call {s s' : Nat} {f : Identifier} (hm : ahead m = .leftParen)
    (harguments : (argumentList m).Yields [] [a] us)
    (h : Continues (.bare .methodCall (some f.text) [b, a]) us c r) :
    Continues b (⟨dot.kind, dot.text, s⟩ :: ⟨f.word.kind, f.word.text, s'⟩ :: m) c r := by
  intro operand hoperand
  have hcall := ((harguments.lead_true ⟨f.word.kind, f.word.text, s'⟩).lead_false
    ⟨dot.kind, dot.text, s⟩).around hoperand .methodCall
  rw [Branch.settleFirst_bare rfl] at hcall
  rw [suffixedTail, if_pos rfl, selection, if_pos rfl, if_pos hm]
  exact ((hcall.goOn h).lift _).lift _

theorem Continues.classLiteral {s s' : Nat} (hb : b.kind = .ambiguousName ∨ b.kind.isType = true)
    (h : Continues (Branch.bare .classLiteral none [b]).settleFirst m c r) :
    Continues b (⟨dot.kind, dot.text, s⟩ :: ⟨classKw.kind, classKw.text, s'⟩ :: m) c r := by
  intro operand hoperand
  have hliteral := (((Step.yields_idle m).lead_false ⟨classKw.kind, classKw.text, s'⟩).lead_false
    ⟨dot.kind, dot.text, s⟩).around hoperand .classLiteral
  rw [suffixedTail, if_pos rfl, selection, if_neg (by simp), if_pos ⟨rfl, hb⟩]
  exact ((hliteral.goOn h).lift _).lift _

theorem Continues.thisExpression {s s' : Nat} (hb : b.kind = .ambiguousName)
    (h : Continues (Branch.bare .thisExpression none [b]).settleFirst m c r) :
    Continues b (⟨dot.kind, dot.text, s⟩ :: ⟨thisKw.kind, thisKw.text, s'⟩ :: m) c r := by
  intro operand hoperand
  have hreceiver := (((Step.yields_idle m).lead_false ⟨thisKw.kind, thisKw.text, s'⟩).lead_false
    ⟨dot.kind, dot.text, s⟩).around hoperand .thisExpression
  rw [suffixedTail, if_pos rfl, selection, if_neg (by simp), if_neg (by simp), if_pos ⟨rfl, hb⟩]
  exact ((hreceiver.goOn h).lift _).lift _

theorem yields_referenceName (target : ReferenceTarget) (s : Nat) (r : List Token) :
    (referenceName (⟨target.word.kind, target.word.text, s⟩ :: r)).Yields [target.word.text] [] r := by
  rw [referenceName, if_pos (by cases target <;> simp [ReferenceTarget.word])]
  exact Step.yields_bump_true _ r

theorem Continues.reference {s s' : Nat} {target : ReferenceTarget}
    (harguments : (typeArguments? m).Yields [] bs (⟨target.word.kind, target.word.text, s'⟩ :: us))
    (h : Continues (Branch.bare .methodReference (some target.word.text) (b :: bs)).settleFirst us
      c r) :
    Continues b (⟨colonColon.kind, colonColon.text, s⟩ :: m) c r := by
  intro operand hoperand
  have hreference := ((harguments.andThen (yields_referenceName target s' us)).lead_false
    ⟨colonColon.kind, colonColon.text, s⟩).around hoperand .methodReference
  rw [List.append_nil] at hreference
  rw [suffixedTail, if_neg (by simp), if_pos rfl]
  exact (hreference.goOn h).lift _

/-- What stands after `::`. -/
theorem continues_reference {a : GenericArguments} {target : ReferenceTarget}
    (hts : Spelled (.colonColon :: (a.words ++ [target.word])) ts)
    (h : Continues (Branch.bare .methodReference (some target.word.text) (b :: a.trees)).settleFirst m
      c r) : Continues b (ts ++ m) c r := by
  obtain ⟨s, _, rfl, hmore⟩ := hts.cons
  obtain ⟨vs, _, rfl, hvs, htarget⟩ := hmore.append
  obtain ⟨s', _, rfl, hnil⟩ := htarget.cons
  have harguments := GenericArguments.yields (r := ⟨target.word.kind, target.word.text, s'⟩ :: m) hvs
    (by cases target <;> simp [ReferenceTarget.word])
  rw [hnil.nil, List.cons_append, List.append_assoc]
  exact .reference harguments h

theorem LiteralText.yields (l : LiteralText) (s : Nat) (r : List Token) :
    (primary (⟨l.word.kind, l.word.text, s⟩ :: r)).Yields (.bare .literal (some l.text) []) r := by
  have hliteral := (Step.yields_bump_true ⟨l.word.kind, l.word.text, s⟩ r).found .literal
  rw [Branch.settleFirst_bare rfl] at hliteral
  rw [primary, if_pos l.isLiteral]
  exact hliteral

theorem yields_this (s : Nat) (r : List Token) :
    (primary (⟨thisKw.kind, thisKw.text, s⟩ :: r)).Yields (.bare .thisExpression none []) r := by
  rw [primary, if_neg (by simp; decide), if_neg (by simp), if_neg (by simp; decide), if_pos rfl]
  exact (Step.yields_bump_false ⟨thisKw.kind, thisKw.text, s⟩ r).found .thisExpression

theorem yields_parens {s s' : Nat}
    (h : (expr ts).Yields b (⟨rightParen.kind, rightParen.text, s'⟩ :: r)) :
    (primary (⟨leftParen.kind, leftParen.text, s⟩ :: ts)).Yields
      (.bare .parenthesizedExpression none [b]) r := by
  have hinner := h.toStep.andThen (Step.yields_expect (k := .rightParen) rfl r)
  have hparens := ((hinner.lead_false ⟨leftParen.kind, leftParen.text, s⟩).lift
    ⟨leftParen.kind, leftParen.text, s⟩).found .parenthesizedExpression
  rw [Branch.settleFirst_bare rfl] at hparens
  rw [primary, if_neg (by simp; decide), if_neg (by simp), if_neg (by simp; decide),
    if_neg (by simp), if_pos rfl]
  exact hparens

theorem yields_call {f : Identifier} {s : Nat} (hm : ahead m = .leftParen)
    (harguments : (argumentList m).Yields [] [a] r) :
    (primary (⟨f.word.kind, f.word.text, s⟩ :: m)).Yields (.bare .methodCall (some f.text) [a]) r := by
  have hcall := ((harguments.lead_true ⟨f.word.kind, f.word.text, s⟩).lift
    ⟨f.word.kind, f.word.text, s⟩).found .methodCall
  rw [Branch.settleFirst_bare rfl] at hcall
  rw [primary, if_neg (by simp; decide), if_pos rfl, if_pos hm]
  exact hcall

theorem yields_construct {n : DottedName} {s : Nat} (hts : Spelled n.words ts) (hname : EndsName m)
    (htypes : (typeArguments? m).Yields [] bs us) (harguments : (argumentList us).Yields [] [a] r) :
    (primary (⟨newKw.kind, newKw.text, s⟩ :: (ts ++ m))).Yields
      (.bare .constructorCall none [.bare .classType (some n.text) bs, a]) r := by
  obtain ⟨t, vs, rfl, ht, hclass⟩ := TypeSyntax.yields_classType hts hname htypes
  have hmade : (constructedClass (t :: (vs ++ m))).Yields []
      [.bare .classType (some n.text) bs] us := by
    rw [constructedClass, if_pos ht]
    exact hclass.toStep.lift t
  have hcall := (((hmade.andThen harguments).lead_false ⟨newKw.kind, newKw.text, s⟩).lift
    ⟨newKw.kind, newKw.text, s⟩).found .constructorCall
  rw [Branch.settleFirst_bare rfl] at hcall
  rw [primary, if_neg (by simp; decide), if_neg (by simp), if_neg (by simp; decide),
    if_neg (by simp), if_neg (by simp), if_pos rfl]
  exact hcall

/-- The segments of a name in front of what is neither a segment nor an argument list. -/
theorem yields_nameSegments (hr : nameSegments r = .idle r) (hparen : ahead r ≠ .leftParen) :
    ∀ {others : List Identifier} {ts : List Token},
      Spelled (others.flatMap fun i => [.dot, i.word]) ts →
        ahead (ts ++ r) ≠ .leftParen ∧
          (nameSegments (ts ++ r)).Yields (others.flatMap fun i => [".", i.text]) [] r
  | [], ts, hts => by
    rw [hts.nil, List.nil_append, hr]
    exact ⟨hparen, Step.yields_idle r⟩
  | i :: others, ts, hts => by
    obtain ⟨s, _, rfl, hi⟩ := hts.cons
    obtain ⟨s', us, rfl, hus⟩ := hi.cons
    obtain ⟨hahead, hsegments⟩ := yields_nameSegments hr hparen hus
    refine ⟨by simp, ?_⟩
    rw [List.cons_append, List.cons_append, nameSegments, if_pos ⟨rfl, rfl, hahead⟩]
    exact ((hsegments.lead_true _).lead_true _).lift _ |>.lift _

/-- The name is not continued, and what comes after it makes it neither a call nor a type. -/
structure EndsOperandName (r : List Token) : Prop where
  segments : nameSegments r = .idle r
  ne_leftParen : ahead r ≠ .leftParen
  apart : Apart r

theorem DottedName.yields {n : DottedName} (hts : Spelled n.words ts) (hr : EndsOperandName r) :
    (primary (ts ++ r)).Yields (.bare .ambiguousName (some n.text) []) r := by
  have hexplicit := atExplicitTypeQualifier_name hts hr.apart
  obtain ⟨s, us, rfl, hus⟩ := Spelled.cons hts
  obtain ⟨hahead, hsegments⟩ := yields_nameSegments hr.segments hr.ne_leftParen hus
  have hname := ((hsegments.lead_true ⟨n.first.word.kind, n.first.word.text, s⟩).found
    .ambiguousName).lift ⟨n.first.word.kind, n.first.word.text, s⟩
  rw [Branch.settleFirst_bare rfl, n.joined_texts] at hname
  rw [List.cons_append] at hexplicit ⊢
  rw [primary, if_neg (by simp; decide), if_pos rfl, if_neg hahead, if_neg (by simp [hexplicit])]
  exact hname

namespace TypeSyntax

/-- In front of `::` stands a type that is no name, in front of `.class` one that is no class type. -/
def StandsBefore (type : TypeSyntax) (r : List Token) : Prop :=
  (type.isExplicit = true ∧ ahead r = .colonColon) ∨
    (type.hasClass = true ∧ ahead r = .dot ∧ ahead (r.drop 1) = .classKw)

theorem StandsBefore.endsType {type : TypeSyntax} (h : type.StandsBefore r) : EndsType r := by
  rcases h with ⟨-, hr⟩ | ⟨-, hr, hclass⟩
  · exact endsType_of_ne (by simp [hr])
  · exact ⟨fun _ => by simp [hclass, -List.drop_one], by simp [hr], by simp [hr]⟩

/-- The end of a type, with the kind `l`, that makes it a qualifier in front of `r`. -/
def Qualifies (l : Kind) (r : List Token) : Prop :=
  (l = .gt ∧ ahead r = .colonColon) ∨
    (l = .rightBracket ∧ (ahead r = .colonColon ∨ ahead r = .dot ∧ ahead (r.drop 1) = .classKw))

theorem atExplicitTypeQualifier_of_skips {t : Token} {l : Kind}
    (hsecond : ahead ts = .lt ∨ ahead ts = .leftBracket ∨ ahead ts = .dot)
    (hskips : Skips (skipType (t :: ts)) l r) (h : Qualifies l r) :
    atExplicitTypeQualifier (t :: ts) = true := by
  obtain ⟨s, hs, rfl, rfl⟩ := hskips
  unfold atExplicitTypeQualifier
  dsimp only
  rw [hs, Bool.and_eq_true]
  refine ⟨by simpa [or_assoc] using hsecond, ?_⟩
  rcases h with ⟨hlast, hcolon⟩ | ⟨hlast, hcolon | ⟨hdot, hclass⟩⟩
  · simp [hlast, hcolon]
  · simp [hlast, hcolon]
  · simp [hlast, hdot, hclass, -List.drop_one]

/-- A class type with arguments or dimensions as an operand. -/
theorem yields_classOperand {n : DottedName} {l : Kind} (hts : Spelled n.words ts)
    (hm : ahead m = .lt ∨ ahead m = .leftBracket) (htype : (Grammar.type false (ts ++ m)).Yields b r)
    (hskips : Skips (skipType (ts ++ m)) l r) (h : Qualifies l r) :
    (primary (ts ++ m)).Yields b r := by
  obtain ⟨s, us, rfl, hus⟩ := Spelled.cons hts
  have hsecond : ahead (us ++ m) = .lt ∨ ahead (us ++ m) = .leftBracket ∨ ahead (us ++ m) = .dot := by
    cases hothers : n.others with
    | nil =>
      rw [hothers] at hus
      rw [hus.nil, List.nil_append, ← or_assoc]
      exact .inl hm
    | cons i others =>
      rw [hothers] at hus
      exact .inr (.inr (ahead_append (Spelled.ahead_eq hus) (by simp) m))
  have hparen : ahead (us ++ m) ≠ .leftParen := by
    intro hparen
    simp [hparen] at hsecond
  rw [List.cons_append] at htype hskips ⊢
  rw [primary, if_neg (by simp; decide), if_pos rfl, if_neg hparen,
    if_pos (atExplicitTypeQualifier_of_skips hsecond hskips h)]
  exact htype

theorem qualifies_dimensions {n : Nat} {type : TypeSyntax} (h : type.StandsBefore r) (hn : n ≠ 0)
    (l : Kind) : Qualifies (lastOf l n) r := by
  refine .inr ⟨if_neg hn, ?_⟩
  rcases h with ⟨-, hr⟩ | ⟨-, hr⟩
  · exact .inl hr
  · exact .inr hr

/-- A type that stands in an expression is read as one. -/
theorem yields_operand : ∀ {type : TypeSyntax} {ts r : List Token}, Spelled type.words ts →
    type.StandsBefore r → (primary (ts ++ r)).Yields type.tree r
  | .primitive p n, ts, r, hts, hr => by
    have htype := yields hts hr.endsType
    obtain ⟨s, us, rfl, hus⟩ := Spelled.cons hts
    have hnot : ¬ literalTokens.contains p.kind = true ∧ p.kind ≠ .ident := by cases p <;> decide
    have hafter : ahead r = .colonColon ∨ ahead r = .dot ∧ ahead (r.drop 1) = .classKw := by
      rcases hr with ⟨-, hr⟩ | ⟨-, hr⟩
      · exact .inl hr
      · exact .inr hr
    rw [← htype.rest] at hafter
    rw [List.cons_append] at htype hafter ⊢
    rw [primary, if_neg hnot.1, if_neg hnot.2, if_pos p.contains_kind, primitiveOperand]
    dsimp only
    rw [if_pos hafter]
    exact htype
  | .named name n, ts, r, hts, hr => by
    have htype := yields hts hr.endsType
    have hskips := skips hts hr.endsType
    obtain ⟨ns, ds, rfl, hns, hds⟩ := Spelled.append hts
    have hn : n ≠ 0 := by
      rcases hr with ⟨hexplicit, -⟩ | ⟨hclass, -⟩
      · simpa [isExplicit] using hexplicit
      · simpa [hasClass] using hclass
    rcases ahead_dimensionWords hds with ⟨hzero, -⟩ | ⟨t, us, rfl, ht⟩
    · exact absurd hzero hn
    rw [List.append_assoc] at htype hskips ⊢
    exact yields_classOperand hns (.inr ht) htype hskips (qualifies_dimensions hr hn .ident)
  | .generic name arguments n, ts, r, hts, hr => by
    have htype := yields hts hr.endsType
    have hskips := skips hts hr.endsType
    obtain ⟨ns, _, rfl, hns, hls⟩ := Spelled.append hts
    obtain ⟨s, us, rfl, hus⟩ := Spelled.cons hls
    have hlast : Qualifies (lastOf .gt n) r := by
      by_cases hn : n = 0
      · rcases hr with ⟨-, hcolon⟩ | ⟨hclass, -⟩
        · exact .inl ⟨if_pos hn, hcolon⟩
        · simp [hasClass, hn] at hclass
      · exact qualifies_dimensions hr hn .gt
    rw [List.append_assoc] at htype hskips ⊢
    exact yields_classOperand hns (.inl rfl) htype hskips hlast

end TypeSyntax

end JavaSyntax
