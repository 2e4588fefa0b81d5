import JavaSyntax.Proofs.Grammar.Formed

namespace JavaSyntax.Grammar

open Piece Content Step Computability

variable {clean : Bool}

theorem forms_segments : (ts : List Token) →
    (segments ts).Forms clean (word .dot * word .ident)∗
  | [] | [_] => forms_none _
  | d :: n :: r => by
    rw [segments]
    split
    · next h =>
      have hname : (((segments r).lead true n).lead true d).Forms clean
          (word .dot * (word .ident * (word .dot * word .ident)∗)) :=
        ((forms_segments r).lead true h.2).lead true h.1
      rw [← mul_assoc] at hname
      exact hname.mono fun _ => mem_kstar_cons
    · exact forms_none _

theorem forms_qualifiedName {t : Token} (ht : t.kind = .ident) (r : List Token) :
    (qualifiedName t r).Forms clean dotted :=
  (forms_segments r).lead true ht

theorem forms_annotationName (ts : List Token) : (annotationName ts).Forms clean (due clean dotted) := by
  cases ts with
  | nil => exact (forms_report _ _).mono fun _ => mem_due_of_broken
  | cons t r =>
    rw [annotationName]
    split
    · next ht => exact ((forms_qualifiedName ht r).lift t).mono fun _ => mem_due_of_mem
    · exact (forms_report _ _).mono fun _ => mem_due_of_broken

theorem forms_annotationUse {t : Token} (ht : t.kind = .at) (r : List Token) :
    (annotationUse t r).Forms clean (one .annotationUse) :=
  ((forms_annotationName r).lead false ht).node fun _ => trivial

theorem forms_modifiers (ts : List Token) :
    (modifiers ts).Forms clean (one .modifier + one .annotationUse)∗ := by
  cases ts with
  | nil =>
    rw [modifiers]
    exact forms_none _
  | cons t r =>
    rw [modifiers]
    split
    · next ht =>
      have hm : ((bump true t r).node .modifier).Forms clean (one .modifier) :=
        (forms_bumpOf ht r).node fun _ => trivial
      exact (hm.mono fun _ => Or.inl).many (forms_modifiers r)
    · split
      · next ht =>
        have ha : ((annotationUse t r).lift t).Forms clean (one .annotationUse) :=
          (forms_annotationUse ht r).lift t
        exact (ha.mono fun _ => Or.inr).many (forms_modifiers _)
      · exact forms_none _
termination_by ts.length
decreasing_by all_goals grind

theorem forms_modifierList (ts : List Token) :
    (modifierList ts).Forms clean (one .modifierList) :=
  (forms_modifiers ts).node fun _ => trivial

theorem forms_variableId (ts : List Token) :
    (variableId ts).Forms clean (one .variableDeclaratorId) := by
  have hmissing : ∀ us : List Token, ((report .variableName us).node .variableDeclaratorId).Forms
      clean (one .variableDeclaratorId) := fun us =>
    ((forms_report _ us).mono fun _ => mem_due_of_broken).node fun _ => trivial
  cases ts with
  | nil => exact hmissing []
  | cons t r =>
    rw [variableId]
    split
    · next ht => exact ((forms_bump true ht r).mono fun _ => mem_due_of_mem).node fun _ => trivial
    · exact hmissing _

theorem forms_ellipsis (varargs : Bool) (ts : List Token) :
    (ellipsis varargs ts).Forms clean (one .arrayTypeDim)∗ := by
  cases ts with
  | nil => exact forms_none _
  | cons t r =>
    rw [ellipsis]
    split
    · next h =>
      have hd : ((bump true t r).node .arrayTypeDim).Forms clean (one .arrayTypeDim) :=
        ((forms_bump true h.2 r).mono fun _ => Or.inr).node fun _ => trivial
      exact hd.mono fun _ => mem_kstar_single
    · exact forms_none _

theorem forms_dimensions (varargs : Bool) : (ts : List Token) →
    (dimensions varargs ts).Forms clean (one .arrayTypeDim)∗
  | [] | [_] => forms_ellipsis _ _
  | b :: c :: r => by
    rw [dimensions]
    split
    · next h =>
      have hd : (((idle r).lead true c).lead true b).Forms clean
          (word .leftBracket * (word .rightBracket * 1)) :=
        ((forms_idle r).lead true h.2).lead true h.1
      rw [mul_one] at hd
      have hdim : ((((idle r).lead true c).lead true b).node .arrayTypeDim).Forms clean
          (one .arrayTypeDim) := (hd.mono fun _ => Or.inl).node fun _ => trivial
      exact ((hdim.lift c).lift b).many (forms_dimensions varargs r)
    · exact forms_ellipsis _ _

def IsElement (k : Kind) : Prop := k = .primitiveType ∨ k = .classType

/-- The element type of an array type is not itself an array type. -/
theorem formsOne_withDimensions (varargs : Bool) {ts : List Token} {element : Operand ts}
    (h : element.FormsOne clean IsElement) :
    (withDimensions varargs element).FormsOne clean fun k => k.isType = true := by
  rw [withDimensions]
  split
  · apply h.mono
    rintro k (rfl | rfl) <;> rfl
  · next hne =>
    have helement : element.toStep.Forms clean (one .primitiveType + one .classType) := by
      apply h.toStep
      rintro k (rfl | rfl)
      · exact .inl rfl
      · exact .inr rfl
    have hdims : ((dimensions varargs element.rest).node .arrayDimensions).Forms clean
        (one .arrayDimensions) := by
      refine Forms.node (fun hp => ?_) fun _ => trivial
      obtain ⟨hf, hs⟩ := forms_dimensions varargs element.rest hp
      refine ⟨hf, mem_mul_kstar hs ?_⟩
      simpa [symbols] using hne
    exact Operand.formsOne_found (helement.andThen hdims) (fun _ => trivial) rfl

mutual

theorem formsDue_type (varargs : Bool) (ts : List Token) :
    (type varargs ts).FormsDue clean fun k => k.isType = true := by
  cases ts with
  | nil =>
    rw [type]
    exact Operand.formsDue_missing _ _
  | cons t r =>
    rw [type]
    split
    · next ht =>
      have hprimitive : (Operand.found (bump true t r) .primitiveType).FormsOne clean IsElement :=
        Operand.formsOne_found (forms_bumpOf ht r) (fun _ => trivial) (.inl rfl)
      exact (formsOne_withDimensions varargs hprimitive).due
    · split
      · next ht =>
        have hclass : (classType t r).FormsOne clean IsElement :=
          (formsOne_classType ht r).mono fun _ => Or.inr
        exact (formsOne_withDimensions varargs (hclass.lift t)).due
      · exact Operand.formsDue_missing _ _
termination_by 8 * ts.length
decreasing_by all_goals grind

theorem formsOne_classType {t : Token} (ht : t.kind = .ident) (r : List Token) :
    (classType t r).FormsOne clean fun k => k = .classType := by
  rw [classType]
  exact Operand.formsOne_found
    ((forms_qualifiedName ht r).andThen (forms_typeArguments? (qualifiedName t r).rest))
    (fun _ => trivial) rfl
termination_by 8 * r.length + 5
decreasing_by all_goals grind

theorem forms_typeArguments? (ts : List Token) :
    (typeArguments? ts).Forms clean (1 + one .typeArguments) := by
  cases ts with
  | nil =>
    rw [typeArguments?]
    exact (forms_idle _).mono fun _ => Or.inl
  | cons t r =>
    rw [typeArguments?]
    split
    · next ht =>
      have h : (((typeArgumentsTail r).lead false t).node .typeArguments).Forms clean
          (one .typeArguments) :=
        (((forms_typeArgumentsTail r).lead false ht).of_eq (mul_assoc ..).symm).node fun _ => trivial
      exact (h.lift t).mono fun _ => Or.inr
    · exact (forms_idle _).mono fun _ => Or.inl
termination_by 8 * ts.length + 4
decreasing_by all_goals grind

theorem forms_typeArgumentsTail (ts : List Token) :
    (typeArgumentsTail ts).Forms clean (listed (typed clean) * due clean (mark .gt)) := by
  cases ts with
  | nil =>
    rw [typeArgumentsTail]
    exact (forms_expect _ _).mono fun _ => mem_listed_nil
  | cons t r =>
    rw [typeArgumentsTail]
    split
    · exact (forms_expect _ _).mono fun _ => mem_listed_nil
    · have h : (type false (t :: r)).toStep.Forms clean (typed clean) :=
        (formsDue_type false (t :: r)).toStep fun k hk => ⟨k, hk, rfl⟩
      dsimp only
      split
      · exact (h.andThen (forms_expect _ _)).mono fun _ => mem_listed_last
      · exact (h.andThen (forms_typeArgumentsMore _)).mono fun _ => mem_listed_more
termination_by 8 * ts.length + 3
decreasing_by all_goals grind

theorem forms_typeArgumentsMore (ts : List Token) :
    (typeArgumentsMore ts).Forms clean
      (mark .comma * (listed (typed clean) * due clean (mark .gt)) + due clean (mark .gt)) := by
  cases ts with
  | nil =>
    rw [typeArgumentsMore]
    exact (forms_expect _ _).mono fun _ => Or.inr
  | cons t r =>
    rw [typeArgumentsMore]
    split
    · next ht =>
      exact (((forms_typeArgumentsTail r).lead false ht).lift t).mono fun _ => Or.inl
    · exact (forms_expect _ _).mono fun _ => Or.inr
termination_by 8 * ts.length + 2
decreasing_by all_goals grind

end

theorem forms_type (varargs : Bool) (ts : List Token) :
    (type varargs ts).toStep.Forms clean (typed clean) :=
  (formsDue_type varargs ts).toStep fun k hk => ⟨k, hk, rfl⟩

end JavaSyntax.Grammar
