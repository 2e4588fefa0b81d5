import JavaSyntax.Proofs.Grammar.Reads

namespace JavaSyntax.Grammar

open Piece Step

variable {whole : Bool}

theorem reads_segments : (ts : List Token) → (segments ts).Reads whole [] []
  | [] | [_] => reads_idle _
  | d :: n :: r => by
    rw [segments]
    split
    · next h =>
      have named := (reads_segments r).lead true fun _ => congrArg Kind.isBrace h.2
      have pointed := named.lead true fun _ => congrArg Kind.isBrace h.1
      exact (pointed.lift (b := [d])).lift (b := [])
    · exact reads_idle _

theorem reads_qualifiedName {t : Token} (ht : t.kind = .ident) (r : List Token) :
    (qualifiedName t r).Reads whole [] [t] :=
  (reads_segments r).lead true fun _ => congrArg Kind.isBrace ht

theorem reads_annotationName (ts : List Token) : (annotationName ts).Reads whole [] [] := by
  cases ts with
  | nil => exact reads_report _ _
  | cons t r =>
    rw [annotationName]
    split
    · next ht => exact (reads_qualifiedName ht r).lift (b := [])
    · exact reads_report _ _

theorem reads_annotationUse {t : Token} (ht : t.kind = .at) (r : List Token) :
    (annotationUse t r).Reads whole [] [t] :=
  (reads_annotationName r).opened false ht rfl fun _ => rfl

theorem reads_modifiers (ts : List Token) : (modifiers ts).Reads whole [] [] := by
  cases ts with
  | nil =>
    rw [modifiers]
    exact reads_idle _
  | cons t r =>
    rw [modifiers]
    split
    · next ht =>
      have modifier : (bump true t r).Reads whole [] [] :=
        reads_bump true (fun _ => not_isBrace_of_modifier ht) r
      exact (modifier.free rfl).andThen (reads_modifiers r)
    · split
      · next ht =>
        exact (reads_annotationUse ht r).lift (b := []) |>.andThen (reads_modifiers _)
      · exact reads_idle _
termination_by ts.length
decreasing_by all_goals grind

theorem reads_modifierList (ts : List Token) : (modifierList ts).Reads whole [] [] :=
  (reads_modifiers ts).free rfl

theorem reads_variableId (ts : List Token) : (variableId ts).Reads whole [] [] := by
  cases ts with
  | nil => exact (reads_report _ _).free rfl
  | cons t r =>
    rw [variableId]
    split
    · next ht => exact (reads_bump true (fun _ => congrArg Kind.isBrace ht) r).free rfl
    · exact (reads_report _ _).free rfl

theorem reads_ellipsis (varargs : Bool) (ts : List Token) :
    (ellipsis varargs ts).Reads whole [] [] := by
  cases ts with
  | nil => exact reads_idle _
  | cons t r =>
    rw [ellipsis]
    split
    · next h => exact (reads_bump true (fun _ => congrArg Kind.isBrace h.2) r).free rfl
    · exact reads_idle _

theorem reads_dimensions (varargs : Bool) : (ts : List Token) →
    (dimensions varargs ts).Reads whole [] []
  | [] | [_] => reads_ellipsis _ _
  | b :: c :: r => by
    rw [dimensions]
    split
    · next h =>
      have closed : ((idle r).lead true c).Reads whole [] [c] :=
        (reads_idle r).lead true fun _ => congrArg Kind.isBrace h.2
      have opened := closed.lead true fun _ => congrArg Kind.isBrace h.1
      have dim := opened.free (k := .arrayTypeDim) rfl
      exact (dim.lift (b := [b]) |>.lift (b := [])).andThen (reads_dimensions varargs r)
    · exact reads_ellipsis _ _

/-- Dimensions go around an element type, which stays the first piece. -/
theorem reads_withDimensions (varargs : Bool) {ts : List Token} {element : Operand ts}
    (h : element.Reads whole [] []) (hn : tokensOfAll element.parts ≠ []) :
    (withDimensions varargs element).Reads whole [] [] := by
  rw [withDimensions]
  split
  · exact h
  · have all := h.toReads.andThen
      ((reads_dimensions varargs element.rest).free (k := .arrayDimensions) rfl)
    apply Operand.reads_found (all.free rfl)
    rw [Step.andThen, tokensOfAll_append]
    exact fun hnil => hn (List.append_eq_nil_iff.mp hnil).1

mutual

theorem reads_type (varargs : Bool) (ts : List Token) : (type varargs ts).Reads whole [] [] := by
  cases ts with
  | nil =>
    rw [type]
    exact Operand.reads_missing (reads_report _ _)
  | cons t r =>
    rw [type]
    split
    · next ht =>
      have hb : (bump true t r).Reads whole [] [] :=
        reads_bump true (fun _ => not_isBrace_of_primitive ht) r
      have hn := hb.tokens_ne_nil (by simp)
      exact reads_withDimensions varargs (Operand.reads_found (hb.free rfl) hn)
        (by simpa [Operand.found, Step.node, tokensOfAll, Piece.tokens] using hn)
    · split
      · next ht =>
        have hc := (reads_classType ht r).lift (b := [])
        refine reads_withDimensions varargs hc (hc.toReads.tokens_ne_nil ?_)
        have := (classType t r).length_rest_le
        grind
      · exact Operand.reads_missing (reads_report _ _)
termination_by 8 * ts.length
decreasing_by all_goals grind

theorem reads_classType {t : Token} (ht : t.kind = .ident) (r : List Token) :
    (classType t r).Reads whole [] [t] := by
  rw [classType]
  have h := (reads_qualifiedName ht r).andThen (reads_typeArguments? (qualifiedName t r).rest)
  refine Operand.reads_found (h.node (.of_startsWith rfl ht _ _ _)) (h.tokens_ne_nil ?_)
  have := ((qualifiedName t r).andThen (typeArguments? (qualifiedName t r).rest)).length_rest_le
  simp only [List.length_singleton]
  omega
termination_by 8 * r.length + 5
decreasing_by all_goals grind

theorem reads_typeArguments? (ts : List Token) : (typeArguments? ts).Reads whole [] [] := by
  cases ts with
  | nil =>
    rw [typeArguments?]
    exact reads_idle _
  | cons t r =>
    rw [typeArguments?]
    split
    · next ht =>
      exact ((reads_typeArgumentsTail r).opened false ht rfl fun _ => rfl).lift (b := [])
    · exact reads_idle _
termination_by 8 * ts.length + 4
decreasing_by all_goals grind

theorem reads_typeArgumentsTail (ts : List Token) : (typeArgumentsTail ts).Reads whole [] [] := by
  cases ts with
  | nil =>
    rw [typeArgumentsTail]
    exact reads_expect (fun _ => rfl) _
  | cons t r =>
    rw [typeArgumentsTail]
    split
    · exact reads_expect (fun _ => rfl) _
    · have h := reads_type false (t :: r)
      dsimp only
      split
      · exact h.toReads.andThen (reads_expect (fun _ => rfl) _)
      · exact h.toReads.andThen (reads_typeArgumentsMore _)
termination_by 8 * ts.length + 3
decreasing_by all_goals grind

theorem reads_typeArgumentsMore (ts : List Token) : (typeArgumentsMore ts).Reads whole [] [] := by
  cases ts with
  | nil =>
    rw [typeArgumentsMore]
    exact reads_expect (fun _ => rfl) _
  | cons t r =>
    rw [typeArgumentsMore]
    split
    · next ht =>
      exact ((reads_typeArgumentsTail r).lead false fun _ => congrArg Kind.isBrace ht).lift (b := [])
    · exact reads_expect (fun _ => rfl) _
termination_by 8 * ts.length + 2
decreasing_by all_goals grind

end

end JavaSyntax.Grammar
