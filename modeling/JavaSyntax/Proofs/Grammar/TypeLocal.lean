import JavaSyntax.Proofs.Grammar.Local
import JavaSyntax.Proofs.Grammar.TypeReads

namespace JavaSyntax.Grammar

open Piece Step

variable {f : Token → Token} {z z' ts us r r' : List Token}

/-- In front of what stands behind no name goes on. -/
theorem segments_of_isEnd (h : isEnd (ahead z) = true) : segments z = idle z := by
  rcases z with _ | ⟨d, _ | ⟨n, r⟩⟩
  · rfl
  · rfl
  · rw [segments, if_neg (not_and_of_not_left _ (kind_ne_of_isEnd h .dot rfl))]

theorem segments_single (d : Token) (h : isEnd (ahead z) = true) : segments (d :: z) = idle (d :: z) := by
  cases z with
  | nil => rfl
  | cons n r => rw [segments, if_neg (not_and_of_not_right _ (kind_ne_of_isEnd h .ident rfl))]

theorem along_segments (hz : Ends f z z') {ts us : List Token} (h : Alongside f z z' ts us) :
    (segments ts).Along f z z' (segments us) := by
  rcases h with _ | ⟨d, h⟩
  · rw [segments_of_isEnd hz.here, segments_of_isEnd hz.there]
    exact along_idle .behind
  rcases h with _ | ⟨n, h⟩
  · rw [segments_single d hz.here, segments_single (f d) hz.there]
    exact along_idle (.cons d .behind)
  · rw [segments, segments, hz.kind, hz.kind]
    split
    · exact ((((along_segments hz h).lead true n).lead true d).lift n).lift d
    · exact along_idle (.cons d (.cons n h))
termination_by ts.length
decreasing_by grind

theorem along_qualifiedName (hz : Ends f z z') (t : Token) (h : Alongside f z z' r r') :
    (qualifiedName t r).Along f z z' (qualifiedName (f t) r') :=
  (along_segments hz h).lead true t

theorem fails_annotationName (h : isEnd (ahead z) = true) : (annotationName z).Fails := by
  cases z with
  | nil => exact fails_report _ _
  | cons t r =>
    rw [annotationName, if_neg (kind_ne_of_isEnd h .ident rfl)]
    exact fails_report _ _

theorem local_annotationName (hz : Ends f z z') (h : Alongside f z z' ts us) :
    (annotationName ts).Local f z z' (annotationName us) := by
  cases h with
  | behind => exact local_of_fails (fails_annotationName hz.here) (reads_annotationName [])
  | cons t h =>
    rw [annotationName, annotationName, hz.kind]
    split
    · exact ((along_qualifiedName hz t h).lift t).local
    · exact local_report _ (.cons t h)

theorem local_annotationUse (hz : Ends f z z') (t : Token) (h : Alongside f z z' r r') :
    (annotationUse t r).Local f z z' (annotationUse (f t) r') :=
  ((local_annotationName hz h).lead false t).node _

theorem modifiers_of_isEnd (h : isEnd (ahead z) = true) : modifiers z = idle z := by
  cases z with
  | nil => rw [modifiers]
  | cons t r =>
    have hmodifier : modifierKeywords.contains t.kind = false := eq_false_of_isEnd h rfl
    rw [modifiers, hmodifier, if_neg Bool.false_ne_true, if_neg (kind_ne_of_isEnd h .at rfl)]

theorem local_modifiers (hz : Ends f z z') {ts us : List Token} (h : Alongside f z z' ts us) :
    (modifiers ts).Local f z z' (modifiers us) := by
  cases h with
  | behind =>
    rw [modifiers_of_isEnd hz.here, modifiers_of_isEnd hz.there]
    exact (along_idle .behind).local
  | @cons t r r' h =>
    rw [modifiers, modifiers, hz.kind]
    split
    · exact ((along_bump true t h).node _).local.andThen fun _ => local_modifiers hz h
    · split
      · have annotation := (local_annotationUse hz t h).lift t
        exact annotation.andThen fun along => local_modifiers hz along.rest
      · exact (along_idle (.cons t h)).local
termination_by ts.length
decreasing_by all_goals (subst_vars; clear * -; grind)

theorem local_modifierList (hz : Ends f z z') (h : Alongside f z z' ts us) :
    (modifierList ts).Local f z z' (modifierList us) :=
  (local_modifiers hz h).node _

theorem fails_variableId (h : isEnd (ahead z) = true) : (variableId z).Fails := by
  cases z with
  | nil => exact (fails_report _ _).node _
  | cons t r =>
    rw [variableId, if_neg (kind_ne_of_isEnd h .ident rfl)]
    exact (fails_report _ _).node _

theorem local_variableId (hz : Ends f z z') (h : Alongside f z z' ts us) :
    (variableId ts).Local f z z' (variableId us) := by
  cases h with
  | behind => exact local_of_fails (fails_variableId hz.here) (reads_variableId [])
  | cons t h =>
    rw [variableId, variableId, hz.kind]
    split
    · exact ((along_bump true t h).node _).local
    · exact (local_report _ (.cons t h)).node _

theorem ellipsis_of_isEnd (v : Bool) (h : isEnd (ahead z) = true) : ellipsis v z = idle z := by
  cases z with
  | nil => rfl
  | cons t r => rw [ellipsis, if_neg (not_and_of_not_right _ (kind_ne_of_isEnd h .ellipsis rfl))]

theorem along_ellipsis (hz : Ends f z z') (v : Bool) (h : Alongside f z z' ts us) :
    (ellipsis v ts).Along f z z' (ellipsis v us) := by
  cases h with
  | behind =>
    rw [ellipsis_of_isEnd v hz.here, ellipsis_of_isEnd v hz.there]
    exact along_idle .behind
  | cons t h =>
    rw [ellipsis, ellipsis, hz.kind]
    split
    · exact (along_bump true t h).node _
    · exact along_idle (.cons t h)

theorem dimensions_of_isEnd (v : Bool) (h : isEnd (ahead z) = true) :
    dimensions v z = ellipsis v z :=
  dimensions_eq_ellipsis v (ne_of_isEnd h rfl)

theorem dimensions_single (v : Bool) (b : Token) (h : isEnd (ahead z) = true) :
    dimensions v (b :: z) = ellipsis v (b :: z) := by
  cases z with
  | nil => rfl
  | cons c r => rw [dimensions, if_neg (not_and_of_not_right _ (kind_ne_of_isEnd h .rightBracket rfl))]

theorem along_dimensions (hz : Ends f z z') (v : Bool) {ts us : List Token} : Alongside f z z' ts us →
    (dimensions v ts).Along f z z' (dimensions v us)
  | .behind => by
    rw [dimensions_of_isEnd v hz.here, dimensions_of_isEnd v hz.there]
    exact along_ellipsis hz v .behind
  | .cons b .behind => by
    rw [dimensions_single v b hz.here, dimensions_single v (f b) hz.there]
    exact along_ellipsis hz v (.cons b .behind)
  | .cons b (.cons c h) => by
    rw [dimensions, dimensions, hz.kind, hz.kind]
    split
    · have dim := (((along_idle h).lead true c).lead true b).node .arrayTypeDim
      exact ((dim.lift c).lift b).andThen (along_dimensions hz v h)
    · exact along_ellipsis hz v (.cons b (.cons c h))
termination_by ts.length
decreasing_by grind

theorem local_withDimensions (hz : Ends f z z') (v : Bool) {element : Operand ts}
    {element' : Operand us} (h : element.Local f z z' element') :
    (withDimensions v element).Local f z z' (withDimensions v element') := by
  intro hs
  have helement : element.toStep.Spares z z' := by
    rw [withDimensions] at hs
    split at hs
    · exact hs
    · exact Spares.first (b := (dimensions v element.rest).node .arrayDimensions) hs
  have along := h helement
  have dims := along_dimensions hz v along.rest
  rw [withDimensions, withDimensions, dims.parts, isEmpty_movedAll]
  split
  · exact along
  · exact Operand.along_found (along.toAlong.andThen (dims.node _)) _

theorem fails_type (v : Bool) (h : isEnd (ahead z) = true) : (type v z).toStep.Fails := by
  cases z with
  | nil =>
    rw [type]
    exact fails_report _ _
  | cons t r =>
    have hprimitive : primitiveKeywords.contains t.kind = false := eq_false_of_isEnd h rfl
    rw [type, hprimitive, if_neg Bool.false_ne_true, if_neg (kind_ne_of_isEnd h .ident rfl)]
    exact fails_report _ _

theorem typeArguments?_of_isEnd (h : isEnd (ahead z) = true) : typeArguments? z = idle z := by
  cases z with
  | nil => rw [typeArguments?]
  | cons t r => rw [typeArguments?, if_neg (kind_ne_of_isEnd h .lt rfl)]

theorem fails_typeArgumentsMore (h : isEnd (ahead z) = true) : (typeArgumentsMore z).Fails := by
  cases z with
  | nil =>
    rw [typeArgumentsMore]
    exact fails_expect _ _
  | cons t r =>
    rw [typeArgumentsMore, if_neg (kind_ne_of_isEnd h .comma rfl)]
    exact fails_expect _ _

theorem fails_typeArgumentsTail (h : isEnd (ahead z) = true) : (typeArgumentsTail z).Fails := by
  cases z with
  | nil =>
    rw [typeArgumentsTail]
    exact fails_expect _ _
  | cons t r =>
    rw [typeArgumentsTail, if_neg (kind_ne_of_isEnd h .gt rfl)]
    dsimp only
    split
    · exact (fails_type false h).andThen _
    · exact (fails_type false h).andThen _

mutual

theorem local_type (hz : Ends f z z') (v : Bool) {ts us : List Token} (h : Alongside f z z' ts us) :
    (type v ts).Local f z z' (type v us) := by
  cases h with
  | behind => exact Operand.local_of_fails (fails_type v hz.here) (reads_type v [])
  | @cons t r r' h =>
    rw [type, type, hz.kind]
    split
    · exact local_withDimensions hz v (Operand.along_found (along_bump true t h) _).local
    · split
      · exact local_withDimensions hz v ((local_classType hz t h).lift t)
      · exact Operand.local_missing (local_report _ (.cons t h))
termination_by 8 * ts.length
decreasing_by all_goals (subst_vars; clear * -; grind)

theorem local_classType (hz : Ends f z z') (t : Token) {r r' : List Token} (h : Alongside f z z' r r') :
    (classType t r).Local f z z' (classType (f t) r') := by
  have name := along_qualifiedName hz t h
  rw [classType, classType]
  exact Operand.local_found (name.local.andThen fun along => local_typeArguments? hz along.rest) _
termination_by 8 * r.length + 5
decreasing_by all_goals (clear * -; grind)

theorem local_typeArguments? (hz : Ends f z z') {ts us : List Token} (h : Alongside f z z' ts us) :
    (typeArguments? ts).Local f z z' (typeArguments? us) := by
  cases h with
  | behind =>
    rw [typeArguments?_of_isEnd hz.here, typeArguments?_of_isEnd hz.there]
    exact (along_idle .behind).local
  | @cons t r r' h =>
    rw [typeArguments?, typeArguments?, hz.kind]
    split
    · exact (((local_typeArgumentsTail hz h).lead false t).node _).lift t
    · exact (along_idle (.cons t h)).local
termination_by 8 * ts.length + 4
decreasing_by all_goals (subst_vars; clear * -; grind)

theorem local_typeArgumentsTail (hz : Ends f z z') {ts us : List Token} (h : Alongside f z z' ts us) :
    (typeArgumentsTail ts).Local f z z' (typeArgumentsTail us) := by
  cases h with
  | behind => exact local_of_fails (fails_typeArgumentsTail hz.here) (reads_typeArgumentsTail [])
  | @cons t r r' h =>
    rw [typeArgumentsTail, typeArgumentsTail, hz.kind]
    split
    · exact local_expect hz _ (.cons t h)
    · exact (local_type hz false (.cons t h)).andEither (fun along => local_expect hz _ along)
        fun along => local_typeArgumentsMore hz along
termination_by 8 * ts.length + 3
decreasing_by all_goals (subst_vars; clear * -; grind)

theorem local_typeArgumentsMore (hz : Ends f z z') {ts us : List Token} (h : Alongside f z z' ts us) :
    (typeArgumentsMore ts).Local f z z' (typeArgumentsMore us) := by
  cases h with
  | behind => exact local_of_fails (fails_typeArgumentsMore hz.here) (reads_typeArgumentsMore [])
  | @cons t r r' h =>
    rw [typeArgumentsMore, typeArgumentsMore, hz.kind]
    split
    · exact ((local_typeArgumentsTail hz h).lead false t).lift t
    · exact local_expect hz _ (.cons t h)
termination_by 8 * ts.length + 2
decreasing_by all_goals (subst_vars; clear * -; grind)

end

/-- The same for types that are looked past. -/
structure Skipped.Along (f : Token → Token) (z z' : List Token) {ts us : List Token} (s : Skipped ts)
    (s' : Skipped us) : Prop where
  last : s'.last = s.last
  rest : Alongside f z z' s.rest s'.rest

namespace Skipped

theorem along_nothing (k : Kind) (h : Alongside f z z' ts us) :
    (nothing k ts).Along f z z' (nothing k us) :=
  ⟨rfl, h⟩

theorem Along.lift {s : Skipped r} {s' : Skipped r'} (h : s.Along f z z' s') (t : Token) :
    (s.lift t).Along f z z' (s'.lift (f t)) :=
  ⟨h.last, h.rest⟩

theorem Along.andThen {a : Skipped ts} {b : Skipped a.rest} {a' : Skipped us} {b' : Skipped a'.rest}
    (h : b.Along f z z' b') : (a.andThen b).Along f z z' (a'.andThen b') :=
  ⟨h.last, h.rest⟩

end Skipped

theorem skipSegments_of_isEnd (h : isEnd (ahead z) = true) : skipSegments z = .nothing .ident z := by
  rcases z with _ | ⟨d, _ | ⟨n, r⟩⟩
  · rfl
  · rfl
  · rw [skipSegments, if_neg (not_and_of_not_left _ (kind_ne_of_isEnd h .dot rfl))]

theorem skipSegments_single (d : Token) (h : isEnd (ahead z) = true) :
    skipSegments (d :: z) = .nothing .ident (d :: z) := by
  cases z with
  | nil => rfl
  | cons n r => rw [skipSegments, if_neg (not_and_of_not_right _ (kind_ne_of_isEnd h .ident rfl))]

theorem along_skipSegments (hz : Ends f z z') {ts us : List Token} : Alongside f z z' ts us →
    (skipSegments ts).Along f z z' (skipSegments us)
  | .behind => by
    rw [skipSegments_of_isEnd hz.here, skipSegments_of_isEnd hz.there]
    exact Skipped.along_nothing _ .behind
  | .cons d .behind => by
    rw [skipSegments_single d hz.here, skipSegments_single (f d) hz.there]
    exact Skipped.along_nothing _ (.cons d .behind)
  | .cons d (.cons n h) => by
    rw [skipSegments, skipSegments, hz.kind, hz.kind]
    split
    · exact ((along_skipSegments hz h).lift n).lift d
    · exact Skipped.along_nothing _ (.cons d (.cons n h))

theorem skipDimensions_of_isEnd (last : Kind) (h : isEnd (ahead z) = true) :
    skipDimensions last z = .nothing last z := by
  rcases z with _ | ⟨b, _ | ⟨c, r⟩⟩
  · rfl
  · rfl
  · rw [skipDimensions, if_neg (not_and_of_not_left _ (kind_ne_of_isEnd h .leftBracket rfl))]

theorem skipDimensions_single (last : Kind) (b : Token) (h : isEnd (ahead z) = true) :
    skipDimensions last (b :: z) = .nothing last (b :: z) := by
  cases z with
  | nil => rfl
  | cons c r => rw [skipDimensions, if_neg (not_and_of_not_right _ (kind_ne_of_isEnd h .rightBracket rfl))]

theorem along_skipDimensions (hz : Ends f z z') : ∀ (last : Kind) {ts us : List Token},
    Alongside f z z' ts us → (skipDimensions last ts).Along f z z' (skipDimensions last us)
  | last, _, _, .behind => by
    rw [skipDimensions_of_isEnd last hz.here, skipDimensions_of_isEnd last hz.there]
    exact Skipped.along_nothing _ .behind
  | last, _, _, .cons b .behind => by
    rw [skipDimensions_single last b hz.here, skipDimensions_single last (f b) hz.there]
    exact Skipped.along_nothing _ (.cons b .behind)
  | last, _, _, .cons b (.cons c h) => by
    rw [skipDimensions, skipDimensions, hz.kind, hz.kind]
    split
    · exact ((along_skipDimensions hz .rightBracket h).lift c).lift b
    · exact Skipped.along_nothing _ (.cons b (.cons c h))

/-- Both look past a type, or none does. -/
def SkippedAlong (f : Token → Token) (z z' : List Token) {ts us : List Token} (s : Option (Skipped ts))
    (s' : Option (Skipped us)) : Prop :=
  Option.Rel (Skipped.Along f z z') s s'

theorem SkippedAlong.map {s : Option (Skipped r)} {s' : Option (Skipped r')}
    (h : SkippedAlong f z z' s s') {g : Skipped r → Skipped ts} {g' : Skipped r' → Skipped us}
    (hg : ∀ a a', a.Along f z z' a' → (g a).Along f z z' (g' a')) :
    SkippedAlong f z z' (s.map g) (s'.map g') := by
  cases h with
  | none => exact .none
  | some h => exact .some (hg _ _ h)

theorem skipType_of_isEnd (h : isEnd (ahead z) = true) : skipType z = none := by
  cases z with
  | nil => rw [skipType]
  | cons t r =>
    have hprimitive : primitiveKeywords.contains t.kind = false := eq_false_of_isEnd h rfl
    rw [skipType, hprimitive, if_neg Bool.false_ne_true, if_neg (kind_ne_of_isEnd h .ident rfl)]

theorem skipTypeArguments?_of_isEnd (h : isEnd (ahead z) = true) :
    skipTypeArguments? z = some (.nothing .ident z) := by
  cases z with
  | nil => rw [skipTypeArguments?]
  | cons t r => rw [skipTypeArguments?, if_neg (kind_ne_of_isEnd h .lt rfl)]

theorem skipArguments_of_isEnd (h : isEnd (ahead z) = true) : skipArguments z = none := by
  rw [skipArguments, skipType_of_isEnd h]

theorem skipTypeArgumentsTail_of_isEnd (h : isEnd (ahead z) = true) :
    skipTypeArgumentsTail z = none := by
  cases z with
  | nil => rw [skipTypeArgumentsTail]
  | cons t r => rw [skipTypeArgumentsTail, if_neg (kind_ne_of_isEnd h .gt rfl), skipArguments_of_isEnd h]

theorem skipMoreArguments_of_isEnd (h : isEnd (ahead z) = true) : skipMoreArguments z = none := by
  cases z with
  | nil => rw [skipMoreArguments]
  | cons t r =>
    rw [skipMoreArguments, if_neg (kind_ne_of_isEnd h .comma rfl), if_neg (kind_ne_of_isEnd h .gt rfl)]

mutual

theorem along_skipType (hz : Ends f z z') {ts us : List Token} (h : Alongside f z z' ts us) :
    SkippedAlong f z z' (skipType ts) (skipType us) := by
  cases h with
  | behind =>
    rw [skipType_of_isEnd hz.here, skipType_of_isEnd hz.there]
    exact .none
  | @cons t r r' h =>
    rw [skipType, skipType, hz.kind]
    split
    · exact .some ((along_skipDimensions hz t.kind h).lift t)
    · split
      · have name := along_skipSegments hz h
        have arguments := along_skipTypeArguments? hz name.rest
        dsimp only
        generalize skipTypeArguments? (skipSegments r).rest = a at arguments ⊢
        generalize skipTypeArguments? (skipSegments r').rest = a' at arguments ⊢
        cases arguments with
        | none => exact .none
        | some arguments =>
          have element :=
            @Skipped.Along.andThen f z z' r r' (skipSegments r) _ (skipSegments r') _ arguments
          dsimp only
          rw [element.last]
          exact .some ((Skipped.Along.andThen (along_skipDimensions hz _ element.rest)).lift t)
      · exact .none
termination_by 4 * ts.length
decreasing_by all_goals (subst_vars; clear * -; grind)

theorem along_skipTypeArguments? (hz : Ends f z z') {ts us : List Token} (h : Alongside f z z' ts us) :
    SkippedAlong f z z' (skipTypeArguments? ts) (skipTypeArguments? us) := by
  cases h with
  | behind =>
    rw [skipTypeArguments?_of_isEnd hz.here, skipTypeArguments?_of_isEnd hz.there]
    exact .some (Skipped.along_nothing _ .behind)
  | @cons t r r' h =>
    rw [skipTypeArguments?, skipTypeArguments?, hz.kind]
    split
    · exact (along_skipTypeArgumentsTail hz h).map fun _ _ along => along.lift t
    · exact .some (Skipped.along_nothing _ (.cons t h))
termination_by 4 * ts.length + 3
decreasing_by all_goals (subst_vars; clear * -; grind)

theorem along_skipTypeArgumentsTail (hz : Ends f z z') {ts us : List Token}
    (h : Alongside f z z' ts us) :
    SkippedAlong f z z' (skipTypeArgumentsTail ts) (skipTypeArgumentsTail us) := by
  cases h with
  | behind =>
    rw [skipTypeArgumentsTail_of_isEnd hz.here, skipTypeArgumentsTail_of_isEnd hz.there]
    exact .none
  | @cons t r r' h =>
    rw [skipTypeArgumentsTail, skipTypeArgumentsTail, hz.kind]
    split
    · exact .some ((Skipped.along_nothing .gt h).lift t)
    · exact along_skipArguments hz (.cons t h)
termination_by 4 * ts.length + 3
decreasing_by all_goals (subst_vars; clear * -; grind)

theorem along_skipArguments (hz : Ends f z z') {ts us : List Token} (h : Alongside f z z' ts us) :
    SkippedAlong f z z' (skipArguments ts) (skipArguments us) := by
  have argument := along_skipType hz h
  rw [skipArguments, skipArguments]
  generalize skipType ts = a at argument ⊢
  generalize skipType us = a' at argument ⊢
  cases argument with
  | none => exact .none
  | some argument =>
    exact (along_skipMoreArguments hz argument.rest).map fun _ _ along => Skipped.Along.andThen along
termination_by 4 * ts.length + 2
decreasing_by all_goals (subst_vars; clear * -; grind)

theorem along_skipMoreArguments (hz : Ends f z z') {ts us : List Token} (h : Alongside f z z' ts us) :
    SkippedAlong f z z' (skipMoreArguments ts) (skipMoreArguments us) := by
  cases h with
  | behind =>
    rw [skipMoreArguments_of_isEnd hz.here, skipMoreArguments_of_isEnd hz.there]
    exact .none
  | @cons t r r' h =>
    rw [skipMoreArguments, skipMoreArguments, hz.kind]
    split
    · exact (along_skipArguments hz h).map fun _ _ along => along.lift t
    · split
      · exact .some ((Skipped.along_nothing .gt h).lift t)
      · exact .none
termination_by 4 * ts.length + 1
decreasing_by all_goals (subst_vars; clear * -; grind)

end

/-- Only `::` or `.class` can follow such a type, and one of them does. -/
def Skipped.Qualifies (s : Skipped ts) : Prop :=
  (s.last = .gt ∨ s.last = .rightBracket) ∧ ahead s.rest = .colonColon ∨
    s.last = .rightBracket ∧ ahead s.rest = .dot ∧ ahead (s.rest.drop 1) = .classKw

theorem atExplicitTypeQualifier_iff : atExplicitTypeQualifier ts = true ↔
    (ahead (ts.drop 1) = .lt ∨ ahead (ts.drop 1) = .leftBracket ∨ ahead (ts.drop 1) = .dot) ∧
      ∃ s, skipType ts = some s ∧ s.Qualifies := by
  rw [atExplicitTypeQualifier, Bool.and_eq_true]
  refine and_congr (by simp [or_assoc]) ?_
  cases skipType ts with
  | none => simp
  | some s =>
    simp only [Option.some.injEq, exists_eq_left', Skipped.Qualifies]
    split
    · next hlast hahead => simp [hlast, hahead]
    · next hlast hahead => simp [hlast, hahead]
    · next hlast hahead => simp [hlast, hahead]
    · next hgt hbracket hdot =>
      refine iff_of_false Bool.false_ne_true ?_
      rintro (⟨hlast | hlast, hahead⟩ | ⟨hlast, hahead, -⟩)
      · exact hgt hlast hahead
      · exact hbracket hlast hahead
      · exact hdot hlast hahead

theorem Skipped.Along.qualifies (hz : Ends f z z') {s : Skipped ts} {s' : Skipped us}
    (h : s.Along f z z' s') : s'.Qualifies = s.Qualifies := by
  rw [Skipped.Qualifies, Skipped.Qualifies, h.last, h.rest.ahead_eq hz .colonColon rfl,
    h.rest.ahead_two hz .dot .classKw rfl rfl]

/-- The lookahead for a type in front of `::` or `.class` does not depend on what stands behind. -/
theorem atExplicitTypeQualifier_along (hz : Ends f z z') (h : Alongside f z z' ts us) :
    atExplicitTypeQualifier us = atExplicitTypeQualifier ts := by
  rw [Bool.eq_iff_iff, atExplicitTypeQualifier_iff, atExplicitTypeQualifier_iff]
  cases h with
  | behind => simp [skipType_of_isEnd hz.here, skipType_of_isEnd hz.there]
  | @cons t r r' h =>
    have skipped := along_skipType hz (.cons t h)
    rw [List.drop_succ_cons, List.drop_succ_cons, List.drop_zero, List.drop_zero,
      h.ahead_eq hz .lt rfl, h.ahead_eq hz .leftBracket rfl, h.ahead_eq hz .dot rfl]
    generalize skipType (t :: r) = a at skipped ⊢
    generalize skipType (f t :: r') = a' at skipped ⊢
    cases skipped with
    | none => simp
    | some skipped => simp [skipped.qualifies hz]

end JavaSyntax.Grammar
