import JavaSyntax.Proofs.Grammar.TypeReads

namespace JavaSyntax.Grammar

open Piece Step

/-- A rule reports nothing and leaves `rest`. -/
def Step.Leaves {ts : List Token} (s : Step ts) (rest : List Token) : Prop :=
  s.problems = [] ∧ s.rest = rest

theorem Step.Leaves.andThen {ts rest rest' : List Token} {a : Step ts} {b : Step a.rest}
    (ha : a.Leaves rest) (hb : b.Leaves rest') : (a.andThen b).Leaves rest' := by
  refine ⟨?_, hb.2⟩
  rw [Step.andThen, ha.1, hb.1]
  rfl

theorem leaves_segments : (ts : List Token) → (segments ts).Leaves (skipSegments ts).rest
  | [] | [_] => ⟨rfl, rfl⟩
  | d :: n :: r => by
    rw [segments, skipSegments]
    split
    · exact leaves_segments r
    · exact ⟨rfl, rfl⟩

theorem leaves_dimensions (last : Kind) : (ts : List Token) →
    (dimensions false ts).Leaves (skipDimensions last ts).rest
  | [] => ⟨rfl, rfl⟩
  | [t] => by
    have h : dimensions false [t] = idle [t] := ellipsis_false [t]
    rw [h]
    exact ⟨rfl, rfl⟩
  | b :: c :: r => by
    rw [dimensions, skipDimensions]
    split
    · exact ⟨(leaves_dimensions .rightBracket r).1, (leaves_dimensions .rightBracket r).2⟩
    · rw [ellipsis_false]
      exact ⟨rfl, rfl⟩

/-- Dimensions are read whether or not they make an array type. -/
theorem leaves_withDimensions {ts : List Token} {element : Operand ts} (last : Kind)
    (h : element.problems = []) : (withDimensions false element).toStep.Leaves
      (skipDimensions last element.rest).rest := by
  have hdims := leaves_dimensions last element.rest
  rw [withDimensions]
  split
  · next hnone =>
    refine ⟨h, ?_⟩
    have htokens := (reads_dimensions false element.rest).tokens_eq
    rw [List.isEmpty_iff.mp hnone] at htokens
    exact htokens.symm.trans hdims.2
  · exact Step.Leaves.andThen ⟨h, rfl⟩ hdims

mutual

theorem leaves_type {ts : List Token} {s : Skipped ts} (h : skipType ts = some s) :
    (type false ts).toStep.Leaves s.rest ∧ (type false ts).lead.isSome := by
  cases ts with
  | nil =>
    rw [skipType] at h
    cases h
  | cons t r =>
    have hlead : startsType t.kind = true → (type false (t :: r)).lead.isSome := lead_type_isSome
    rw [skipType] at h
    simp only [startsType, Bool.or_eq_true, beq_iff_eq] at hlead
    split at h
    · next ht =>
      cases h
      refine ⟨?_, hlead (.inr ht)⟩
      rw [type, if_pos ht]
      exact leaves_withDimensions t.kind rfl
    · next hp =>
      split at h
      · next ht =>
        refine ⟨?_, hlead (.inl ht)⟩
        rw [type, if_neg hp, if_pos ht]
        dsimp only at h
        split at h
        · cases h
        · next a ha =>
          cases h
          have hname := leaves_segments r
          have hclass : (classType t r).toStep.Leaves a.rest := by
            have harguments := leaves_typeArguments? ha
            generalize a.rest = rest at harguments ⊢
            rw [← hname.2] at harguments
            rw [classType]
            exact Step.Leaves.andThen ⟨hname.1, rfl⟩ harguments
          have htype : (withDimensions false ((classType t r).lift t)).toStep.Leaves _ :=
            leaves_withDimensions a.last hclass.1
          rw [Operand.rest_lift, hclass.2] at htype
          exact htype
      · cases h
termination_by 4 * ts.length
decreasing_by all_goals grind

theorem leaves_typeArguments? {ts : List Token} {s : Skipped ts}
    (h : skipTypeArguments? ts = some s) : (typeArguments? ts).Leaves s.rest := by
  cases ts with
  | nil =>
    rw [skipTypeArguments?] at h
    cases h
    rw [typeArguments?]
    exact ⟨rfl, rfl⟩
  | cons t r =>
    rw [skipTypeArguments?] at h
    rw [typeArguments?]
    split at h
    · next ht =>
      obtain ⟨a, ha, rfl⟩ := Option.map_eq_some_iff.mp h
      rw [if_pos ht]
      exact leaves_typeArgumentsTail ha
    · next ht =>
      cases h
      rw [if_neg ht]
      exact ⟨rfl, rfl⟩
termination_by 4 * ts.length + 3
decreasing_by all_goals grind

theorem leaves_typeArgumentsTail {ts : List Token} {s : Skipped ts}
    (h : skipTypeArgumentsTail ts = some s) : (typeArgumentsTail ts).Leaves s.rest := by
  cases ts with
  | nil =>
    rw [skipTypeArgumentsTail] at h
    cases h
  | cons t r =>
    rw [skipTypeArgumentsTail] at h
    split at h
    · next ht =>
      cases h
      rw [typeArgumentsTail, if_pos ht, expect, if_pos ht]
      exact ⟨rfl, rfl⟩
    · exact leaves_arguments h
termination_by 4 * ts.length + 3
decreasing_by all_goals grind

theorem leaves_arguments {ts : List Token} {s : Skipped ts} (h : skipArguments ts = some s) :
    (typeArgumentsTail ts).Leaves s.rest := by
  rw [skipArguments] at h
  split at h
  · cases h
  · next a ha =>
    obtain ⟨m, hm, rfl⟩ := Option.map_eq_some_iff.mp h
    obtain ⟨hleaves, hlead⟩ := leaves_type ha
    cases ts with
    | nil =>
      rw [skipType] at ha
      cases ha
    | cons t r =>
      have hgt : t.kind ≠ .gt := by
        intro hgt
        rw [skipType, hgt] at ha
        cases ha
      rw [typeArgumentsTail, if_neg hgt]
      dsimp only
      split
      · next hnone =>
        rw [hnone] at hlead
        cases hlead
      · refine Step.Leaves.andThen ⟨hleaves.1, rfl⟩ ?_
        rw [hleaves.2]
        exact leaves_typeArgumentsMore hm
termination_by 4 * ts.length + 2
decreasing_by all_goals grind

theorem leaves_typeArgumentsMore {ts : List Token} {s : Skipped ts}
    (h : skipMoreArguments ts = some s) : (typeArgumentsMore ts).Leaves s.rest := by
  cases ts with
  | nil =>
    rw [skipMoreArguments] at h
    cases h
  | cons t r =>
    rw [skipMoreArguments] at h
    rw [typeArgumentsMore]
    split at h
    · next ht =>
      obtain ⟨a, ha, rfl⟩ := Option.map_eq_some_iff.mp h
      rw [if_pos ht]
      exact leaves_arguments ha
    · next hc =>
      split at h
      · next ht =>
        cases h
        rw [if_neg hc, expect, if_pos ht]
        exact ⟨rfl, rfl⟩
      · cases h
termination_by 4 * ts.length + 1
decreasing_by all_goals grind

end

end JavaSyntax.Grammar
