import JavaSyntax.Proofs.Grammar.SkippedType
import JavaSyntax.Proofs.Grammar.TypeForms

namespace JavaSyntax

namespace Piece

/-- Behind the last item of a list of type arguments stands a comma. -/
def EndsInComma (ps : List Piece) : Prop :=
  ∃ front comma close, ps = front ++ [.token comma false, .token close false] ∧
    comma.kind = .comma ∧ close.kind = .gt

mutual

/-- Some list of type arguments in the piece ends in a comma. -/
def HasLooseComma : Piece → Prop
  | .token _ _ => False
  | .node k parts => k = .typeArguments ∧ EndsInComma parts ∨ AnyLooseComma parts

def AnyLooseComma : List Piece → Prop
  | [] => False
  | p :: ps => p.HasLooseComma ∨ AnyLooseComma ps

end

variable {ps qs : List Piece}

theorem EndsInComma.append (h : EndsInComma qs) (ps : List Piece) : EndsInComma (ps ++ qs) := by
  obtain ⟨front, comma, close, rfl, hcomma, hclose⟩ := h
  exact ⟨ps ++ front, comma, close, by simp, hcomma, hclose⟩

theorem anyLooseComma_append : AnyLooseComma (ps ++ qs) ↔ AnyLooseComma ps ∨ AnyLooseComma qs := by
  induction ps with
  | nil => simp [AnyLooseComma]
  | cons p ps ih => simp only [List.cons_append, AnyLooseComma, ih, or_assoc]

end Piece

namespace Grammar

open Piece Step

namespace Skipped

/-- How many tokens were looked past. -/
def count {ts : List Token} (s : Skipped ts) : Nat := ts.length - s.rest.length

end Skipped

/-- What was read is not a type as the lookahead knows it: there was an error, or a list of type
arguments ended in a comma. -/
def Step.Objects {ts : List Token} (s : Step ts) : Prop := s.problems ≠ [] ∨ AnyLooseComma s.parts

/-- The same for the items of a list that is still open. The comma can be the last one of this list. -/
def Step.ObjectsWithin {ts : List Token} (s : Step ts) : Prop := s.Objects ∨ EndsInComma s.parts

namespace Step

variable {ts r : List Token}

theorem objects_report (e : SyntaxError) (ts : List Token) : (report e ts).Objects :=
  .inl (List.cons_ne_nil _ _)

theorem Objects.left {a : Step ts} (h : a.Objects) (b : Step a.rest) : (a.andThen b).Objects := by
  rcases h with h | h
  · exact .inl (List.append_ne_nil_of_left_ne_nil h _)
  · exact .inr (anyLooseComma_append.mpr (.inl h))

theorem Objects.right {a : Step ts} {b : Step a.rest} (h : b.Objects) : (a.andThen b).Objects := by
  rcases h with h | h
  · exact .inl (List.append_ne_nil_of_right_ne_nil _ h)
  · exact .inr (anyLooseComma_append.mpr (.inr h))

theorem Objects.node {s : Step ts} (h : s.Objects) (k : Kind) : (s.node k).Objects := by
  rcases h with h | h
  · exact .inl h
  · exact .inr (.inl (.inr h))

theorem ObjectsWithin.right {a : Step ts} {b : Step a.rest} (h : b.ObjectsWithin) :
    (a.andThen b).ObjectsWithin := by
  rcases h with h | h
  · exact .inl h.right
  · exact .inr (h.append _)

theorem ObjectsWithin.lead {s : Step r} (h : s.ObjectsWithin) (t : Token) :
    (s.lead false t).ObjectsWithin := by
  rcases h with (h | h) | h
  · exact .inl (.inl h)
  · exact .inl (.inr (.inr h))
  · exact .inr (h.append [_])

/-- Where the list ends its last comma counts. -/
theorem ObjectsWithin.node {s : Step ts} (h : s.ObjectsWithin) : (s.node .typeArguments).Objects := by
  rcases h with h | h
  · exact h.node _
  · exact .inr (.inl (.inl ⟨rfl, h⟩))

end Step

theorem objects_withDimensions {ts : List Token} {element : Operand ts} (h : element.toStep.Objects) :
    (withDimensions false element).toStep.Objects := by
  rw [withDimensions]
  split
  · exact h
  · exact (h.left _).node _

theorem objectsWithin_expect {t : Token} {r : List Token} (h : t.kind ≠ .gt) :
    (expect .gt (t :: r)).ObjectsWithin := by
  rw [expect, if_neg h]
  exact .inl (objects_report _ _)

mutual

theorem objects_type {ts : List Token} (h : skipType ts = none) : (type false ts).toStep.Objects := by
  cases ts with
  | nil =>
    rw [type]
    exact objects_report _ _
  | cons t r =>
    rw [skipType] at h
    rw [type]
    split at h
    · cases h
    · next hp =>
      rw [if_neg hp]
      split at h
      · next ht =>
        rw [if_pos ht]
        dsimp only at h
        split at h
        · next harguments =>
          rw [← (leaves_segments r).2] at harguments
          have hclass : (classType t r).toStep.Objects := by
            rw [classType]
            exact (Objects.right (a := qualifiedName t r) (objects_typeArguments? harguments)).node _
          exact objects_withDimensions hclass
        · cases h
      · next ht =>
        rw [if_neg ht]
        exact objects_report _ _
termination_by 4 * ts.length
decreasing_by all_goals grind

theorem objects_typeArguments? {ts : List Token} (h : skipTypeArguments? ts = none) :
    (typeArguments? ts).Objects := by
  cases ts with
  | nil =>
    rw [skipTypeArguments?] at h
    cases h
  | cons t r =>
    rw [skipTypeArguments?] at h
    rw [typeArguments?]
    split at h
    · next ht =>
      rw [if_pos ht]
      exact ((objectsWithin_typeArgumentsTail (Option.map_eq_none_iff.mp h)).lead t).node
    · cases h
termination_by 4 * ts.length + 3
decreasing_by all_goals grind

theorem objectsWithin_typeArgumentsTail {ts : List Token} (h : skipTypeArgumentsTail ts = none) :
    (typeArgumentsTail ts).ObjectsWithin := by
  cases ts with
  | nil =>
    rw [typeArgumentsTail]
    exact .inl (objects_report _ _)
  | cons t r =>
    rw [skipTypeArgumentsTail] at h
    split at h
    · cases h
    · next ht => exact objectsWithin_arguments h ht
termination_by 4 * ts.length + 3
decreasing_by all_goals grind

theorem objectsWithin_arguments {t : Token} {r : List Token} (h : skipArguments (t :: r) = none)
    (ht : t.kind ≠ .gt) : (typeArgumentsTail (t :: r)).ObjectsWithin := by
  rw [skipArguments] at h
  rw [typeArgumentsTail, if_neg ht]
  dsimp only
  split at h
  · next hnone =>
    have hargument := objects_type hnone
    split
    · exact .inl (hargument.left _)
    · exact .inl (hargument.left _)
  · next a ha =>
    obtain ⟨hleaves, hlead⟩ := leaves_type ha
    have hmore := Option.map_eq_none_iff.mp h
    rw [← hleaves.2] at hmore
    split
    · next hnone =>
      rw [hnone] at hlead
      cases hlead
    · exact (objectsWithin_typeArgumentsMore hmore).right
termination_by 4 * (t :: r).length + 2
decreasing_by all_goals grind

theorem objectsWithin_typeArgumentsMore {ts : List Token} (h : skipMoreArguments ts = none) :
    (typeArgumentsMore ts).ObjectsWithin := by
  cases ts with
  | nil =>
    rw [typeArgumentsMore]
    exact .inl (objects_report _ _)
  | cons t r =>
    rw [skipMoreArguments] at h
    rw [typeArgumentsMore]
    split at h
    · next ht =>
      rw [if_pos ht]
      have hnone := Option.map_eq_none_iff.mp h
      cases r with
      | nil =>
        rw [typeArgumentsTail]
        exact .inl (.inl (List.cons_ne_nil _ _))
      | cons g r =>
        by_cases hg : g.kind = .gt
        · rw [typeArgumentsTail, if_pos hg, expect, if_pos hg]
          exact .inr ⟨[], t, g, rfl, ht, hg⟩
        · exact (objectsWithin_arguments hnone hg).lead t
    · next hc =>
      split at h
      · cases h
      · next hg =>
        rw [if_neg hc]
        exact objectsWithin_expect hg
termination_by 4 * ts.length + 1
decreasing_by all_goals grind

end

/-- Where the lookahead finds a type, reading it takes as many tokens as were looked past, reports
nothing and makes one node for a type. Where it finds none, reading one reports an error or takes a list
of type arguments that ends in a comma. -/
theorem skipType_agrees (ts : List Token) :
    match skipType ts with
    | some s => (type false ts).problems = [] ∧ tokensOfAll (type false ts).parts = ts.take s.count ∧
        (type false ts).rest = ts.drop s.count ∧ s.rest = ts.drop s.count ∧
        ∃ k ps, (type false ts).lead = some k ∧ k.isType = true ∧ (type false ts).parts = [.node k ps]
    | none => (type false ts).problems ≠ [] ∨ AnyLooseComma (type false ts).parts := by
  cases h : skipType ts with
  | none => exact objects_type h
  | some s =>
    obtain ⟨hproblems, hrest⟩ := (leaves_type h).1
    have htokens : tokensOfAll (type false ts).parts ++ (type false ts).rest = ts :=
      (reads_type false ts).tokens_eq
    have hcount : s.count = (tokensOfAll (type false ts).parts).length := by
      have hlength := congrArg List.length htokens
      rw [hrest, List.length_append] at hlength
      rw [Skipped.count]
      omega
    have htaken : tokensOfAll (type false ts).parts = ts.take s.count :=
      (List.take_left' hcount.symm).symm.trans (congrArg (List.take s.count) htokens)
    have hdropped : (type false ts).rest = ts.drop s.count :=
      (List.drop_left' hcount.symm).symm.trans (congrArg (List.drop s.count) htokens)
    have hforms : (type false ts).FormsDue true fun k => k.isType = true := formsDue_type false ts
    obtain ⟨-, ⟨k, ps, hlead, hk, hparts⟩ | ⟨-, hclean, -⟩⟩ := hforms fun _ => hproblems
    · exact ⟨hproblems, htaken, hdropped, hrest ▸ hdropped, k, ps, hlead, hk, hparts⟩
    · cases hclean

/-- The type `A<B,>` is read without an error, and the lookahead does not take it for one. -/
example :
    let ts : List Token :=
      [⟨.ident, "A", 0⟩, ⟨.lt, "<", 1⟩, ⟨.ident, "B", 2⟩, ⟨.comma, ",", 3⟩, ⟨.gt, ">", 4⟩]
    (skipType ts).isSome = false ∧ (type false ts).problems = [] := by
  decide +kernel

end Grammar

end JavaSyntax
