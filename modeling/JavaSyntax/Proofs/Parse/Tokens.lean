import JavaSyntax.Proofs.Parse.Nodes
import JavaSyntax.Proofs.Parse.Spans

namespace JavaSyntax

open Piece Branch

/-- The token stands in the span. -/
def Span.holds (span : Span) (t : Token) : Bool :=
  decide (span.start ≤ t.start ∧ t.stop ≤ span.stop)

/-- The tokens of a text that stand in a span. -/
def tokensIn (text : String) (span : Span) : List Token :=
  (significantTokens text).filter span.holds

theorem inOrder_significantTokens (text : String) :
    InOrder 0 (0 + Text.utf8Length text.toList) (significantTokens text) :=
  (significantTokens_covers text).inOrder

/-- Tokens take up room, so none stands in an empty span. -/
theorem tokensIn_empty (text : String) (o : Nat) : tokensIn text (.empty o) = [] := by
  rw [tokensIn, List.filter_eq_nil_iff]
  intro t ht
  have hlt := ((inOrder_significantTokens text).bounds t ht).2.1
  rw [Span.holds, decide_eq_true_iff, Span.empty]
  dsimp only
  omega

/-- What some tokens in a row cover divides the tokens of a text. -/
theorem bounds_of_cover {text : String} {ps : List Piece} {span : Span} {before after : List Token}
    (hall : significantTokens text = before ++ (tokensOfAll ps ++ after)) (hc : cover ps = some span) :
    (∀ t ∈ before, t.start < t.stop ∧ t.stop ≤ span.start) ∧
      (∀ t ∈ tokensOfAll ps, span.start ≤ t.start ∧ t.start < t.stop ∧ t.stop ≤ span.stop) ∧
        (∀ t ∈ after, span.stop ≤ t.start ∧ t.start < t.stop) ∧ span.start < span.stop := by
  have hin := inOrder_significantTokens text
  rw [hall] at hin
  obtain ⟨start, hbefore, hin⟩ := inOrder_append.mp hin
  obtain ⟨stop, hmid, hafter⟩ := inOrder_append.mp hin
  have hn : tokensOfAll ps ≠ [] := fun hn => by
    rw [cover_eq_none.mpr hn] at hc
    cases hc
  obtain ⟨s, hs, hstart, hlt, hstop, hown, _⟩ := cover_inOrder hmid hn
  cases hs.symm.trans hc
  refine ⟨fun t ht => ?_, fun t ht => ?_, fun t ht => ?_, hlt⟩
  · obtain ⟨-, hlt, hle⟩ := hbefore.bounds t ht
    exact ⟨hlt, hle.trans hstart⟩
  · exact hown.bounds t ht
  · obtain ⟨hle, hlt, -⟩ := hafter.bounds t ht
    exact ⟨hstop.trans hle, hlt⟩

/-- In what some tokens in a row cover stand these tokens only. -/
theorem tokensIn_cover {text : String} {ps : List Piece} {span : Span}
    (ht : tokensOfAll ps <:+: significantTokens text) (hc : cover ps = some span) :
    tokensIn text span = tokensOfAll ps := by
  obtain ⟨before, after, hall⟩ := ht
  rw [List.append_assoc] at hall
  obtain ⟨hbefore, hown, hafter, hlt⟩ := bounds_of_cover hall.symm hc
  have hbeforeNil : before.filter span.holds = [] := by
    refine List.filter_eq_nil_iff.mpr fun t ht => ?_
    have := hbefore t ht
    rw [Span.holds, decide_eq_true_iff]
    omega
  have hafterNil : after.filter span.holds = [] := by
    refine List.filter_eq_nil_iff.mpr fun t ht => ?_
    have := hafter t ht
    rw [Span.holds, decide_eq_true_iff]
    omega
  have hself : (tokensOfAll ps).filter span.holds = tokensOfAll ps := by
    refine List.filter_eq_self.mpr fun t ht => ?_
    have := hown t ht
    rw [Span.holds, decide_eq_true_iff]
    omega
  rw [tokensIn, ← hall, List.filter_append, List.filter_append, hbeforeNil, hafterNil, hself,
    List.nil_append, List.append_nil]

/-- The tokens of a text that come after a span. -/
def tokensBehind (text : String) (span : Span) : List Token :=
  (significantTokens text).filter fun t => decide (span.stop ≤ t.start)

theorem tokensBehind_cover {text : String} {ps : List Piece} {span : Span} {before after : List Token}
    (hall : significantTokens text = before ++ (tokensOfAll ps ++ after))
    (hc : cover ps = some span) : tokensBehind text span = after := by
  obtain ⟨hbefore, hown, hafter, hlt⟩ := bounds_of_cover hall hc
  have hfront : (before ++ tokensOfAll ps).filter (fun t => decide (span.stop ≤ t.start)) = [] := by
    refine List.filter_eq_nil_iff.mpr fun t ht => ?_
    rw [decide_eq_true_iff]
    rcases List.mem_append.mp ht with ht | ht
    · have := hbefore t ht
      omega
    · have := hown t ht
      omega
  have hback : after.filter (fun t => decide (span.stop ≤ t.start)) = after :=
    List.filter_eq_self.mpr fun t ht => decide_eq_true (hafter t ht).1
  rw [tokensBehind, hall, ← List.append_assoc, List.filter_append, hfront, hback, List.nil_append]

namespace Piece

variable {text : String} {ps : List Piece}

theorem tokensIn_grown (ht : tokensOfAll ps <:+: significantTokens text) (gap : Nat) (k : Kind) :
    tokensIn text (grown gap k ps).span = tokensOfAll ps := by
  rw [grown]
  cases hc : cover ps with
  | none => rw [Option.getD_none, tokensIn_empty, cover_eq_none.mp hc]
  | some span => exact tokensIn_cover ht hc

theorem tokensOfAll_token (t : Token) (i : Bool) (ps : List Piece) :
    tokensOfAll (.token t i :: ps) = t :: tokensOfAll ps := rfl

theorem tokensOfAll_node (k : Kind) (qs ps : List Piece) :
    tokensOfAll (.node k qs :: ps) = tokensOfAll qs ++ tokensOfAll ps := rfl

theorem tokensOfAll_last (k : Kind) (qs : List Piece) : tokensOfAll [.node k qs] = tokensOfAll qs :=
  List.append_nil _

/-- The tokens of each of the nodes among the pieces. -/
def childTokens : List Piece → List (List Token)
  | [] => []
  | .token _ _ :: ps => childTokens ps
  | .node _ qs :: ps => tokensOfAll qs :: childTokens ps

theorem childTokens_append (ps qs : List Piece) :
    childTokens (ps ++ qs) = childTokens ps ++ childTokens qs := by
  induction ps with
  | nil => rfl
  | cons p ps ih => cases p <;> simp [childTokens, ih]

theorem map_tokensIn_branches (ht : tokensOfAll ps <:+: significantTokens text) (gap : Nat) :
    (branches gap ps).map (fun b => tokensIn text b.span) = childTokens ps := by
  induction ps with
  | nil => rfl
  | cons p ps ih =>
    rw [tokensOfAll] at ht
    have hp : p.tokens <:+: significantTokens text :=
      (List.infix_append [] p.tokens (tokensOfAll ps)).trans ht
    have hps : tokensOfAll ps <:+: significantTokens text :=
      (List.suffix_append p.tokens (tokensOfAll ps)).isInfix.trans ht
    rw [branches, List.map_append, ih hps]
    cases p with
    | token t i => rfl
    | node k qs => exact congrArg (· :: childTokens ps) (tokensIn_grown hp _ k)

end Piece

end JavaSyntax
