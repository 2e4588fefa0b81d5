import JavaSyntax.Proofs.Grammar.Proper

namespace JavaSyntax

def Kind.isBrace (k : Kind) : Bool := k == .leftBrace || k == .rightBrace

theorem Kind.isBrace_eq_false {k : Kind} :
    k.isBrace = false ↔ k ≠ .leftBrace ∧ k ≠ .rightBrace := by
  rw [isBrace, Bool.or_eq_false_iff, beq_eq_false_iff_ne, beq_eq_false_iff_ne]

/-- What holds of a kind but of none of the two braces tells it from them. -/
theorem Kind.not_isBrace (P : Kind → Prop) {k : Kind} (h : P k) (hl : ¬P .leftBrace)
    (hr : ¬P .rightBrace) : k.isBrace = false :=
  isBrace_eq_false.mpr ⟨fun hk => hl (hk ▸ h), fun hk => hr (hk ▸ h)⟩

/-- The `}` of a block whose `{` has been passed and in which `depth` more are open. -/
def closing? : (depth : Nat) → List Token → Option Token
  | _, [] => none
  | depth, t :: ts =>
    if t.kind = .leftBrace then closing? (depth + 1) ts
    else if t.kind = .rightBrace then if depth = 0 then some t else closing? (depth - 1) ts
    else closing? depth ts

section

variable {t : Token} {ts : List Token}

theorem closing?_leftBrace (h : t.kind = .leftBrace) (d : Nat) :
    closing? d (t :: ts) = closing? (d + 1) ts := by
  rw [closing?, if_pos h]

theorem closing?_rightBrace (h : t.kind = .rightBrace) :
    closing? 0 (t :: ts) = some t ∧ ∀ d, closing? (d + 1) (t :: ts) = closing? d ts := by
  have hne : t.kind ≠ .leftBrace := by
    rw [h]
    decide
  refine ⟨?_, fun d => ?_⟩
  · rw [closing?, if_neg hne, if_pos h, if_pos rfl]
  · rw [closing?, if_neg hne, if_pos h, if_neg (Nat.succ_ne_zero d), Nat.add_sub_cancel]

theorem closing?_of_not_isBrace (h : t.kind.isBrace = false) (d : Nat) :
    closing? d (t :: ts) = closing? d ts := by
  have hne := Kind.isBrace_eq_false.mp h
  rw [closing?, if_neg hne.1, if_neg hne.2]

end

/-- The tokens of a block, with those after it: it opens with a `{` and ends with the `}` that closes it,
or there is none and nothing is left after the block. -/
def Piece.Braced (parts : List Piece) (after : List Token) : Prop :=
  ∃ t inner, tokensOfAll parts = t :: inner ∧ t.kind = .leftBrace ∧
    ((∃ u, closing? 0 (inner ++ after) = some u ∧ inner.getLast? = some u) ∨
      (closing? 0 (inner ++ after) = none ∧ after = []))

namespace Grammar

variable {k : Kind}

theorem not_isBrace_of_modifier (h : modifierKeywords.contains k = true) : k.isBrace = false :=
  Kind.not_isBrace (fun k => modifierKeywords.contains k = true) h (by decide +kernel) (by decide +kernel)

theorem not_isBrace_of_primitive (h : primitiveKeywords.contains k = true) : k.isBrace = false :=
  Kind.not_isBrace (fun k => primitiveKeywords.contains k = true) h (by decide +kernel) (by decide +kernel)

theorem not_isBrace_of_literal (h : literalTokens.contains k = true) : k.isBrace = false :=
  Kind.not_isBrace (fun k => literalTokens.contains k = true) h (by decide +kernel) (by decide +kernel)

theorem not_isBrace_of_isAssignment (h : isAssignment k = true) : k.isBrace = false :=
  Kind.not_isBrace (fun k => isAssignment k = true) h (by decide) (by decide)

theorem not_isBrace_of_precedence {n : Nat} (h : precedence? k = some n) : k.isBrace = false :=
  Kind.not_isBrace (fun k => precedence? k = some n) h nofun nofun

theorem not_isBrace_of_or {j l : Kind} (h : k = j ∨ k = l) (hj : j.isBrace = false)
    (hl : l.isBrace = false) : k.isBrace = false := by
  rcases h with rfl | rfl
  · exact hj
  · exact hl

/-- A brace is never skipped for want of an expression. -/
theorem not_isBrace_of_not_recovery (h : ¬expressionRecovery.contains k = true) : k.isBrace = false :=
  Kind.not_isBrace (fun k => ¬expressionRecovery.contains k = true) h (by decide +kernel)
    (by decide +kernel)

/-- A brace ends a list of parameters that is broken. -/
theorem not_isBrace_of_not_parameterRecovery (h : ¬parameterRecovery.contains k = true) :
    k.isBrace = false :=
  Kind.not_isBrace (fun k => ¬parameterRecovery.contains k = true) h (by decide +kernel)
    (by decide +kernel)

end Grammar

end JavaSyntax
