import JavaSyntax.Proofs.Grammar.Formed

namespace JavaSyntax

open Computability

/-- No word of the language has `a` in it. -/
def Avoids {α : Type} (a : α) (l : Language α) : Prop := ∀ w ∈ l, a ∉ w

section

variable {α : Type} {a b : α} {l m : Language α}

theorem avoids_zero : Avoids a 0 := by
  rintro w ⟨⟩

theorem avoids_nil : Avoids a 1 := by
  rintro _ rfl h
  cases h

theorem avoids_singleton (h : a ≠ b) : Avoids a {[b]} := by
  rintro _ rfl ha
  exact h (List.mem_singleton.mp ha)

theorem avoids_add (hl : Avoids a l) (hm : Avoids a m) : Avoids a (l + m) := by
  rintro w (hw | hw)
  · exact hl w hw
  · exact hm w hw

theorem avoids_mul (hl : Avoids a l) (hm : Avoids a m) : Avoids a (l * m) := by
  rintro _ ⟨v, hv, w, hw, rfl⟩ h
  rcases List.mem_append.mp h with h | h
  · exact hl v hv h
  · exact hm w hw h

theorem avoids_kstar (hl : Avoids a l) : Avoids a l∗ := by
  intro w hw h
  obtain ⟨parts, rfl, hparts⟩ := Language.mem_kstar.mp hw
  obtain ⟨v, hv, h⟩ := List.mem_flatten.mp h
  exact hl v (hparts v hv) h

end

namespace Content

variable {P : Kind → Bool} {i : Bool}

theorem avoids_nodeOf {k : Kind} : Avoids (.token k i) (nodeOf P) := by
  rintro _ ⟨j, -, rfl⟩ h
  cases List.mem_singleton.mp h

theorem avoids_wordOf {k : Kind} (h : P k = false) : Avoids (.token k i) (wordOf P) := by
  rintro _ ⟨j, hj, rfl⟩ hk
  cases List.mem_singleton.mp hk
  cases h.symm.trans hj

/-- No production has a place for an unknown token. -/
theorem avoids_unknown (k : Kind) (i : Bool) : Avoids (.token .unknown i) (content true k) := by
  unfold content
  split
  any_goals simp only [condition, value, typed, statement, semicolon, declarators, parameters,
    resultType, operand, listed, dotted, broken, due_true, junk_true, if_true, mark, word, one]
  all_goals repeat' first
    | exact avoids_zero
    | exact avoids_nil
    | exact avoids_nodeOf
    | exact avoids_singleton (by simp)
    | exact avoids_wordOf (by decide)
    | apply avoids_add
    | apply avoids_mul
    | apply avoids_kstar

/-- A dotted name is made of tokens only. -/
theorem avoids_dotted (k : Kind) : Avoids (.node k) dotted :=
  avoids_mul (avoids_singleton (by simp))
    (avoids_kstar (avoids_mul (avoids_singleton (by simp)) (avoids_singleton (by simp))))

end Content

namespace Piece

/-- The tokens of clean nodes are known, if those that stand around the nodes are. -/
theorem known_of_formed : ∀ {ps : List Piece}, AllFormed true ps →
    (∀ i, Symbol.token .unknown i ∉ symbols ps) → ∀ t ∈ tokensOfAll ps, t.kind ≠ .unknown
  | [], _, _, t, ht => by cases ht
  | .token u i :: ps, hf, hk, t, ht => by
    obtain ⟨hu, hps⟩ := not_or.mp ((List.mem_cons.not).mp (hk i))
    rcases List.mem_cons.mp ht with rfl | ht
    · intro hunknown
      exact hu (congrArg (Symbol.token · i) hunknown.symm)
    · exact known_of_formed hf.2 (fun j hj => hk j (List.mem_cons_of_mem _ hj)) t ht
  | .node k parts :: ps, hf, hk, t, ht => by
    rcases List.mem_append.mp ht with ht | ht
    · exact known_of_formed hf.1.2 (fun i => Content.avoids_unknown k i _ hf.1.1.1) t ht
    · exact known_of_formed hf.2 (fun j hj => hk j (List.mem_cons_of_mem _ hj)) t ht

end Piece

end JavaSyntax
