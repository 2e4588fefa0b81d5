import JavaSyntax.Proofs.Parse.Nodes
import JavaSyntax.Proofs.Parse.Spans

namespace JavaSyntax

open Branch Grammar

/-- A node starts with a `{` and ends with the `}` that closes it, or with the last token of the text if
nothing closes it. -/
def Branch.Braced (text : String) (b : Branch) : Prop :=
  ∃ before t rest u, significantTokens text = before ++ t :: rest ∧ t.kind = .leftBrace ∧
    b.span.start = t.start ∧ b.span.stop = u.stop ∧
    (closing? 0 rest = some u ∨ (closing? 0 rest = none ∧ (t :: rest).getLast? = some u))

theorem Branch.lasting_braced (text : String) :
    Lasting fun b => b.kind = .block → b.Braced text :=
  ⟨fun _ _ _ _ _ _ h => h, fun _ _ => nofun, fun _ _ => nofun⟩

theorem Piece.Braced.branch {text : String} {k : Kind} {ps : List Piece} {before after : List Token}
    (h : Piece.Braced ps after) (gap : Nat)
    (hall : significantTokens text = before ++ (tokensOfAll ps ++ after)) :
    (grown gap k ps).Braced text := by
  obtain ⟨t, inner, htokens, ht, hclosing⟩ := h
  have hin := (significantTokens_covers text).inOrder
  rw [hall] at hin
  obtain ⟨_, _, hin⟩ := inOrder_append.mp hin
  obtain ⟨_, hin, _⟩ := inOrder_append.mp hin
  have hend : ∃ u, (tokensOfAll ps).getLast? = some u ∧
      (closing? 0 (inner ++ after) = some u ∨
        (closing? 0 (inner ++ after) = none ∧ (t :: (inner ++ after)).getLast? = some u)) := by
    rw [htokens]
    rcases hclosing with ⟨u, hu, hlast⟩ | ⟨hnone, rfl⟩
    · refine ⟨u, ?_, .inl hu⟩
      rw [List.getLast?_cons, hlast]
      rfl
    · rw [List.append_nil] at hnone ⊢
      exact ⟨(t :: inner).getLast (List.cons_ne_nil t inner),
        List.getLast?_eq_some_getLast (List.cons_ne_nil t inner), .inr ⟨hnone,
          List.getLast?_eq_some_getLast (List.cons_ne_nil t inner)⟩⟩
  obtain ⟨u, hlast, hclosing⟩ := hend
  obtain ⟨span, hspan, hstart, hstop⟩ := cover_ends hin (by rw [htokens]; rfl) hlast
  refine ⟨before, t, inner ++ after, u, ?_, ht, ?_, ?_, hclosing⟩
  · rw [hall, htokens, List.cons_append]
  · rw [grown, hspan, Option.getD_some, hstart]
  · rw [grown, hspan, Option.getD_some, hstop]

/-- Whatever stands between the braces, each block of a text starts with a `{` and ends with the `}` that
closes it by count, or with the last token of the text if none does. -/
theorem parse_blocks (text : String) : ∃ p, parse text = .ok p ∧
    ∀ b ∈ p.tree.root.subtrees, b.kind = .block → b.Braced text := by
  refine ⟨_, parse_eq text, ?_⟩
  refine (lasting_braced text).disambiguated _ fun b hb hk => ?_
  have hbranch : b ∈ subtreesOfAll ((Piece.node .compilationUnit (fileParts text)).branch 0) :=
    List.mem_append_left _ hb
  obtain ⟨k, ps, gap, hbelow, rfl⟩ := Piece.exists_below_branch _ 0 b hbranch
  obtain ⟨before, after, hall, hps⟩ := hbelow.sound_file
  exact (hps.1.braced hk).branch gap hall

end JavaSyntax
