import JavaSyntax.Proofs.Token.Gap

namespace JavaSyntax

namespace Lexeme

theorem startsGap_of_append {c : Char} {cs s : List Char} (h : startsGap (c :: (cs ++ s)) = false) :
    startsGap (c :: cs) = false := by
  obtain ⟨hblank, hcomment⟩ := Bool.or_eq_false_iff.mp h
  refine Bool.or_eq_false_iff.mpr ⟨hblank, ?_⟩
  rw [startsComment_eq_false] at hcomment ⊢
  obtain ⟨hline, hblock⟩ := hcomment
  constructor
  · rintro r hc rfl
    exact hline _ hc rfl
  · rintro r hc rfl
    exact hblock _ hc rfl

/-- Where `s` follows, the characters are read as a token of this kind. -/
structure ReadsInFrontOf (s : List Char) (c : Char) (cs : List Char) (k : Kind) : Prop where
  kind : (read c (cs ++ s)).1 = k
  taken : (read c (cs ++ s)).2.taken = cs

theorem ReadsInFrontOf.rest {c : Char} {cs s : List Char} {k : Kind} (h : ReadsInFrontOf s c cs k) :
    (read c (cs ++ s)).2.rest = s := by
  have hcut := (read c (cs ++ s)).2.taken_append_rest
  rw [h.taken] at hcut
  exact List.append_cancel_left hcut

/-- What is read does not change when the text ends earlier, but not inside of it. -/
theorem read_shortened {c : Char} {r s more : List Char} (hrest : (read c r).2.rest = s ++ more) :
    ReadsInFrontOf s c (read c r).2.taken (read c r).1 := by
  have hcut : r = (read c r).2.taken ++ s ++ more := by
    rw [List.append_assoc, ← hrest, (read c r).2.taken_append_rest]
  obtain ⟨hkind, htaken, -⟩ := extends_read_of c hcut (.inl ⟨s, hrest.symm⟩)
  exact ⟨hkind.symm, htaken.symm⟩

end Lexeme

theorem tokensFrom_of_reads {offset : Nat} {us cs s : List Char} {c : Char} {t : Token}
    (hus : (Lexeme.gap us).rest = c :: (cs ++ s)) (htext : t.text.toList = c :: cs)
    (hread : Lexeme.ReadsInFrontOf s c cs t.kind)
    (hstart : t.start = offset + Text.utf8Length (Lexeme.gap us).taken) :
    tokensFrom offset us = t :: tokensFrom t.stop s := by
  have hfirst : readToken offset us = (t, s) := by
    rw [← hread.taken] at htext
    rw [readToken_of_read hus hread.kind.symm htext hstart, hread.rest]
  rw [tokensFrom, dif_neg (by simp [hus]), hfirst]

/-- A token is the first one of every part of the text that starts with it. -/
theorem ReadAt.tokens {origin : Nat} {cs r s more : List Char} {t : Token} {c : Char}
    (h : ReadAt origin cs t c r) (hrest : (Lexeme.read c r).2.rest = s ++ more) :
    tokensFrom 0 (t.text.toList ++ s) =
      ⟨t.kind, t.text, 0⟩ :: tokensFrom t.text.utf8ByteSize s := by
  have hno : Lexeme.startsGap (t.text.toList ++ s) = false := by
    rw [h.text, List.cons_append]
    refine Lexeme.startsGap_of_append (s := more) ?_
    rw [List.append_assoc, ← hrest, (Lexeme.read c r).2.taken_append_rest]
    exact h.startsGap
  have hgap := Lexeme.rest_gap_of_not hno
  have hnothing : (Lexeme.gap (t.text.toList ++ s)).taken = [] := by
    have hcut := (Lexeme.gap (t.text.toList ++ s)).taken_append_rest
    rw [hgap] at hcut
    exact List.append_left_eq_self.mp hcut
  have hbehind : (Lexeme.gap (t.text.toList ++ s)).rest = c :: ((Lexeme.read c r).2.taken ++ s) := by
    rw [hgap, h.text, List.cons_append]
  have hread := Lexeme.read_shortened hrest
  rw [← h.kind] at hread
  rw [tokensFrom_of_reads (t := ⟨t.kind, t.text, 0⟩) hbehind h.text hread (by rw [hnothing]; rfl)]
  simp [Token.stop]

/-- The whole text is this token. -/
structure OneToken (text : String) (t : Token) : Prop where
  tokens : tokenize text = [t, .endOfInput text.utf8ByteSize]
  start : t.start = 0
  stop : t.stop = text.utf8ByteSize

theorem ReadAt.oneToken {origin : Nat} {cs r : List Char} {t : Token} {c : Char}
    (h : ReadAt origin cs t c r) : OneToken t.text ⟨t.kind, t.text, 0⟩ := by
  refine ⟨?_, rfl, Nat.zero_add _⟩
  have htokens := h.tokens (s := []) rfl
  rw [List.append_nil] at htokens
  rw [tokenize, htokens, (tokens_of_gap _ Lexeme.rest_gap_nil).2]
  rfl

/-- More text than the token's own is not one token. -/
theorem ReadAt.not_oneToken {origin : Nat} {cs r s more : List Char} {t : Token} {c : Char}
    (h : ReadAt origin cs t c r) (hrest : (Lexeme.read c r).2.rest = s ++ more) (hs : s ≠ [])
    {whole : String} (hwhole : whole.toList = t.text.toList ++ s) (u : Token) :
    ¬ OneToken whole u := by
  intro hone
  have htokens := hone.tokens
  rw [tokenize, hwhole, h.tokens hrest] at htokens
  have hu : (⟨t.kind, t.text, 0⟩ : Token) = u := (List.cons.inj htokens).1
  have hstop : t.text.utf8ByteSize = whole.utf8ByteSize := by
    simpa [← hu, Token.stop] using hone.stop
  rw [Text.utf8ByteSize_eq, Text.utf8ByteSize_eq, hwhole, Text.utf8Length_append] at hstop
  cases s with
  | nil => exact hs rfl
  | cons d s =>
    have := Text.utf8Length_cons_pos d s
    omega

/-- Every token is the longest one there is where it starts. Its characters alone make the same token, and
no longer part of the text from its start on is one token. -/
theorem tokenize_longest (text : String) : ∀ t ∈ tokenize text, t.kind ≠ .eof →
    Text.slice? text t.span = some t.text ∧ OneToken t.text ⟨t.kind, t.text, 0⟩ ∧
      ∀ (longer : Span) (whole : String), longer.start = t.start → t.stop < longer.stop →
        Text.slice? text longer = some whole → ∀ u, ¬ OneToken whole u := by
  intro t ht hkind
  obtain ⟨before, after, hsplit⟩ := List.append_of_mem ht
  obtain ⟨c, r, hread⟩ := exists_readAt_of_mem ht hkind
  refine ⟨(followsBlank_of_tokensFrom hsplit).slice?, hread.oneToken, ?_⟩
  intro longer whole hstart hlonger hwhole u
  obtain ⟨front, hfront, hplace⟩ := hread.place
  obtain ⟨front', after', hslice, hstart', hstop'⟩ := Text.exists_of_slice? hwhole
  rw [Nat.zero_add] at hplace
  -- the part starts with the token, and what it has in addition follows the token in the text
  obtain ⟨-, hbehind⟩ := Text.append_inj_of_utf8Length (hfront.symm.trans hslice) (by omega)
  rw [← (Lexeme.read c r).2.taken_append_rest, ← List.cons_append, ← hread.text] at hbehind
  rw [Token.stop, Text.utf8ByteSize_eq] at hlonger
  obtain ⟨s, hs, hrest⟩ := Text.exists_of_utf8Length_le hbehind (by omega)
  refine hread.not_oneToken hrest ?_ hs u
  rintro rfl
  rw [hs, List.append_nil] at hstop'
  omega

/-- The number goes on over an exponent without digits and over a suffix, but not over the quote. -/
theorem tokenize_longest_number :
    ⟨.floatLiteral, ".5e+f", 3⟩ ∈ tokenize "x>=.5e+f\"" ∧
      OneToken ".5e+f" ⟨.floatLiteral, ".5e+f", 0⟩ ∧ ∀ u, ¬ OneToken ".5e+f\"" u := by
  have hmem : ⟨.floatLiteral, ".5e+f", 3⟩ ∈ tokenize "x>=.5e+f\"" := by decide +kernel
  obtain ⟨-, halone, hlonger⟩ := tokenize_longest _ _ hmem (by decide)
  exact ⟨hmem, halone, hlonger ⟨3, 9, by decide⟩ _ rfl (by decide) (by decide +kernel)⟩

end JavaSyntax
