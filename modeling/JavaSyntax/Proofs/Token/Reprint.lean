import JavaSyntax.Proofs.Token.Longest

namespace JavaSyntax

namespace Lexeme

/-- A literal that a line end left open is left open by another line end too. -/
theorem quoted_newline {quote : Char} (s : List Char) : ∀ {cs : List Char},
    (quoted quote cs).1 = false → (quoted quote cs).2.rest ≠ [] →
      (quoted quote ((quoted quote cs).2.taken ++ '\n' :: s)).1 = false ∧
        (quoted quote ((quoted quote cs).2.taken ++ '\n' :: s)).2.taken = (quoted quote cs).2.taken
  | [], _, hrest => absurd rfl hrest
  | c :: cs, hopen, hrest => by
    by_cases hc : c = '\\'
    · subst hc
      cases cs with
      | nil => exact absurd rfl hrest
      | cons d cs =>
        obtain ⟨hstill, htaken⟩ := @quoted_newline quote s cs hopen hrest
        exact ⟨hstill, congrArg (fun taken => '\\' :: d :: taken) htaken⟩
    · rw [quoted_cons hc] at hopen hrest ⊢
      by_cases hend : c = '\n' ∨ c = '\r'
      · rw [if_pos hend, Cut.before, List.nil_append, quoted_cons (by decide), if_pos (.inl rfl)]
        exact ⟨rfl, rfl⟩
      · rw [if_neg hend] at hopen hrest ⊢
        by_cases hquote : c = quote
        · rw [if_pos hquote] at hopen
          cases hopen
        · rw [if_neg hquote] at hopen hrest ⊢
          obtain ⟨hstill, htaken⟩ := quoted_newline s hopen hrest
          rw [Cut.taken_cons, List.cons_append, quoted_cons hc, if_neg hend, if_neg hquote]
          exact ⟨hstill, congrArg (c :: ·) htaken⟩

theorem literal_newline {kind : Kind} {quote : Char} {r : List Char} (s : List Char)
    (hkind : kind ≠ .unknown) (hunknown : (literal kind (quoted quote r)).1 = .unknown)
    (hrest : (quoted quote r).2.rest ≠ []) :
    (literal kind (quoted quote ((quoted quote r).2.taken ++ '\n' :: s))).1 = .unknown ∧
      (quoted quote ((quoted quote r).2.taken ++ '\n' :: s)).2.taken = (quoted quote r).2.taken := by
  have hopen : (quoted quote r).1 = false := by
    cases hclosed : (quoted quote r).1 with
    | false => rfl
    | true =>
      rw [literal, hclosed] at hunknown
      exact absurd hunknown hkind
  obtain ⟨hstill, htaken⟩ := quoted_newline s hopen hrest
  exact ⟨by rw [literal, hstill]; rfl, htaken⟩

/-- What was read in front of something is read alike in front of a line end. -/
theorem read_newline {c : Char} {r : List Char} (s : List Char) (hrest : (read c r).2.rest ≠ []) :
    ReadsInFrontOf ('\n' :: s) c (read c r).2.taken (read c r).1 := by
  obtain ⟨hkind, htaken⟩ := read_shortened (c := c) (r := r) (s := []) rfl
  rw [List.append_nil] at hkind htaken
  by_cases hopen : (c = '"' ∨ c = '\'') ∧ (read c r).1 = .unknown
  · obtain ⟨rfl | rfl, hunknown⟩ := hopen
    · obtain ⟨hstill, hsame⟩ := literal_newline s (by decide) hunknown hrest
      exact ⟨hstill.trans hunknown.symm, hsame⟩
    · obtain ⟨hstill, hsame⟩ := literal_newline s (by decide) hunknown hrest
      exact ⟨hstill.trans hunknown.symm, hsame⟩
  · obtain ⟨hkind', htaken', -⟩ := extends_read_of c (rfl : (read c r).2.taken ++ '\n' :: s = _)
      (.inr ⟨⟨'\n', s, .newline, rfl⟩, fun hquote hunknown => hopen ⟨hquote, hkind ▸ hunknown⟩⟩)
    exact ⟨hkind'.trans hkind, htaken'.trans htaken⟩

end Lexeme

/-- The texts of the tokens, each on a line of its own. -/
def onLines (ts : List Token) : String :=
  "\n".intercalate ((ts.filter fun t => t.kind ≠ .eof).map Token.text)

theorem onLines_of_gap (offset : Nat) {cs : List Char} (h : (Lexeme.gap cs).rest = []) :
    onLines (tokensFrom offset cs) = "" := by
  rw [(tokens_of_gap offset h).2]
  rfl

theorem FirstToken.onLines_last {offset : Nat} {cs rest : List Char} {t : Token}
    (h : FirstToken offset cs t rest) (hend : (Lexeme.gap rest).rest = []) :
    onLines (tokensFrom offset cs) = t.text := by
  rw [h.tokens, (tokens_of_gap _ hend).2]
  simp [onLines, h.ne_eof, Token.endOfInput]

/-- In front of a token that comes after the first one there is a line end. -/
theorem FirstToken.onLines_cons {offset : Nat} {cs rest : List Char} {t : Token}
    (h : FirstToken offset cs t rest) (hmore : (Lexeme.gap rest).rest ≠ []) :
    (onLines (tokensFrom offset cs)).toList =
      t.text.toList ++ '\n' :: (onLines (tokensFrom t.stop rest)).toList := by
  obtain ⟨u, after, hu⟩ := exists_firstToken t.stop hmore
  rw [h.tokens, hu.tokens]
  simp [onLines, h.ne_eof, hu.ne_eof, String.intercalate_cons_cons]

theorem startsGap_onLines {offset : Nat} {cs : List Char} (h : (Lexeme.gap cs).rest ≠ []) :
    Lexeme.startsGap (onLines (tokensFrom offset cs)).toList = false := by
  obtain ⟨t, rest, ht⟩ := exists_firstToken offset h
  have hno : Lexeme.startsGap t.text.toList = false := by
    have hbehind := Lexeme.startsGap_rest_gap cs h
    obtain ⟨c, r, -, -, htext, -⟩ := ht.exists_read
    rw [ht.behindGap, htext] at hbehind
    rw [htext]
    exact Lexeme.startsGap_of_append hbehind
  by_cases hend : (Lexeme.gap rest).rest = []
  · rw [ht.onLines_last hend]
    exact hno
  · rw [ht.onLines_cons hend]
    exact Lexeme.startsGap_append .newline _ hno

/-- The kinds and the texts of tokens. -/
def spelling (ts : List Token) : List (Kind × String) := ts.map fun t => (t.kind, t.text)

/-- Where tokens are left on lines of their own, they are read again. -/
theorem spelling_of_onLines {offset offset' : Nat} {us cs : List Char}
    (hus : (Lexeme.gap us).rest = (onLines (tokensFrom offset cs)).toList) :
    spelling (tokensFrom offset' us) = spelling (tokensFrom offset cs) := by
  by_cases hgap : (Lexeme.gap cs).rest = []
  · rw [onLines_of_gap offset hgap] at hus
    rw [(tokens_of_gap offset hgap).2, (tokens_of_gap offset' hus).2]
    rfl
  · obtain ⟨t, rest, ht⟩ := exists_firstToken offset hgap
    have hlt := ht.shorter
    obtain ⟨c, r, hbehind, hkind, htext, hrest⟩ := ht.exists_read
    let t' : Token := ⟨t.kind, t.text, offset' + Text.utf8Length (Lexeme.gap us).taken⟩
    have hstep {s : List Char} (hs : (Lexeme.gap us).rest = t.text.toList ++ s)
        (hread : Lexeme.ReadsInFrontOf s c (Lexeme.read c r).2.taken (Lexeme.read c r).1)
        (hmore : spelling (tokensFrom t'.stop s) = spelling (tokensFrom t.stop rest)) :
        spelling (tokensFrom offset' us) = spelling (tokensFrom offset cs) := by
      rw [htext] at hs
      rw [← hkind] at hread
      rw [tokensFrom_of_reads (t := t') hs htext hread rfl, ht.tokens]
      exact congrArg ((t.kind, t.text) :: ·) hmore
    by_cases hend : (Lexeme.gap rest).rest = []
    · rw [ht.onLines_last hend] at hus
      refine hstep (by rw [hus, List.append_nil]) (Lexeme.read_shortened rfl) ?_
      refine spelling_of_onLines ?_
      rw [onLines_of_gap t.stop hend]
      exact Lexeme.rest_gap_nil
    · rw [ht.onLines_cons hend] at hus
      have hne : rest ≠ [] := by
        rintro rfl
        exact hend Lexeme.rest_gap_nil
      refine hstep hus (Lexeme.read_newline _ (hrest ▸ hne)) (spelling_of_onLines ?_)
      rw [Lexeme.rest_gap_white (by decide), Lexeme.rest_gap_of_not (startsGap_onLines hend)]
termination_by cs.length

/-- The tokens of a text, the unknown ones included, are the tokens of their texts with a line end after
each but the last. -/
theorem tokenize_onLines (text : String) :
    (tokenize (onLines (tokenize text))).map (fun t => (t.kind, t.text)) =
      (tokenize text).map fun t => (t.kind, t.text) := by
  refine spelling_of_onLines ?_
  by_cases hgap : (Lexeme.gap text.toList).rest = []
  · rw [tokenize, onLines_of_gap 0 hgap]
    exact Lexeme.rest_gap_nil
  · exact Lexeme.rest_gap_of_not (startsGap_onLines hgap)

example : onLines (tokenize "a/**/\"b;\n&'c'") = "a\n\"b;\n&\n'c'" := by decide +kernel

end JavaSyntax
