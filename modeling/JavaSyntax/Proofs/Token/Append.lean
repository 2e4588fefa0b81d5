import JavaSyntax.Proofs.Token.Gap

namespace JavaSyntax

namespace Token

/-- The token that many bytes further on. -/
def shift (n : Nat) (t : Token) : Token := { t with start := t.start + n }

theorem stop_shift (n : Nat) (t : Token) : (t.shift n).stop = t.stop + n :=
  Nat.add_right_comm ..

end Token

theorem readToken_shift (n offset : Nat) (cs : List Char) :
    readToken (offset + n) cs = ((readToken offset cs).1.shift n, (readToken offset cs).2) := by
  cases hr : (Lexeme.gap cs).rest <;>
    simp [readToken, hr, Token.shift, Token.endOfInput, Nat.add_right_comm]

/-- Behind a prefix the same tokens are read, further on. -/
theorem tokensFrom_shift (n offset : Nat) (cs : List Char) :
    tokensFrom (offset + n) cs = (tokensFrom offset cs).map (Token.shift n) := by
  have hlater := readToken_shift n offset cs
  by_cases h : (Lexeme.gap cs).rest = []
  · rw [tokensFrom, dif_pos h, tokensFrom, dif_pos h, hlater]
    rfl
  · have hlt : (readToken offset cs).2.length < cs.length := readToken_length_lt h
    have hhere : tokensFrom offset cs =
        (readToken offset cs).1 :: tokensFrom (readToken offset cs).1.stop (readToken offset cs).2 := by
      rw [tokensFrom, dif_neg h]
    have ih := tokensFrom_shift n (readToken offset cs).1.stop (readToken offset cs).2
    rw [hhere, tokensFrom, dif_neg h, hlater, Token.stop_shift, ih]
    rfl
termination_by cs.length

/-- Where the last token of `cs` stops, if there is one. -/
def lastTokenStop (offset : Nat) (cs : List Char) : Nat :=
  (tokensFrom offset cs).dropLast.getLast?.elim offset Token.stop

/-- Behind the last token a comment starts that does not end. -/
def EndsOpen (offset : Nat) (cs : List Char) : Prop :=
  ∃ front rest, cs = front ++ rest ∧ offset + Text.utf8Length front = lastTokenStop offset cs ∧
    Lexeme.OpenComment rest

theorem FirstToken.dropLast_tokens {offset : Nat} {cs rest : List Char} {t : Token}
    (h : FirstToken offset cs t rest) :
    (tokensFrom offset cs).dropLast = t :: (tokensFrom t.stop rest).dropLast := by
  obtain ⟨ts, hts, -⟩ := tokensFrom_covers t.stop rest
  rw [h.tokens, hts, ← List.cons_append, List.dropLast_concat, List.dropLast_concat]

theorem FirstToken.lastTokenStop {offset : Nat} {cs rest : List Char} {t : Token}
    (h : FirstToken offset cs t rest) :
    JavaSyntax.lastTokenStop offset cs = JavaSyntax.lastTokenStop t.stop rest := by
  rw [JavaSyntax.lastTokenStop, JavaSyntax.lastTokenStop, h.dropLast_tokens, List.getLast?_cons]
  cases (tokensFrom t.stop rest).dropLast.getLast? <;> rfl

theorem FirstToken.endsOpen {offset : Nat} {cs rest : List Char} {t : Token}
    (h : FirstToken offset cs t rest) (hopen : EndsOpen t.stop rest) : EndsOpen offset cs := by
  obtain ⟨front, more, hcut, hstop, hcomment⟩ := hopen
  refine ⟨(Lexeme.gap cs).taken ++ t.text.toList ++ front, more, ?_, ?_, hcomment⟩
  · rw [List.append_assoc _ front, ← hcut]
    exact h.text_eq
  · rw [h.lastTokenStop, ← hstop, h.stop_eq, Text.utf8Length_append _ front, Nat.add_assoc]

/-- A known token in front of a line end is read whatever comes after it. -/
theorem FirstToken.append {offset : Nat} {cs rest : List Char} {t : Token} {sep : Char}
    (h : FirstToken offset cs t rest) (hsep : IsBreak sep) (hknown : t.kind ≠ .unknown)
    (s : List Char) : FirstToken offset (cs ++ sep :: s) t (rest ++ sep :: s) := by
  have hgap : (Lexeme.gap cs).rest ≠ [] := by
    rw [h.behindGap]
    exact List.append_ne_nil_of_left_ne_nil h.ne_nil _
  have hmore := Lexeme.rest_gap_append hsep s cs hgap
  have htaken : (Lexeme.gap (cs ++ sep :: s)).taken = (Lexeme.gap cs).taken := by
    have hcut := (Lexeme.gap (cs ++ sep :: s)).taken_append_rest
    rw [hmore, ← List.append_assoc] at hcut
    exact List.append_cancel_right
      ((List.append_cancel_right hcut).trans (Lexeme.gap cs).taken_append_rest.symm)
  have hread : readToken offset (cs ++ sep :: s) = (t, rest ++ sep :: s) := by
    obtain ⟨c, r, hbehind, hkind, htext, rfl⟩ := h.exists_read
    obtain ⟨hsame, htaken', hrest⟩ := Lexeme.extends_read hsep c r s (hkind ▸ hknown)
    rw [hbehind, List.cons_append] at hmore
    rw [← htaken'] at htext
    rw [readToken_of_read hmore (hkind.trans hsame.symm) htext (htaken ▸ h.start_eq), hrest]
  have htokens : tokensFrom offset (cs ++ sep :: s) = t :: tokensFrom t.stop (rest ++ sep :: s) := by
    have hne : (Lexeme.gap (cs ++ sep :: s)).rest ≠ [] := by
      rw [hmore]
      exact List.append_ne_nil_of_left_ne_nil hgap _
    rw [tokensFrom, dif_neg hne, hread]
  refine ⟨hread, htokens, ?_, ?_, h.ne_eof, h.ne_nil, ?_⟩
  · rw [hmore, h.behindGap, List.append_assoc]
  · rw [htaken]
    exact h.start_eq
  · have := h.shorter
    simp only [List.length_append]
    omega

/-- Texts that have the same behind their gaps and end at the same place have the same tokens. -/
theorem tokensFrom_of_rest {o o' : Nat} {us cs : List Char}
    (hrest : (Lexeme.gap us).rest = (Lexeme.gap cs).rest)
    (hend : o + Text.utf8Length us = o' + Text.utf8Length cs) :
    tokensFrom o us = tokensFrom o' cs := by
  have hus := congrArg Text.utf8Length (Lexeme.gap us).taken_append_rest
  have hcs := congrArg Text.utf8Length (Lexeme.gap cs).taken_append_rest
  rw [Text.utf8Length_append] at hus hcs
  rw [hrest] at hus
  have hstart : o + Text.utf8Length (Lexeme.gap us).taken =
      o' + Text.utf8Length (Lexeme.gap cs).taken := by omega
  have hread : readToken o us = readToken o' cs := by
    simp only [readToken, hrest, hstart]
  by_cases h : (Lexeme.gap cs).rest = []
  · rw [tokensFrom, dif_pos (hrest.trans h), hread, tokensFrom, dif_pos h]
  · have hthere : tokensFrom o us = (readToken o us).1 ::
        tokensFrom (readToken o us).1.stop (readToken o us).2 := by
      rw [tokensFrom, dif_neg (hrest ▸ h)]
    rw [hthere, hread, tokensFrom.eq_def o' cs, dif_neg h]

/-- Behind known tokens and closed comments a line end starts afresh. -/
theorem tokensFrom_newline (s : List Char) (offset : Nat) (cs : List Char)
    (hknown : ∀ t ∈ tokensFrom offset cs, t.kind ≠ .unknown) (hopen : ¬ EndsOpen offset cs) :
    tokensFrom offset (cs ++ '\n' :: s) =
      (tokensFrom offset cs).dropLast ++ tokensFrom (offset + Text.utf8Length cs + 1) s := by
  by_cases hend : (Lexeme.gap cs).rest = []
  · have htokens := (tokens_of_gap offset hend).2
    have hopen' : ¬ Lexeme.OpenComment cs := by
      intro hcomment
      refine hopen ⟨[], cs, rfl, ?_, hcomment⟩
      rw [lastTokenStop, htokens]
      rfl
    have hlength : offset + Text.utf8Length (cs ++ '\n' :: s) =
        offset + Text.utf8Length cs + 1 + Text.utf8Length s := by
      have hnewline : ('\n' : Char).utf8Size = 1 := by decide
      rw [Text.utf8Length_append, Text.utf8Length, hnewline]
      omega
    rw [htokens, tokensFrom_of_rest (Lexeme.rest_gap_newline s cs hend hopen') hlength]
    rfl
  · obtain ⟨t, rest, ht⟩ := exists_firstToken offset hend
    have hlt := ht.shorter
    have htokens := ht.tokens
    rw [htokens] at hknown
    obtain ⟨hfirst, hmore⟩ := List.forall_mem_cons.mp hknown
    have ih := tokensFrom_newline s t.stop rest hmore fun h => hopen (ht.endsOpen h)
    rw [(ht.append .newline hfirst s).tokens, ih, ht.dropLast_tokens, ht.end_eq]
    rfl
termination_by cs.length

/-- A comment starts behind the last token of the text and does not end. -/
def EndsInComment (text : String) : Prop :=
  ∃ front gap body, text.toList = front ++ gap ++ '/' :: '*' :: body ∧
    Text.utf8Length front = (significantTokens text).getLast?.elim 0 Token.stop ∧
    Lexeme.Blank gap ('/' :: '*' :: body) ∧ ¬ ['*', '/'] <:+: body

theorem endsInComment_of_endsOpen {text : String} (h : EndsOpen 0 text.toList) :
    EndsInComment text := by
  obtain ⟨front, rest, hcut, hstop, gap, body, rfl, hblank, hbody⟩ := h
  refine ⟨front, gap, body, by rw [hcut, List.append_assoc], ?_, hblank, hbody⟩
  rw [← Nat.zero_add (Text.utf8Length front), hstop]
  rfl

/-- Without a slash there are no comments. -/
theorem not_endsInComment {text : String} (h : '/' ∉ text.toList) : ¬ EndsInComment text := by
  rintro ⟨front, gap, body, hcut, -⟩
  rw [hcut] at h
  exact h (List.mem_append_right _ List.mem_cons_self)

/-- The tokens of two texts with a line end between them. -/
theorem significantTokens_newline {a : String} (b : String)
    (hknown : ∀ t ∈ significantTokens a, t.kind ≠ .unknown) (hopen : ¬ EndsInComment a) :
    significantTokens (a ++ "\n" ++ b) =
      significantTokens a ++ (significantTokens b).map (Token.shift (a.utf8ByteSize + 1)) := by
  have hknown' : ∀ t ∈ tokensFrom 0 a.toList, t.kind ≠ .unknown := by
    intro t ht
    change t ∈ tokenize a at ht
    rw [tokenize_eq_append] at ht
    rcases List.mem_append.mp ht with ht | ht
    · exact hknown t ht
    · rw [List.mem_singleton.mp ht]
      intro heof
      cases heof
  have htokens := tokensFrom_newline b.toList 0 a.toList hknown'
    fun h => hopen (endsInComment_of_endsOpen h)
  have htext : (a ++ "\n" ++ b).toList = a.toList ++ '\n' :: b.toList := by
    simp
  have hb : tokensFrom (0 + Text.utf8Length a.toList + 1) b.toList =
      (significantTokens b ++ [Token.endOfInput b.utf8ByteSize]).map
        (Token.shift (a.utf8ByteSize + 1)) := by
    rw [Nat.add_assoc, tokensFrom_shift, ← Text.utf8ByteSize_eq, ← tokenize_eq_append]
    rfl
  rw [significantTokens, tokenize, htext, htokens, hb, List.map_append, ← List.append_assoc,
    List.map_singleton, List.dropLast_concat]
  rfl

end JavaSyntax
