import JavaSyntax.Parse

namespace JavaSyntax

namespace Text

theorem utf8ByteSize_ofList (cs : List Char) :
    (String.ofList cs).utf8ByteSize = utf8Length cs := by
  induction cs with
  | nil => rfl
  | cons c cs ih =>
    rw [← List.singleton_append, String.ofList_append, String.utf8ByteSize_append, ih]
    simp [utf8Length]

theorem utf8ByteSize_eq (s : String) : s.utf8ByteSize = utf8Length s.toList := by
  rw [← utf8ByteSize_ofList, String.ofList_toList]

/-- An offset, counted from `origin`, between two characters. -/
def Cuts (origin : Nat) (cs : List Char) (offset : Nat) : Prop :=
  ∃ before after, cs = before ++ after ∧ offset = origin + utf8Length before

theorem Cuts.append {origin offset : Nat} {before cs : List Char}
    (h : Cuts (origin + utf8Length before) cs offset) : Cuts origin (before ++ cs) offset := by
  obtain ⟨more, after, rfl, rfl⟩ := h
  exact ⟨before ++ more, after, by simp, by rw [utf8Length_append, Nat.add_assoc]⟩

theorem cuts_start (origin : Nat) (cs : List Char) : Cuts origin cs origin :=
  ⟨[], cs, rfl, rfl⟩

theorem Cuts.le {origin offset : Nat} {cs : List Char} (h : Cuts origin cs offset) :
    offset ≤ origin + utf8Length cs := by
  obtain ⟨before, after, rfl, rfl⟩ := h
  rw [utf8Length_append]
  omega

/-- How `dropBytes` and `takeBytes` count down over a character. -/
theorem exists_utf8Length_cons (c : Char) (cs : List Char) :
    ∃ n, utf8Length (c :: cs) = n + 1 ∧ ¬ n + 1 < c.utf8Size ∧
      n + 1 - c.utf8Size = utf8Length cs := by
  have hc := c.utf8Size_pos
  refine ⟨utf8Length (c :: cs) - 1, ?_⟩
  rw [utf8Length]
  omega

theorem dropBytes_append (before after : List Char) :
    dropBytes (utf8Length before) (before ++ after) = some after := by
  induction before with
  | nil => simp [utf8Length, dropBytes]
  | cons c before ih =>
    obtain ⟨n, hn, hle, he⟩ := exists_utf8Length_cons c before
    rw [hn, List.cons_append, dropBytes, if_neg hle, he, ih]

theorem takeBytes_append (before after : List Char) :
    takeBytes (utf8Length before) (before ++ after) = some before := by
  induction before with
  | nil => simp [utf8Length, takeBytes]
  | cons c before ih =>
    obtain ⟨n, hn, hle, he⟩ := exists_utf8Length_cons c before
    rw [hn, List.cons_append, takeBytes, if_neg hle, he, ih]
    rfl

theorem exists_of_dropBytes {after : List Char} : ∀ {n : Nat} {cs : List Char},
    dropBytes n cs = some after → ∃ before, cs = before ++ after ∧ n = utf8Length before
  | 0, cs, h => ⟨[], by simpa [dropBytes] using h, rfl⟩
  | n + 1, [], h => by cases h
  | n + 1, c :: cs, h => by
    have hc := c.utf8Size_pos
    rw [dropBytes] at h
    split at h
    · cases h
    · obtain ⟨before, rfl, hn⟩ := exists_of_dropBytes h
      exact ⟨c :: before, rfl, by rw [utf8Length, ← hn]; omega⟩

theorem exists_of_takeBytes : ∀ {n : Nat} {cs part : List Char},
    takeBytes n cs = some part → ∃ after, cs = part ++ after ∧ n = utf8Length part
  | 0, cs, part, h => by
    obtain rfl : part = [] := by simpa [takeBytes] using h.symm
    exact ⟨cs, rfl, rfl⟩
  | n + 1, [], part, h => by cases h
  | n + 1, c :: cs, part, h => by
    have hc := c.utf8Size_pos
    rw [takeBytes] at h
    split at h
    · cases h
    · obtain ⟨more, hmore, rfl⟩ := Option.map_eq_some_iff.mp h
      obtain ⟨after, rfl, hn⟩ := exists_of_takeBytes hmore
      exact ⟨after, rfl, by rw [utf8Length, ← hn]; omega⟩

theorem utf8Length_cons_pos (c : Char) (cs : List Char) : 0 < utf8Length (c :: cs) :=
  Nat.add_pos_left c.utf8Size_pos _

/-- Of two beginnings of one text the shorter one begins the longer one. -/
theorem exists_of_utf8Length_le {before after upto beyond : List Char}
    (h : before ++ after = upto ++ beyond) (hle : utf8Length before ≤ utf8Length upto) :
    ∃ mid, upto = before ++ mid ∧ after = mid ++ beyond := by
  rcases List.append_eq_append_iff.mp h with hmid | ⟨mid, h₁, h₂⟩
  · exact hmid
  · cases mid with
    | nil => exact ⟨[], by simpa using h₁.symm, by simpa using h₂.symm⟩
    | cons c mid =>
      have hpos := utf8Length_cons_pos c mid
      rw [h₁, utf8Length_append] at hle
      omega

theorem append_inj_of_utf8Length {before after upto beyond : List Char}
    (h : before ++ after = upto ++ beyond) (hlength : utf8Length before = utf8Length upto) :
    before = upto ∧ after = beyond := by
  obtain ⟨mid, rfl, rfl⟩ := exists_of_utf8Length_le h (Nat.le_of_eq hlength)
  cases mid with
  | nil => exact ⟨(List.append_nil before).symm, rfl⟩
  | cons c mid =>
    have hpos := utf8Length_cons_pos c mid
    rw [utf8Length_append] at hlength
    omega

/-- Between two cuts of a text there is a part of it. -/
theorem slice?_isSome {text : String} {span : Span} (hs : Cuts 0 text.toList span.start)
    (he : Cuts 0 text.toList span.stop) : (slice? text span).isSome = true := by
  obtain ⟨before, after, htext, hstart⟩ := hs
  obtain ⟨upto, beyond, htext', hstop⟩ := he
  rw [Nat.zero_add] at hstart hstop
  have hdrop : dropBytes span.start text.toList = some after := by
    rw [hstart, htext, dropBytes_append]
  -- the later cut lies in what follows the earlier one
  obtain ⟨mid, rfl, rfl⟩ := exists_of_utf8Length_le (htext.symm.trans htext')
    (hstart ▸ hstop ▸ span.start_le_stop)
  have hlen : span.length = utf8Length mid := by
    rw [Span.length, hstart, hstop, utf8Length_append]
    omega
  simp [slice?, hdrop, hlen, takeBytes_append]

end Text

/-- Tokens between two offsets: none is empty and none starts before the one in front of it stops. -/
def InOrder (start stop : Nat) : List Token → Prop
  | [] => start ≤ stop
  | t :: ts => start ≤ t.start ∧ t.start < t.stop ∧ InOrder t.stop stop ts

theorem InOrder.le {ts : List Token} {start stop : Nat} (h : InOrder start stop ts) :
    start ≤ stop := by
  induction ts generalizing start with
  | nil => exact h
  | cons t ts ih =>
    obtain ⟨hs, ht, h⟩ := h
    have := ih h
    omega

theorem InOrder.bounds {ts : List Token} {start stop : Nat} (h : InOrder start stop ts) :
    ∀ t ∈ ts, start ≤ t.start ∧ t.start < t.stop ∧ t.stop ≤ stop := by
  induction ts generalizing start with
  | nil =>
    intro t ht
    cases ht
  | cons u us ih =>
    obtain ⟨hstart, hu, hus⟩ := h
    have hle := hus.le
    rw [List.forall_mem_cons]
    refine ⟨⟨hstart, hu, hle⟩, fun t ht => ?_⟩
    obtain ⟨hs, hlt, he⟩ := ih hus t ht
    exact ⟨by omega, hlt, he⟩

theorem InOrder.pairwise {ts : List Token} {start stop : Nat} (h : InOrder start stop ts) :
    ts.Pairwise fun t u => t.start < u.start ∧ t.stop ≤ u.start := by
  induction ts generalizing start with
  | nil => exact .nil
  | cons t ts ih =>
    obtain ⟨_, ht, hts⟩ := h
    refine .cons (fun u hu => ?_) (ih hts)
    have := (hts.bounds u hu).1
    omega

theorem InOrder.length_le {ts : List Token} {start stop : Nat} (h : InOrder start stop ts) :
    start + ts.length ≤ stop := by
  induction ts generalizing start with
  | nil => exact h
  | cons t ts ih =>
    obtain ⟨hs, ht, h⟩ := h
    have := ih h
    rw [List.length_cons]
    omega

theorem inOrder_append {ts us : List Token} {start stop : Nat} :
    InOrder start stop (ts ++ us) ↔ ∃ mid, InOrder start mid ts ∧ InOrder mid stop us := by
  induction ts generalizing start with
  | nil =>
    constructor
    · intro h
      exact ⟨start, Nat.le_refl _, h⟩
    · rintro ⟨mid, hm, h⟩
      cases us with
      | nil => exact Nat.le_trans hm h
      | cons u us => exact ⟨Nat.le_trans hm h.1, h.2⟩
  | cons t ts ih =>
    simp only [List.cons_append, InOrder, ih]
    constructor
    · rintro ⟨hs, ht, mid, h⟩
      exact ⟨mid, ⟨hs, ht, h.1⟩, h.2⟩
    · rintro ⟨mid, ⟨hs, ht, h₁⟩, h₂⟩
      exact ⟨hs, ht, mid, h₁, h₂⟩

theorem ofKeyword?_ne_eof (s : String) : Kind.ofKeyword? s ≠ some .eof := by
  unfold Kind.ofKeyword?
  split <;> simp

theorem Lexeme.oneOrTwo_ne_eof {long short : Kind} (hl : long ≠ .eof) (hs : short ≠ .eof)
    (next : Char) (cs : List Char) : (oneOrTwo next long short cs).1 ≠ .eof := by
  cases cs with
  | nil => exact hs
  | cons c r =>
    rw [oneOrTwo]
    split
    · exact hl
    · exact hs

theorem Lexeme.number_ne_eof (first : Char) (cs : List Char) : (number first cs).1 ≠ .eof := by
  have hd : ∀ cs, (decimal cs).1 ≠ .eof := by
    intro cs
    unfold decimal
    repeat' (first | split | simp)
  unfold number
  split
  · split
    · simp
    · split
      · simp
      · exact hd _
  · exact hd _

theorem Lexeme.point_ne_eof (cs : List Char) : (point cs).1 ≠ .eof := by
  unfold point
  repeat' (first | split | simp)

/-- Only the end of the input is the end of the input. -/
theorem Lexeme.read_ne_eof (first : Char) (cs : List Char) : (read first cs).1 ≠ .eof := by
  have hq : ∀ (k : Kind), k ≠ .eof → ∀ q, (literal k (quoted q cs)).1 ≠ .eof := by
    intro k hk q
    simp only [literal]
    split
    · exact hk
    · simp
  have hw : (word first cs).1 ≠ .eof := by
    simp only [word]
    cases h : Kind.ofKeyword? (String.ofList (first :: (Cut.span isWordPart cs).taken)) with
    | none => simp
    | some k =>
      rintro rfl
      exact ofKeyword?_ne_eof _ h
  unfold read
  split
  all_goals first
    | exact oneOrTwo_ne_eof (by decide) (by decide) _ _
    | exact point_ne_eof _
    | exact hq _ (by decide) _
    | (intro h; cases h)
    | skip
  split
  · exact number_ne_eof _ _
  · split
    · exact hw
    · simp

theorem Lexeme.rest_gap_nil : (gap []).rest = [] := by
  rw [gap]
  rfl

theorem readToken_of_read {offset : Nat} {us r : List Char} {c : Char} {t : Token}
    (hus : (Lexeme.gap us).rest = c :: r) (hkind : t.kind = (Lexeme.read c r).1)
    (htext : t.text.toList = c :: (Lexeme.read c r).2.taken)
    (hstart : t.start = offset + Text.utf8Length (Lexeme.gap us).taken) :
    readToken offset us = (t, (Lexeme.read c r).2.rest) := by
  simp [readToken, hus, ← hkind, ← htext, ← hstart]

/-- The characters are a gap, the token `t`, and what the tokens after it are read from. -/
structure FirstToken (offset : Nat) (cs : List Char) (t : Token) (rest : List Char) : Prop where
  read : readToken offset cs = (t, rest)
  tokens : tokensFrom offset cs = t :: tokensFrom t.stop rest
  behindGap : (Lexeme.gap cs).rest = t.text.toList ++ rest
  start_eq : t.start = offset + Text.utf8Length (Lexeme.gap cs).taken
  ne_eof : t.kind ≠ .eof
  ne_nil : t.text.toList ≠ []
  shorter : rest.length < cs.length

theorem exists_firstToken (offset : Nat) {cs : List Char} (h : (Lexeme.gap cs).rest ≠ []) :
    ∃ t rest, FirstToken offset cs t rest := by
  have hlt : (readToken offset cs).2.length < cs.length := readToken_length_lt h
  have htokens : tokensFrom offset cs =
      (readToken offset cs).1 :: tokensFrom (readToken offset cs).1.stop (readToken offset cs).2 := by
    rw [tokensFrom, dif_neg h]
  cases hr : (Lexeme.gap cs).rest with
  | nil => exact absurd hr h
  | cons c r =>
    have hread : readToken offset cs =
        (⟨(Lexeme.read c r).1, String.ofList (c :: (Lexeme.read c r).2.taken),
          offset + Text.utf8Length (Lexeme.gap cs).taken⟩, (Lexeme.read c r).2.rest) := by
      rw [readToken]
      simp only [hr]
    have hcut := (Lexeme.read c r).2.taken_append_rest
    rw [hread] at htokens hlt
    refine ⟨_, _, hread, htokens, ?_, rfl, Lexeme.read_ne_eof c r, by simp, hlt⟩
    rw [hr, String.toList_ofList, List.cons_append, hcut]

theorem FirstToken.exists_read {offset : Nat} {cs rest : List Char} {t : Token}
    (h : FirstToken offset cs t rest) :
    ∃ c r, (Lexeme.gap cs).rest = c :: r ∧ t.kind = (Lexeme.read c r).1 ∧
      t.text.toList = c :: (Lexeme.read c r).2.taken ∧ rest = (Lexeme.read c r).2.rest := by
  cases hr : (Lexeme.gap cs).rest with
  | nil => exact absurd (List.append_eq_nil_iff.mp (h.behindGap.symm.trans hr)).1 h.ne_nil
  | cons c r =>
    have hread := h.read
    simp only [readToken, hr, Prod.mk.injEq] at hread
    obtain ⟨rfl, rfl⟩ := hread
    exact ⟨c, r, rfl, rfl, String.toList_ofList, rfl⟩

theorem FirstToken.text_eq {offset : Nat} {cs rest : List Char} {t : Token}
    (h : FirstToken offset cs t rest) : cs = (Lexeme.gap cs).taken ++ t.text.toList ++ rest := by
  rw [List.append_assoc, ← h.behindGap, (Lexeme.gap cs).taken_append_rest]

theorem FirstToken.stop_eq {offset : Nat} {cs rest : List Char} {t : Token}
    (h : FirstToken offset cs t rest) :
    t.stop = offset + Text.utf8Length ((Lexeme.gap cs).taken ++ t.text.toList) := by
  rw [Token.stop, h.start_eq, Text.utf8ByteSize_eq, Text.utf8Length_append, Nat.add_assoc]

theorem FirstToken.end_eq {offset : Nat} {cs rest : List Char} {t : Token}
    (h : FirstToken offset cs t rest) :
    t.stop + Text.utf8Length rest = offset + Text.utf8Length cs := by
  rw [h.stop_eq, Nat.add_assoc, ← Text.utf8Length_append, ← h.text_eq]

theorem FirstToken.start_lt_stop {offset : Nat} {cs rest : List Char} {t : Token}
    (h : FirstToken offset cs t rest) : t.start < t.stop := by
  have hne := h.ne_nil
  rw [Token.stop, Text.utf8ByteSize_eq]
  cases htext : t.text.toList with
  | nil => exact absurd htext hne
  | cons c cs => exact Nat.lt_add_of_pos_right (Text.utf8Length_cons_pos c cs)

/-- Where nothing but a gap is left, the only token is the end of the input. -/
theorem tokens_of_gap (offset : Nat) {cs : List Char} (h : (Lexeme.gap cs).rest = []) :
    readToken offset cs = (.endOfInput (offset + Text.utf8Length cs), []) ∧
      tokensFrom offset cs = [.endOfInput (offset + Text.utf8Length cs)] := by
  have hcut := (Lexeme.gap cs).taken_append_rest
  rw [h, List.append_nil] at hcut
  have hread : readToken offset cs = (.endOfInput (offset + Text.utf8Length cs), []) := by
    rw [readToken, hcut]
    simp only [h]
  exact ⟨hread, by rw [tokensFrom, dif_pos h, hread]⟩

/-- The tokens of a text without the end of the input. -/
structure Covers (origin : Nat) (cs : List Char) (ts : List Token) : Prop where
  ne_eof : ∀ t ∈ ts, t.kind ≠ .eof
  inOrder : InOrder origin (origin + Text.utf8Length cs) ts
  cuts : ∀ t ∈ ts, Text.Cuts origin cs t.start ∧ Text.Cuts origin cs t.stop

theorem tokensFrom_covers (origin : Nat) (cs : List Char) :
    ∃ ts, tokensFrom origin cs = ts ++ [.endOfInput (origin + Text.utf8Length cs)] ∧
      Covers origin cs ts := by
  by_cases hend : (Lexeme.gap cs).rest = []
  · exact ⟨[], (tokens_of_gap origin hend).2, by simp, by simp [InOrder], by simp⟩
  · obtain ⟨t, rest, ht⟩ := exists_firstToken origin hend
    have hlt := ht.shorter
    obtain ⟨ts, hts, hcov⟩ := tokensFrom_covers t.stop rest
    rw [ht.end_eq] at hts
    refine ⟨t :: ts, by rw [ht.tokens, hts, List.cons_append], ?_, ?_, ?_⟩
    · intro u hu
      rcases List.mem_cons.mp hu with rfl | hu
      · exact ht.ne_eof
      · exact hcov.ne_eof u hu
    · exact ⟨ht.start_eq ▸ Nat.le_add_right .., ht.start_lt_stop, ht.end_eq ▸ hcov.inOrder⟩
    · intro u hu
      rcases List.mem_cons.mp hu with rfl | hu
      · exact ⟨⟨_, _, (Lexeme.gap cs).taken_append_rest.symm, ht.start_eq⟩,
          _, _, ht.text_eq, ht.stop_eq⟩
      · have hcuts := hcov.cuts u hu
        rw [ht.stop_eq] at hcuts
        rw [ht.text_eq]
        exact ⟨hcuts.1.append, hcuts.2.append⟩
termination_by cs.length
decreasing_by exact hlt

/-- What the grammar reads is every token but the end of the input. -/
theorem significantTokens_eq_filter (text : String) :
    significantTokens text = (tokenize text).filter fun t => t.kind ≠ .eof := by
  obtain ⟨ts, hts, hcov⟩ := tokensFrom_covers 0 text.toList
  rw [significantTokens, tokenize, hts, List.dropLast_concat, List.filter_append]
  have hall : ts.filter (fun t => t.kind ≠ .eof) = ts :=
    List.filter_eq_self.mpr fun t ht => by simpa using hcov.ne_eof t ht
  rw [hall]
  simp [Token.endOfInput]

/-- The end of the input comes after all that the grammar reads. -/
theorem tokenize_eq_append (text : String) :
    tokenize text = significantTokens text ++ [.endOfInput text.utf8ByteSize] := by
  obtain ⟨ts, hts, _⟩ := tokensFrom_covers 0 text.toList
  rw [Nat.zero_add, ← Text.utf8ByteSize_eq] at hts
  rw [significantTokens, tokenize, hts, List.dropLast_concat]

theorem significantTokens_covers (text : String) :
    Covers 0 text.toList (significantTokens text) := by
  obtain ⟨ts, hts, hcov⟩ := tokensFrom_covers 0 text.toList
  rw [significantTokens, tokenize, hts, List.dropLast_concat]
  exact hcov

theorem kind_ne_eof_of_mem {text : String} {t : Token} (h : t ∈ significantTokens text) :
    t.kind ≠ .eof :=
  (significantTokens_covers text).ne_eof t h

end JavaSyntax
