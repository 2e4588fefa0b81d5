import JavaSyntax.Proofs.Token.Boundary
import JavaSyntax.Proofs.Token.Tiling

namespace JavaSyntax

namespace Lexeme

def startsComment : List Char → Bool
  | '/' :: '/' :: _ => true
  | '/' :: '*' :: _ => true
  | _ => false

/-- White space or a comment starts here, or there is nothing left. -/
def startsGap : List Char → Bool
  | [] => true
  | c :: cs => Text.isWhiteSpace c || startsComment (c :: cs)

theorem startsComment_eq_false {c : Char} {cs : List Char} :
    startsComment (c :: cs) = false ↔
      (∀ r, c = '/' → cs ≠ '/' :: r) ∧ ∀ r, c = '/' → cs ≠ '*' :: r := by
  constructor
  · intro h
    refine ⟨?_, ?_⟩
    all_goals
      rintro r rfl rfl
      cases h
  · rintro ⟨hline, hblock⟩
    rw [startsComment]
    · intro r h
      exact hline r (List.cons.inj h).1 (List.cons.inj h).2
    · intro r h
      exact hblock r (List.cons.inj h).1 (List.cons.inj h).2

theorem rest_gap_cons {c : Char} {cs : List Char} (h : startsComment (c :: cs) = false) :
    (gap (c :: cs)).rest =
      if Text.isWhiteSpace c then (gap (Cut.span Text.isWhiteSpace cs).rest).rest else c :: cs := by
  obtain ⟨hline, hblock⟩ := startsComment_eq_false.mp h
  rw [gap]
  · split <;> rfl
  · exact hline
  · exact hblock

theorem rest_gap_of_not {cs : List Char} (h : startsGap cs = false) : (gap cs).rest = cs := by
  cases cs with
  | nil => cases h
  | cons c cs =>
    obtain ⟨hblank, hcomment⟩ := Bool.or_eq_false_iff.mp h
    rw [rest_gap_cons hcomment, hblank]
    rfl

/-- A gap takes something. -/
theorem length_rest_gap_le {c : Char} {cs : List Char} (h : startsGap (c :: cs) = true) :
    (gap (c :: cs)).rest.length ≤ cs.length := by
  by_cases hcomment : startsComment (c :: cs) = true
  · unfold startsComment at hcomment
    split at hcomment
    · next r heq =>
      cases heq
      have hline := (Cut.span (· != '\n') r).length_rest_le
      have hafter := (gap (Cut.span (· != '\n') r).rest).length_rest_le
      rw [gap]
      exact Nat.le_succ_of_le (Nat.le_trans hafter hline)
    · next r heq =>
      cases heq
      have hblock := (commentTail r).length_rest_le
      have hafter := (gap (commentTail r).rest).length_rest_le
      rw [gap]
      exact Nat.le_succ_of_le (Nat.le_trans hafter hblock)
    · cases hcomment
  · rw [Bool.not_eq_true] at hcomment
    have hblank : Text.isWhiteSpace c = true := by simpa [startsGap, hcomment] using h
    rw [rest_gap_cons hcomment, if_pos hblank]
    exact Nat.le_trans (Cut.length_rest_le _) (Cut.length_rest_le _)

theorem startsGap_append {sep : Char} (hsep : IsBreak sep) {cs : List Char} (r : List Char)
    (h : startsGap cs = false) : startsGap (cs ++ sep :: r) = false := by
  cases cs with
  | nil => cases h
  | cons c cs =>
    obtain ⟨hblank, hcomment⟩ := Bool.or_eq_false_iff.mp h
    refine Bool.or_eq_false_iff.mpr ⟨hblank, ?_⟩
    cases cs with
    | nil => cases hsep <;> simp [startsComment]
    | cons d cs =>
      rw [startsComment_eq_false] at hcomment ⊢
      obtain ⟨hline, hblock⟩ := hcomment
      refine ⟨?_, ?_⟩
      · intro s hc hs
        exact hline cs hc (by rw [(List.cons.inj hs).1])
      · intro s hc hs
        exact hblock cs hc (by rw [(List.cons.inj hs).1])

/-- A single space in front of a token is all that is left out. -/
theorem rest_gap_space {cs : List Char} (h : startsGap cs = false) :
    (gap (' ' :: cs)).rest = cs := by
  have hspan : (Cut.span Text.isWhiteSpace cs).rest = cs := by
    cases cs with
    | nil => rfl
    | cons c cs =>
      obtain ⟨hblank, -⟩ := Bool.or_eq_false_iff.mp h
      simp [Cut.span, hblank]
  rw [rest_gap_cons (by simp [startsComment]), if_pos (by decide), hspan]
  exact rest_gap_of_not h

/-- White space in front of a gap belongs to the gap. -/
theorem rest_gap_white {c : Char} (h : Text.isWhiteSpace c = true) (cs : List Char) :
    (gap (c :: cs)).rest = (gap cs).rest := by
  have hslash {d : Char} {ds : List Char} (hd : Text.isWhiteSpace d = true) :
      startsComment (d :: ds) = false := by
    rw [startsComment_eq_false]
    constructor
    all_goals
      rintro r rfl
      cases hd
  rw [rest_gap_cons (hslash h), if_pos h]
  cases cs with
  | nil => rfl
  | cons d ds =>
    by_cases hd : Text.isWhiteSpace d = true
    · rw [rest_gap_cons (hslash hd), if_pos hd, Cut.rest_span, Cut.rest_span,
        List.dropWhile_cons_of_pos hd]
    · rw [Cut.rest_span, List.dropWhile_cons_of_neg hd]

/-- There is nothing, a comment, white space, or something that is no gap. -/
theorem gap_cases (cs : List Char) :
    cs = [] ∨
      (∃ r, cs = '/' :: '/' :: r ∧ (gap cs).rest = (gap (Cut.span (· != '\n') r).rest).rest) ∨
      (∃ r, cs = '/' :: '*' :: r ∧ (gap cs).rest = (gap (commentTail r).rest).rest) ∨
      (∃ c r, cs = c :: r ∧ Text.isWhiteSpace c = true ∧ (gap cs).rest = (gap r).rest) ∨
      startsGap cs = false ∧ (gap cs).rest = cs := by
  cases hgap : startsGap cs with
  | false => exact .inr (.inr (.inr (.inr ⟨rfl, rest_gap_of_not hgap⟩)))
  | true =>
    cases cs with
    | nil => exact .inl rfl
    | cons c cs =>
      cases hcomment : startsComment (c :: cs) with
      | false =>
        have hwhite : Text.isWhiteSpace c = true := by simpa [startsGap, hcomment] using hgap
        exact .inr (.inr (.inr (.inl ⟨c, cs, rfl, hwhite, rest_gap_white hwhite cs⟩)))
      | true =>
        unfold startsComment at hcomment
        split at hcomment
        · next r heq =>
          rw [heq]
          exact .inr (.inl ⟨r, rfl, by rw [gap]; rfl⟩)
        · next r heq =>
          rw [heq]
          exact .inr (.inr (.inl ⟨r, rfl, by rw [gap]; rfl⟩))
        · cases hcomment

/-- A comment that ends does not depend on what comes after it. -/
theorem rest_commentTail_append (s : List Char) : ∀ {cs : List Char}, ['*', '/'] <:+: cs →
    (commentTail (cs ++ s)).rest = (commentTail cs).rest ++ s
  | [], hclosed => absurd hclosed (by simp)
  | c :: cs, hclosed => by
    by_cases hend : ∃ r, c = '*' ∧ cs = '/' :: r
    · obtain ⟨r, rfl, rfl⟩ := hend
      rfl
    · have hgo : ∀ r, c = '*' → cs ≠ '/' :: r := fun r hc hr => hend ⟨r, hc, hr⟩
      have hmore : ['*', '/'] <:+: cs := by
        rcases List.infix_cons_iff.mp hclosed with ⟨r, hr⟩ | h
        · obtain ⟨hc, hr⟩ := List.cons.inj hr
          exact absurd hr.symm (hgo r hc.symm)
        · exact h
      have hgo' : ∀ r, c = '*' → cs ++ s ≠ '/' :: r := by
        intro r hc hr
        cases cs with
        | nil => exact absurd hmore (by simp)
        | cons d cs =>
          rw [List.cons_append] at hr
          exact hgo cs hc (by rw [(List.cons.inj hr).1])
      rw [List.cons_append, commentTail_cons hgo', commentTail_cons hgo, Cut.rest_cons, Cut.rest_cons,
        rest_commentTail_append s hmore]

theorem rest_commentTail_open {cs : List Char} (h : ¬ ['*', '/'] <:+: cs) :
    (commentTail cs).rest = [] := by
  rcases commentTail_cases cs with ⟨body, htaken, -⟩ | ⟨hrest, -⟩
  · have hcut := (commentTail cs).taken_append_rest
    rw [htaken] at hcut
    exact absurd ⟨body, _, hcut⟩ h
  · exact hrest

/-- A gap in front of a token does not depend on what comes after a space or a line end. -/
theorem rest_gap_append {sep : Char} (hsep : IsBreak sep) (s cs : List Char)
    (h : (gap cs).rest ≠ []) : (gap (cs ++ sep :: s)).rest = (gap cs).rest ++ sep :: s := by
  rcases gap_cases cs with rfl | ⟨r, rfl, hr⟩ | ⟨r, rfl, hr⟩ | ⟨c, r, rfl, hc, hr⟩ | ⟨hno, hr⟩
  · exact absurd rest_gap_nil h
  · rw [hr] at h
    have hline : (Cut.span (· != '\n') r).rest ≠ [] := by
      intro hnil
      rw [hnil] at h
      exact h rest_gap_nil
    have hmore : (Cut.span (· != '\n') (r ++ sep :: s)).rest =
        (Cut.span (· != '\n') r).rest ++ sep :: s := by
      rw [Cut.rest_span] at hline
      rw [Cut.rest_span, Cut.rest_span, List.dropWhile_append, List.isEmpty_eq_false_iff.mpr hline]
      rfl
    rw [hr, ← rest_gap_append hsep s _ h, ← hmore, List.cons_append, List.cons_append, gap]
    rfl
  · rw [hr] at h
    have hclosed : ['*', '/'] <:+: r := by
      refine Classical.byContradiction fun hopen => h ?_
      rw [rest_commentTail_open hopen]
      exact rest_gap_nil
    rw [hr, ← rest_gap_append hsep s _ h, ← rest_commentTail_append _ hclosed, List.cons_append,
      List.cons_append, gap]
    rfl
  · rw [hr] at h
    rw [hr, ← rest_gap_append hsep s r h, List.cons_append, rest_gap_white hc]
  · rw [hr, rest_gap_of_not (startsGap_append hsep s hno)]
termination_by cs.length
decreasing_by all_goals grind

/-- Behind a gap no other one starts. -/
theorem startsGap_rest_gap (cs : List Char) (h : (gap cs).rest ≠ []) :
    startsGap (gap cs).rest = false := by
  rcases gap_cases cs with rfl | ⟨r, rfl, hr⟩ | ⟨r, rfl, hr⟩ | ⟨c, r, rfl, hc, hr⟩ | ⟨hno, hr⟩
  · exact absurd rest_gap_nil h
  · rw [hr] at h ⊢
    exact startsGap_rest_gap _ h
  · rw [hr] at h ⊢
    exact startsGap_rest_gap _ h
  · rw [hr] at h ⊢
    exact startsGap_rest_gap r h
  · rwa [hr]
termination_by cs.length
decreasing_by all_goals grind

/-- Behind blanks a comment starts that does not end. -/
def OpenComment (cs : List Char) : Prop :=
  ∃ gap body, cs = gap ++ '/' :: '*' :: body ∧ Blank gap ('/' :: '*' :: body) ∧
    ¬ ['*', '/'] <:+: body

/-- A text that is all gap goes on behind a line end. -/
theorem rest_gap_newline (s cs : List Char) (h : (gap cs).rest = []) (hopen : ¬ OpenComment cs) :
    (gap (cs ++ '\n' :: s)).rest = (gap s).rest := by
  rcases gap_cases cs with rfl | ⟨r, rfl, hr⟩ | ⟨r, rfl, hr⟩ | ⟨c, r, rfl, hc, hr⟩ | ⟨hno, hr⟩
  · exact rest_gap_white (by decide) s
  · have hmore : (Cut.span (· != '\n') (r ++ '\n' :: s)).rest =
        (Cut.span (· != '\n') r).rest ++ '\n' :: s :=
      (Cut.extends_span rfl (.inr (by simp))).rest
    have hopen' : ¬ OpenComment (Cut.span (· != '\n') r).rest := by
      rintro ⟨more, body, hcut, hblank, hbody⟩
      refine hopen ⟨'/' :: '/' :: (r.takeWhile (· != '\n') ++ more), body, ?_, ?_, hbody⟩
      · rw [List.cons_append, List.cons_append, List.append_assoc, ← hcut, Cut.rest_span,
          List.takeWhile_append_dropWhile]
      · exact @Blank.afterLine r ⟨more, _, hcut.symm⟩ hblank
    rw [← rest_gap_newline s _ (hr ▸ h) hopen', ← hmore, List.cons_append, List.cons_append, gap]
    rfl
  · by_cases hclosed : ['*', '/'] <:+: r
    · have hopen' : ¬ OpenComment (commentTail r).rest := by
        rintro ⟨more, body, hcut, hblank, hbody⟩
        refine hopen ⟨'/' :: '*' :: ((commentTail r).taken ++ more), body, ?_, ?_, hbody⟩
        · rw [List.cons_append, List.cons_append, List.append_assoc, ← hcut,
            (commentTail r).taken_append_rest]
        · exact @Blank.afterComment r ⟨more, _, hcut.symm⟩ hblank
      rw [← rest_gap_newline s _ (hr ▸ h) hopen', ← rest_commentTail_append _ hclosed,
        List.cons_append, List.cons_append, gap]
      rfl
    · exact absurd ⟨[], r, rfl, .nothing, hclosed⟩ hopen
  · have hopen' : ¬ OpenComment r := by
      rintro ⟨more, body, rfl, hblank, hbody⟩
      exact hopen ⟨c :: more, body, rfl, .space hc hblank, hbody⟩
    rw [List.cons_append, rest_gap_white hc, rest_gap_newline s r (hr ▸ h) hopen']
  · rw [hr] at h
    subst h
    cases hno
termination_by cs.length
decreasing_by all_goals grind

end Lexeme

/-- The token is what is read at a place of the text where no gap starts. -/
structure ReadAt (origin : Nat) (cs : List Char) (t : Token) (c : Char) (r : List Char) : Prop where
  place : ∃ front, cs = front ++ c :: r ∧ t.start = origin + Text.utf8Length front
  startsGap : Lexeme.startsGap (c :: r) = false
  kind : t.kind = (Lexeme.read c r).1
  text : t.text.toList = c :: (Lexeme.read c r).2.taken

theorem ReadAt.text_eq {origin : Nat} {cs r : List Char} {t : Token} {c : Char}
    (h : ReadAt origin cs t c r) : t.text = String.ofList (c :: (Lexeme.read c r).2.taken) := by
  rw [← h.text, String.ofList_toList]

theorem FirstToken.exists_readAt {origin : Nat} {cs rest : List Char} {t : Token}
    (h : FirstToken origin cs t rest) : ∃ c r, ReadAt origin cs t c r := by
  obtain ⟨c, r, hbehind, hkind, htext, -⟩ := h.exists_read
  have hcut := (Lexeme.gap cs).taken_append_rest
  have hne : (Lexeme.gap cs).rest ≠ [] := by simp [hbehind]
  have hno := Lexeme.startsGap_rest_gap cs hne
  rw [hbehind] at hcut hno
  exact ⟨c, r, ⟨_, hcut.symm, h.start_eq⟩, hno, hkind, htext⟩

theorem ReadAt.append {origin : Nat} {front cs r : List Char} {t : Token} {c : Char}
    (h : ReadAt (origin + Text.utf8Length front) cs t c r) : ReadAt origin (front ++ cs) t c r := by
  obtain ⟨more, rfl, hstart⟩ := h.place
  refine ⟨⟨front ++ more, (List.append_assoc ..).symm, ?_⟩, h.startsGap, h.kind, h.text⟩
  rw [hstart, Text.utf8Length_append, Nat.add_assoc]

/-- The tokens of a text are what is read of it. -/
theorem exists_readAt_of_mem {origin : Nat} {cs : List Char} {t : Token}
    (h : t ∈ tokensFrom origin cs) (ht : t.kind ≠ .eof) : ∃ c r, ReadAt origin cs t c r := by
  by_cases hend : (Lexeme.gap cs).rest = []
  · rw [(tokens_of_gap origin hend).2, List.mem_singleton] at h
    exact absurd (congrArg Token.kind h) ht
  · obtain ⟨u, rest, hu⟩ := exists_firstToken origin hend
    rw [hu.tokens] at h
    rcases List.mem_cons.mp h with rfl | h
    · exact hu.exists_readAt
    · have hlt := hu.shorter
      obtain ⟨c, r, hread⟩ := exists_readAt_of_mem h ht
      rw [hu.stop_eq] at hread
      exact ⟨c, r, hu.text_eq ▸ hread.append⟩
termination_by cs.length

theorem exists_readAt_of_significant {text : String} {t : Token} (h : t ∈ significantTokens text) :
    ∃ c r, ReadAt 0 text.toList t c r :=
  exists_readAt_of_mem (List.dropLast_subset _ h) (kind_ne_eof_of_mem h)

end JavaSyntax
