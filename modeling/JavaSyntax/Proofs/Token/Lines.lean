import JavaSyntax.Proofs.Token.Characters

namespace JavaSyntax

theorem isLineEnd_iff {c : Char} : isLineEnd c = true ↔ c = '\n' ∨ c = '\r' := by
  rw [isLineEnd, Bool.or_eq_true, beq_iff_eq, beq_iff_eq]

theorem isLineEnd_eq_false {p : Char → Bool} (hnewline : p '\n' = false) (hreturn : p '\r' = false)
    {c : Char} (hc : p c = true) : isLineEnd c = false := by
  refine Bool.eq_false_iff.mpr fun h => ?_
  rcases isLineEnd_iff.mp h with rfl | rfl
  · cases hnewline.symm.trans hc
  · cases hreturn.symm.trans hc

/-- The quotes of literals, and the kinds of the tokens between them. -/
inductive Quotes : Char → Kind → Prop
  | string : Quotes '"' .stringLiteral
  | char : Quotes '\'' .charLiteral

theorem Quotes.plain {quote : Char} {kind : Kind} (h : Quotes quote kind) :
    quote ≠ '\\' ∧ isLineEnd quote = false := by
  cases h <;> decide

/-- What can stand on one line between two quotes. A backslash hides the character behind it. -/
inductive Inner (quote : Char) : List Char → Prop
  | nil : Inner quote []
  | plain {c : Char} {cs : List Char} (inside : c ≠ '\\' ∧ c ≠ quote) (inLine : isLineEnd c = false)
    (more : Inner quote cs) : Inner quote (c :: cs)
  | hidden {c : Char} {cs : List Char} (inLine : isLineEnd c = false) (more : Inner quote cs) :
    Inner quote ('\\' :: c :: cs)

/-- None of the characters ends a line. -/
def InLine (cs : List Char) : Prop := ∀ c ∈ cs, isLineEnd c = false

/-- Behind its opening quote a literal is closed on the same line. -/
def ClosesOnLine (quote : Char) (cs : List Char) : Prop :=
  ∃ body more, Inner quote body ∧ cs = body ++ quote :: more

/-- Behind the opening quote of a literal a backslash hides the end of the line. -/
def HidesLineEnd (quote : Char) (cs : List Char) : Prop :=
  ∃ body c more, Inner quote body ∧ isLineEnd c = true ∧ cs = body ++ '\\' :: c :: more

section

variable {quote c : Char} {cs : List Char}

theorem ClosesOnLine.plain (h : ClosesOnLine quote cs) (inside : c ≠ '\\' ∧ c ≠ quote)
    (inLine : isLineEnd c = false) : ClosesOnLine quote (c :: cs) := by
  obtain ⟨body, more, hbody, rfl⟩ := h
  exact ⟨c :: body, more, .plain inside inLine hbody, rfl⟩

theorem ClosesOnLine.hidden (h : ClosesOnLine quote cs) (inLine : isLineEnd c = false) :
    ClosesOnLine quote ('\\' :: c :: cs) := by
  obtain ⟨body, more, hbody, rfl⟩ := h
  exact ⟨'\\' :: c :: body, more, .hidden inLine hbody, rfl⟩

theorem HidesLineEnd.plain (h : HidesLineEnd quote cs) (inside : c ≠ '\\' ∧ c ≠ quote)
    (inLine : isLineEnd c = false) : HidesLineEnd quote (c :: cs) := by
  obtain ⟨body, d, more, hbody, hd, rfl⟩ := h
  exact ⟨c :: body, d, more, .plain inside inLine hbody, hd, rfl⟩

theorem HidesLineEnd.hidden (h : HidesLineEnd quote cs) (inLine : isLineEnd c = false) :
    HidesLineEnd quote ('\\' :: c :: cs) := by
  obtain ⟨body, d, more, hbody, hd, rfl⟩ := h
  exact ⟨'\\' :: c :: body, d, more, .hidden inLine hbody, hd, rfl⟩

end

theorem Inner.inLine {quote : Char} {body : List Char} (h : Inner quote body) : InLine body := by
  induction h with
  | nil =>
    intro c hc
    cases hc
  | plain _ hc _ ih => exact List.forall_mem_cons.mpr ⟨hc, ih⟩
  | hidden hc _ ih =>
    exact List.forall_mem_cons.mpr ⟨by decide, List.forall_mem_cons.mpr ⟨hc, ih⟩⟩

namespace Lexeme

open Cut

variable {quote : Char} {kind : Kind} {cs body more : List Char}

theorem quoted_inside {c : Char} (inside : c ≠ '\\' ∧ c ≠ quote) (inLine : isLineEnd c = false)
    (cs : List Char) :
    quoted quote (c :: cs) = ((quoted quote cs).1, (quoted quote cs).2.cons c) := by
  have hend : ¬ (c = '\n' ∨ c = '\r') := fun h => by
    cases inLine.symm.trans (isLineEnd_iff.mpr h)
  rw [quoted_cons inside.1, if_neg hend, if_neg inside.2]

/-- A closed literal goes up to its closing quote. -/
theorem quoted_closed (hq : Quotes quote kind) (h : Inner quote body) (more : List Char) :
    (quoted quote (body ++ quote :: more)).1 = true ∧
      (quoted quote (body ++ quote :: more)).2.taken = body ++ [quote] := by
  induction h with
  | nil =>
    have hend : ¬ (quote = '\n' ∨ quote = '\r') := fun h => by
      cases hq.plain.2.symm.trans (isLineEnd_iff.mpr h)
    rw [List.nil_append, quoted_cons hq.plain.1, if_neg hend, if_pos rfl]
    exact ⟨rfl, rfl⟩
  | plain hinside hline _ ih =>
    rw [List.cons_append, quoted_inside hinside hline]
    exact ⟨ih.1, congrArg (_ :: ·) ih.2⟩
  | hidden _ _ ih => exact ⟨ih.1, congrArg (fun taken => '\\' :: _ :: taken) ih.2⟩

/-- A hidden line end is part of the literal. -/
theorem mem_quoted_hidden (h : Inner quote body) (c : Char) (more : List Char) :
    c ∈ (quoted quote (body ++ '\\' :: c :: more)).2.taken := by
  induction h with
  | nil => exact List.mem_cons_of_mem _ List.mem_cons_self
  | plain hinside hline _ ih =>
    rw [List.cons_append, quoted_inside hinside hline]
    exact List.mem_cons_of_mem _ ih
  | hidden _ _ ih => exact List.mem_cons_of_mem _ (List.mem_cons_of_mem _ ih)

theorem takeWhile_inLine {c : Char} (h : isLineEnd c = false) (cs : List Char) :
    (c :: cs).takeWhile (fun d => !isLineEnd d) = c :: cs.takeWhile (fun d => !isLineEnd d) :=
  List.takeWhile_cons_of_pos (by rw [h]; rfl)

theorem takeWhile_lineEnd {c : Char} (h : isLineEnd c = true) (cs : List Char) :
    (c :: cs).takeWhile (fun d => !isLineEnd d) = [] :=
  List.takeWhile_cons_of_neg (by rw [h]; decide)

/-- A literal is closed on its line, or hides the line end, or goes up to the line end. -/
theorem quoted_cases {quote : Char} : ∀ cs : List Char, ClosesOnLine quote cs ∨ HidesLineEnd quote cs ∨
    (quoted quote cs).1 = false ∧
      (quoted quote cs).2.taken = cs.takeWhile (fun d => !isLineEnd d)
  | [] => .inr (.inr ⟨rfl, rfl⟩)
  | c :: r => by
    by_cases hslash : c = '\\'
    · subst hslash
      cases r with
      | nil => exact .inr (.inr ⟨rfl, rfl⟩)
      | cons d r =>
        by_cases hd : isLineEnd d = true
        · exact .inr (.inl ⟨[], d, r, .nil, hd, rfl⟩)
        · rw [Bool.not_eq_true] at hd
          rcases @quoted_cases quote r with h | h | ⟨hopen, htaken⟩
          · exact .inl (h.hidden hd)
          · exact .inr (.inl (h.hidden hd))
          · refine .inr (.inr ⟨hopen, ?_⟩)
            rw [takeWhile_inLine (by decide), takeWhile_inLine hd, ← htaken]
            rfl
    · by_cases hc : isLineEnd c = true
      · refine .inr (.inr ?_)
        rw [quoted_cons hslash, if_pos (isLineEnd_iff.mp hc), takeWhile_lineEnd hc]
        exact ⟨rfl, rfl⟩
      · rw [Bool.not_eq_true] at hc
        by_cases hquote : c = quote
        · exact .inl ⟨[], r, .nil, by rw [hquote]; rfl⟩
        · have hinside : c ≠ '\\' ∧ c ≠ quote := ⟨hslash, hquote⟩
          rcases @quoted_cases quote r with h | h | ⟨hopen, htaken⟩
          · exact .inl (h.plain hinside hc)
          · exact .inr (.inl (h.plain hinside hc))
          · refine .inr (.inr ?_)
            rw [quoted_inside hinside hc, takeWhile_inLine hc, ← htaken]
            exact ⟨hopen, rfl⟩

theorem inLine_of_all {p : Char → Bool} (hnewline : p '\n' = false) (hreturn : p '\r' = false)
    (h : ∀ c ∈ cs, p c = true) : InLine cs :=
  fun c hc => isLineEnd_eq_false hnewline hreturn (h c hc)

theorem inLine_takeWhile (cs : List Char) : InLine (cs.takeWhile fun d => !isLineEnd d) :=
  inLine_of_all rfl rfl (List.all_eq_true.mp List.all_takeWhile)

/-- Only a hidden line end is part of a literal. -/
theorem hidesLineEnd_of_mem (hq : Quotes quote kind) {d : Char} (hd : d ∈ (quoted quote cs).2.taken)
    (hend : isLineEnd d = true) : HidesLineEnd quote cs := by
  rcases @quoted_cases quote cs with ⟨body, more, hbody, rfl⟩ | hhides | ⟨-, htaken⟩
  · rw [(quoted_closed hq hbody more).2] at hd
    rcases List.mem_append.mp hd with hd | hd
    · cases (hbody.inLine d hd).symm.trans hend
    · rw [List.mem_singleton.mp hd] at hend
      cases hq.plain.2.symm.trans hend
  · exact hhides
  · rw [htaken] at hd
    cases (inLine_takeWhile cs d hd).symm.trans hend

theorem NumberTail.inLine {first : Char} (h : NumberTail first kind cs) : InLine cs := by
  cases h with
  | @hex x ds _ hx hdigits =>
    have hmark : isLineEnd x = false := by rcases hx with rfl | rfl <;> decide
    exact List.forall_mem_cons.mpr ⟨hmark, inLine_of_all rfl rfl hdigits⟩
  | int hparts => exact inLine_of_all rfl rfl hparts
  | float hparts => exact inLine_of_all rfl rfl hparts

theorem inLine_point (cs : List Char) : InLine (point cs).2.taken := by
  rcases takes_point cs with ⟨htaken, -⟩ | ⟨-, hparts⟩ | ⟨htaken, -⟩
  · rw [htaken]
    exact inLine_of_all (p := (· == '.')) rfl rfl (by simp)
  · exact inLine_of_all rfl rfl hparts
  · rw [htaken]
    exact List.forall_mem_nil _

theorem inLine_oneOrTwo {next : Char} (hnext : isLineEnd next = false) (long short : Kind)
    (cs : List Char) : InLine (oneOrTwo next long short cs).2.taken := by
  cases cs with
  | nil => exact List.forall_mem_nil _
  | cons c r =>
    rw [oneOrTwo]
    split
    · next hc => exact List.forall_mem_singleton.mpr (hc ▸ hnext)
    · exact List.forall_mem_nil _

/-- A token that no quote starts stays on its line. -/
theorem inLine_read {first : Char} (hquote : ∀ kind, ¬ Quotes first kind) (cs : List Char) :
    InLine (read first cs).2.taken := by
  unfold read
  split
  all_goals first
    | exact List.forall_mem_nil _
    | exact inLine_oneOrTwo (by decide) _ _ cs
    | exact inLine_point cs
    | exact absurd .string (hquote _)
    | exact absurd .char (hquote _)
    | skip
  split
  · exact (numberTail_number first cs).inLine
  · split
    · exact inLine_of_all rfl rfl (takesOnly_span isWordPart cs)
    · exact List.forall_mem_nil _

theorem read_quote (hq : Quotes quote kind) (cs : List Char) :
    read quote cs = literal kind (quoted quote cs) := by
  cases hq <;> rfl

end Lexeme

/-- A token and the text `cs` that starts with it, line by line. -/
structure Token.Lined (t : Token) (cs : List Char) : Prop where
  /-- Only a hidden line end takes a token to the next line. -/
  lines : (∃ c ∈ t.text.toList, isLineEnd c = true) ↔
    ∃ quote kind rest, Quotes quote kind ∧ cs = quote :: rest ∧ HidesLineEnd quote rest
  closed : ∀ {quote kind body more}, Quotes quote kind → Inner quote body →
    cs = quote :: (body ++ quote :: more) → t.kind = kind ∧ t.text.toList = quote :: (body ++ [quote])
  unclosed : ∀ {quote kind rest}, Quotes quote kind → cs = quote :: rest →
    ¬ ClosesOnLine quote rest → ¬ HidesLineEnd quote rest →
      t.kind = .unknown ∧ t.text.toList = quote :: rest.takeWhile (fun c => !isLineEnd c)

theorem Lexeme.inLine_of_startsGap {c : Char} {r : List Char} (h : startsGap (c :: r) = false) :
    isLineEnd c = false := by
  have hwhite : Text.isWhiteSpace c = false := (Bool.or_eq_false_iff.mp h).1
  refine Bool.eq_false_iff.mpr fun hc => ?_
  rcases isLineEnd_iff.mp hc with rfl | rfl <;> cases hwhite

theorem ReadAt.lined {origin : Nat} {cs r : List Char} {t : Token} {c : Char}
    (h : ReadAt origin cs t c r) : t.Lined (c :: r) := by
  have hfirst := Lexeme.inLine_of_startsGap h.startsGap
  refine ⟨⟨?_, ?_⟩, ?_, ?_⟩
  · rintro ⟨d, hd, hend⟩
    rw [h.text] at hd
    have hd : d ∈ (Lexeme.read c r).2.taken := by
      refine List.mem_of_ne_of_mem ?_ hd
      rintro rfl
      cases hfirst.symm.trans hend
    by_cases hq : ∃ kind, Quotes c kind
    · obtain ⟨kind, hq⟩ := hq
      rw [Lexeme.read_quote hq] at hd
      exact ⟨c, kind, r, hq, rfl, Lexeme.hidesLineEnd_of_mem hq hd hend⟩
    · cases (Lexeme.inLine_read (fun kind hk => hq ⟨kind, hk⟩) r d hd).symm.trans hend
  · rintro ⟨quote, kind, rest, hq, hcs, body, d, more, hbody, hend, rfl⟩
    obtain ⟨rfl, rfl⟩ := List.cons.inj hcs
    refine ⟨d, ?_, hend⟩
    rw [h.text, Lexeme.read_quote hq]
    exact List.mem_cons_of_mem _ (Lexeme.mem_quoted_hidden hbody d more)
  · intro quote kind body more hq hbody hcs
    obtain ⟨rfl, rfl⟩ := List.cons.inj hcs
    obtain ⟨hclosed, htaken⟩ := Lexeme.quoted_closed hq hbody more
    rw [h.kind, h.text, Lexeme.read_quote hq]
    exact ⟨if_pos hclosed, congrArg (c :: ·) htaken⟩
  · intro quote kind rest hq hcs hcloses hhides
    obtain ⟨rfl, rfl⟩ := List.cons.inj hcs
    rcases @Lexeme.quoted_cases c r with h' | h' | ⟨hopen, htaken⟩
    · exact absurd h' hcloses
    · exact absurd h' hhides
    · rw [h.kind, h.text, Lexeme.read_quote hq]
      exact ⟨if_neg (by rw [hopen]; decide), congrArg (c :: ·) htaken⟩

theorem Token.Lined.endOfInput (offset : Nat) : (Token.endOfInput offset).Lined [] where
  lines := by
    constructor
    · rintro ⟨c, hc, -⟩
      cases hc
    · rintro ⟨quote, kind, rest, -, hcs, -⟩
      cases hcs
  closed := by
    intro quote kind body more _ _ hcs
    cases hcs
  unclosed := by
    intro quote kind rest _ hcs
    cases hcs

/-- Every token stands in the text, and it goes on over a line end exactly if it is a literal in which a
backslash hides one. Every other literal ends with its line at the latest, and it is unknown if nothing
closes it there. -/
theorem tokenize_lines (text : String) : ∀ t ∈ tokenize text, ∃ before after,
    text.toList = before ++ (t.text.toList ++ after) ∧ t.start = Text.utf8Length before ∧
      t.Lined (t.text.toList ++ after) := by
  intro t ht
  by_cases hkind : t.kind = .eof
  · rw [tokenize_eq_append] at ht
    rcases List.mem_append.mp ht with ht | ht
    · exact absurd hkind ((significantTokens_covers text).ne_eof t ht)
    · rw [List.mem_singleton.mp ht]
      exact ⟨text.toList, [], by simp [Token.endOfInput], Text.utf8ByteSize_eq text, .endOfInput _⟩
  · obtain ⟨c, r, hread⟩ := exists_readAt_of_mem ht hkind
    obtain ⟨front, hfront, hstart⟩ := hread.place
    have hcut : t.text.toList ++ (Lexeme.read c r).2.rest = c :: r := by
      rw [hread.text, List.cons_append, (Lexeme.read c r).2.taken_append_rest]
    refine ⟨front, (Lexeme.read c r).2.rest, ?_, ?_, ?_⟩
    · rw [hcut, hfront]
    · rw [hstart, Nat.zero_add]
    · rw [hcut]
      exact hread.lined

/-- A hidden quote does not close the literal, so the line end does. -/
theorem tokenize_lines_unclosed :
    let text := "f(\"a\\\"b\n)"
    let t : Token := ⟨.unknown, "\"a\\\"b", 2⟩
    t ∈ tokenize text ∧ ∃ before after, text.toList = before ++ (t.text.toList ++ after) ∧
      t.start = Text.utf8Length before ∧ t.Lined (t.text.toList ++ after) := by
  intro text t
  have hmem : t ∈ tokenize text := by decide +kernel
  exact ⟨hmem, tokenize_lines text t hmem⟩

/-- A backslash at the end of the line takes the string to the next line, where it is closed. -/
theorem string_over_lines :
    tokenize "\"\\\nx\"" = [⟨.stringLiteral, "\"\\\nx\"", 0⟩, .endOfInput 5] ∧
      ¬ ∀ t ∈ tokenize "\"\\\nx\"", ∀ c ∈ t.text.toList, c ≠ '\n' ∧ c ≠ '\r' := by
  have hrun : tokenize "\"\\\nx\"" = [⟨.stringLiteral, "\"\\\nx\"", 0⟩, .endOfInput 5] := by decide +kernel
  refine ⟨hrun, fun h => ?_⟩
  rw [hrun] at h
  exact (h _ List.mem_cons_self '\n' (by decide)).1 rfl

end JavaSyntax
