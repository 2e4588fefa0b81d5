import JavaSyntax.Proofs.Token.Order

namespace JavaSyntax

namespace Cut

theorem taken_cons (c : Char) {cs : List Char} (cut : Cut cs) : (cut.cons c).taken = c :: cut.taken :=
  rfl

end Cut

namespace Lexeme

/-- White space and comments with `rest` behind them. A line comment goes on to the end of its line and
leaves the newline, and another one goes on to the first `*/`. Only where nothing is left can that be
missing. -/
inductive Blank : (gap rest : List Char) → Prop
  | nothing {rest : List Char} : Blank [] rest
  | space {c : Char} {gap rest : List Char} (white : Text.isWhiteSpace c = true)
    (more : Blank gap rest) : Blank (c :: gap) rest
  | lineComment {line gap rest : List Char} (inLine : '\n' ∉ line)
    (atEnd : ∀ c ∈ (gap ++ rest).head?, c = '\n') (more : Blank gap rest) :
    Blank ('/' :: '/' :: (line ++ gap)) rest
  | comment {body gap rest : List Char} (first : ¬ ['*', '/'] <:+: body ++ ['*'])
    (more : Blank gap rest) : Blank ('/' :: '*' :: (body ++ '*' :: '/' :: gap)) rest
  | openComment {body : List Char} (unclosed : ¬ ['*', '/'] <:+: body) :
    Blank ('/' :: '*' :: body) []

theorem commentTail_cons {c : Char} {r : List Char} (h : ∀ s, c = '*' → r ≠ '/' :: s) :
    commentTail (c :: r) = (commentTail r).cons c := by
  rw [commentTail]
  exact h

/-- The tail of a comment goes on to the first `*/`, or to the end. -/
theorem commentTail_cases : ∀ cs : List Char,
    (∃ body, (commentTail cs).taken = body ++ ['*', '/'] ∧ ¬ ['*', '/'] <:+: body ++ ['*']) ∨
      (commentTail cs).rest = [] ∧ ¬ ['*', '/'] <:+: (commentTail cs).taken
  | [] => .inr ⟨rfl, by simp [commentTail, Cut.before]⟩
  | c :: r => by
    by_cases hend : ∃ s, c = '*' ∧ r = '/' :: s
    · obtain ⟨s, rfl, rfl⟩ := hend
      exact .inl ⟨[], rfl, by decide⟩
    · have hgo : ∀ s, c = '*' → r ≠ '/' :: s := fun s hc hr => hend ⟨s, hc, hr⟩
      have hcut := (commentTail r).taken_append_rest
      rw [commentTail_cons hgo, Cut.taken_cons, Cut.rest_cons]
      rcases commentTail_cases r with ⟨body, htaken, hfirst⟩ | ⟨hrest, hopen⟩
      · refine .inl ⟨c :: body, by rw [htaken, List.cons_append], ?_⟩
        rw [List.cons_append, List.infix_cons_iff, not_or]
        refine ⟨?_, hfirst⟩
        -- what follows `c` starts as the rest of the text does
        rintro ⟨more, hmore⟩
        obtain ⟨hc, hbody⟩ := List.cons.inj hmore
        cases body with
        | nil => cases hbody
        | cons d body =>
          obtain ⟨hd, _⟩ := List.cons.inj hbody
          rw [htaken, ← hd] at hcut
          exact hgo _ hc.symm hcut.symm
      · refine .inr ⟨hrest, ?_⟩
        rw [hrest, List.append_nil] at hcut
        rw [List.infix_cons_iff, not_or]
        refine ⟨?_, hopen⟩
        rw [hcut]
        rintro ⟨more, hmore⟩
        obtain ⟨hc, hr⟩ := List.cons.inj hmore
        exact hgo more hc.symm hr.symm

theorem Blank.spaces {cs gap rest : List Char} (h : Blank gap rest) :
    Blank (cs.takeWhile Text.isWhiteSpace ++ gap) rest := by
  induction cs with
  | nil => exact h
  | cons c cs ih =>
    rw [List.takeWhile_cons]
    split
    · next hc => exact .space hc ih
    · exact h

theorem Blank.afterLine {r : List Char} {after : Cut (r.dropWhile (· != '\n'))}
    (h : Blank after.taken after.rest) :
    Blank ('/' :: '/' :: (r.takeWhile (· != '\n') ++ after.taken)) after.rest := by
  refine .lineComment (fun hn => ?_) (fun c hc => ?_) h
  · cases List.all_eq_true.mp List.all_takeWhile '\n' hn
  · have hend := List.head?_dropWhile_not (· != '\n') r
    rw [after.taken_append_rest, Option.mem_def] at hc
    rw [hc] at hend
    simpa using hend

theorem Blank.afterComment {r : List Char} {after : Cut (commentTail r).rest}
    (h : Blank after.taken after.rest) :
    Blank ('/' :: '*' :: ((commentTail r).taken ++ after.taken)) after.rest := by
  rcases commentTail_cases r with ⟨body, htaken, hfirst⟩ | ⟨hrest, hopen⟩
  · rw [htaken, List.append_assoc]
    exact .comment hfirst h
  · obtain ⟨ht, hr⟩ := List.append_eq_nil_iff.mp (after.taken_append_rest.trans hrest)
    rw [ht, hr, List.append_nil]
    exact .openComment hopen

/-- What is left out in front of a token is blank. -/
theorem blank_gap (cs : List Char) : Blank (gap cs).taken (gap cs).rest := by
  unfold gap
  split
  · next r => exact (blank_gap (Cut.span (· != '\n') r).rest).afterLine
  · next r => exact (blank_gap (commentTail r).rest).afterComment
  · next c r _ _ =>
    split
    · next hc => exact .space hc (blank_gap (Cut.span Text.isWhiteSpace r).rest).spaces
    · exact .nothing
  · exact .nothing
termination_by cs.length
decreasing_by all_goals grind

end Lexeme

namespace Text

theorem slice?_append {text : String} {span : Span} {before part after : List Char}
    (htext : text.toList = before ++ part ++ after) (hstart : span.start = utf8Length before)
    (hstop : span.stop = utf8Length (before ++ part)) :
    slice? text span = some (String.ofList part) := by
  have hlen : span.length = utf8Length part := by
    rw [Span.length, hstart, hstop, utf8Length_append, Nat.add_sub_cancel_left]
  rw [slice?, hstart, htext, List.append_assoc, dropBytes_append, hlen, Option.bind_some,
    takeBytes_append, Option.map_some]

/-- A part of a text stands in it where the span says. -/
theorem exists_of_slice? {text part : String} {span : Span} (h : slice? text span = some part) :
    ∃ before after, text.toList = before ++ (part.toList ++ after) ∧
      span.start = utf8Length before ∧ span.stop = utf8Length before + utf8Length part.toList := by
  obtain ⟨cs, hcs, rfl⟩ := Option.map_eq_some_iff.mp h
  obtain ⟨tail, hdrop, htake⟩ := Option.bind_eq_some_iff.mp hcs
  obtain ⟨before, htext, hstart⟩ := exists_of_dropBytes hdrop
  obtain ⟨after, rfl, hlength⟩ := exists_of_takeBytes htake
  have hle := span.start_le_stop
  rw [Span.length] at hlength
  rw [String.toList_ofList]
  exact ⟨before, after, htext, hstart, by omega⟩

end Text

/-- The token stands among the characters, and from `stop` to its start there is nothing but blanks. -/
def FollowsBlank (origin : Nat) (cs : List Char) (stop : Nat) (t : Token) : Prop :=
  ∃ front gap rest, cs = front ++ gap ++ (t.text.toList ++ rest) ∧
    stop = origin + Text.utf8Length front ∧ t.start = origin + Text.utf8Length (front ++ gap) ∧
    Lexeme.Blank gap (t.text.toList ++ rest)

theorem FollowsBlank.append {origin stop : Nat} {front cs : List Char} {t : Token}
    (h : FollowsBlank (origin + Text.utf8Length front) cs stop t) :
    FollowsBlank origin (front ++ cs) stop t := by
  obtain ⟨more, gap, rest, rfl, hstop, hstart, hblank⟩ := h
  refine ⟨front ++ more, gap, rest, by simp, ?_, ?_, hblank⟩
  · rw [hstop, Text.utf8Length_append, Nat.add_assoc]
  · rw [hstart, List.append_assoc, Text.utf8Length_append front, Nat.add_assoc]

theorem FollowsBlank.slice? {text : String} {stop : Nat} {t : Token}
    (h : FollowsBlank 0 text.toList stop t) : Text.slice? text t.span = some t.text := by
  obtain ⟨front, gap, rest, htext, _, hstart, _⟩ := h
  rw [Nat.zero_add] at hstart
  rw [← List.append_assoc] at htext
  have hstop : t.stop = Text.utf8Length (front ++ gap ++ t.text.toList) := by
    rw [Token.stop, hstart, Text.utf8ByteSize_eq, ← Text.utf8Length_append]
  have hslice : Text.slice? text t.span = some (String.ofList t.text.toList) :=
    Text.slice?_append htext hstart hstop
  rw [hslice, String.ofList_toList]

theorem FirstToken.followsBlank {origin : Nat} {cs rest : List Char} {t : Token}
    (h : FirstToken origin cs t rest) : FollowsBlank origin cs origin t := by
  refine ⟨[], (Lexeme.gap cs).taken, rest, ?_, rfl, h.start_eq, ?_⟩
  · rw [← h.behindGap, List.nil_append, (Lexeme.gap cs).taken_append_rest]
  · exact h.behindGap ▸ Lexeme.blank_gap cs

/-- Between one token and the next there is nothing but blanks. -/
theorem followsBlank_of_tokensFrom {before after : List Token} {t : Token} {origin : Nat}
    {cs : List Char} (h : tokensFrom origin cs = before ++ t :: after) :
    FollowsBlank origin cs (before.getLast?.elim origin Token.stop) t := by
  induction before generalizing origin cs with
  | nil =>
    by_cases hend : (Lexeme.gap cs).rest = []
    · have hcut := (Lexeme.gap cs).taken_append_rest
      have hblank := Lexeme.blank_gap cs
      rw [hend, List.append_nil] at hcut
      rw [hend, hcut] at hblank
      rw [(tokens_of_gap origin hend).2] at h
      cases h
      exact ⟨[], cs, [], by simp [Token.endOfInput], rfl, rfl, hblank⟩
    · obtain ⟨u, rest, hu⟩ := exists_firstToken origin hend
      rw [hu.tokens] at h
      cases h
      exact hu.followsBlank
  | cons b before ih =>
    by_cases hend : (Lexeme.gap cs).rest = []
    · rw [(tokens_of_gap origin hend).2] at h
      cases before <;> cases h
    · obtain ⟨u, rest, hu⟩ := exists_firstToken origin hend
      rw [hu.tokens] at h
      obtain ⟨rfl, hmore⟩ := List.cons.inj h
      have hfollows := ih hmore
      have hlast : (u :: before).getLast?.elim origin Token.stop =
          before.getLast?.elim u.stop Token.stop := by
        rw [List.getLast?_cons]
        cases before.getLast? <;> rfl
      rw [hu.text_eq, hlast]
      rw [hu.stop_eq] at hfollows ⊢
      exact hfollows.append

namespace TokenReader

/-- What can be asked of a reader. -/
inductive Call where
  | peek
  | next
  deriving DecidableEq

/-- The answers to some calls, one after the other. -/
def answers : TokenReader → List Call → List Token
  | _, [] => []
  | r, .peek :: calls => r.peek :: r.answers calls
  | r, .next :: calls => r.next.1 :: r.next.2.answers calls

/-- The token with some number. After the last one there is only the end of the input. -/
def tokenAt (origin : Nat) (cs : List Char) (k : Nat) : Token :=
  (tokensFrom origin cs)[k]?.getD (.endOfInput (origin + Text.utf8Length cs))

/-- A reader holds the first token, and a call leaves a reader at the tokens after it. -/
theorem next_start (origin : Nat) (cs : List Char) :
    (start origin cs).next.1 = tokenAt origin cs 0 ∧ ∃ origin' cs',
      (start origin cs).next.2 = start origin' cs' ∧
        ∀ k, tokenAt origin' cs' k = tokenAt origin cs (k + 1) := by
  by_cases hend : (Lexeme.gap cs).rest = []
  · obtain ⟨hread, htokens⟩ := tokens_of_gap origin hend
    have hstart : start origin cs = ⟨.endOfInput (origin + Text.utf8Length cs), []⟩ := by
      rw [start, hread]
    rw [hstart]
    refine ⟨by rw [tokenAt, htokens]; rfl, origin + Text.utf8Length cs, [], rfl, fun k => ?_⟩
    rw [tokenAt, tokenAt, htokens, (tokens_of_gap _ Lexeme.rest_gap_nil).2]
    cases k <;> rfl
  · obtain ⟨t, rest, ht⟩ := exists_firstToken origin hend
    have hstart : start origin cs = ⟨t, rest⟩ := by rw [start, ht.read]
    rw [hstart]
    refine ⟨by rw [tokenAt, ht.tokens]; rfl, t.stop, rest, rfl, fun k => ?_⟩
    rw [tokenAt, tokenAt, ht.tokens, ht.end_eq, List.getElem?_cons_succ]

/-- A reader answers each call with the token that comes after those taken. -/
theorem answers_start (origin : Nat) (cs : List Char) (calls : List Call) :
    (start origin cs).answers calls =
      (List.range calls.length).map fun i => tokenAt origin cs ((calls.take i).count .next) := by
  induction calls generalizing origin cs with
  | nil => rfl
  | cons call calls ih =>
    obtain ⟨hfirst, origin', cs', hnext, hshift⟩ := next_start origin cs
    rw [List.length_cons, List.range_succ_eq_map, List.map_cons, List.map_map]
    cases call with
    | peek =>
      rw [answers, ih]
      exact congrArg (· :: _) hfirst
    | next =>
      rw [answers, hnext, ih, hfirst]
      congr 1
      apply List.map_congr_left
      intro i _
      rw [hshift, Function.comp_apply, List.take_succ_cons, List.count_cons_self]

end TokenReader

/-- The tokens of a text tile it. All but the last one take up room, each starts behind the one before it,
at a character of the text, and between them there is nothing but white space and comments. The last is
the end of the input. A reader answers each call with the token that comes after those taken, and past
the last one with the last one. -/
theorem tokenize_tiles (text : String) :
    (∃ ts, tokenize text = ts ++ [.endOfInput text.utf8ByteSize] ∧
      ∀ t ∈ ts, t.kind ≠ .eof ∧ t.span.start < t.span.stop) ∧
    (∀ t ∈ tokenize text, t.span.stop ≤ text.utf8ByteSize ∧
      Text.Cuts 0 text.toList t.span.start ∧ Text.Cuts 0 text.toList t.span.stop ∧
      Text.slice? text t.span = some t.text) ∧
    ((tokenize text).Pairwise fun t u =>
      t.span.start < u.span.start ∧ t.span.stop ≤ u.span.start) ∧
    (∀ before t after, tokenize text = before ++ t :: after →
      FollowsBlank 0 text.toList (before.getLast?.elim 0 Token.stop) t) ∧
    ∀ calls, (TokenReader.ofText text).answers calls = (List.range calls.length).map fun i =>
      (tokenize text)[(calls.take i).count .next]?.getD (.endOfInput text.utf8ByteSize) := by
  obtain ⟨ts, hts, hcov⟩ := tokensFrom_covers 0 text.toList
  have hsize : 0 + Text.utf8Length text.toList = text.utf8ByteSize := by
    rw [Nat.zero_add, Text.utf8ByteSize_eq]
  have hinOrder := hcov.inOrder
  rw [hsize] at hts hinOrder
  have hgaps : ∀ before t after, tokenize text = before ++ t :: after →
      FollowsBlank 0 text.toList (before.getLast?.elim 0 Token.stop) t :=
    fun _ _ _ => followsBlank_of_tokensFrom
  have hend : Text.Cuts 0 text.toList text.utf8ByteSize :=
    ⟨text.toList, [], (List.append_nil _).symm, hsize.symm⟩
  refine ⟨⟨ts, hts, fun t ht => ⟨hcov.ne_eof t ht, (hinOrder.bounds t ht).2.1⟩⟩, ?_, ?_, hgaps, ?_⟩
  · intro t ht
    obtain ⟨before, after, hsplit⟩ := List.append_of_mem ht
    have hslice := (hgaps before t after hsplit).slice?
    rw [tokenize, hts] at ht
    rcases List.mem_append.mp ht with ht | ht
    · exact ⟨(hinOrder.bounds t ht).2.2, (hcov.cuts t ht).1, (hcov.cuts t ht).2, hslice⟩
    · rw [List.mem_singleton.mp ht] at hslice ⊢
      exact ⟨Nat.le_refl _, hend, hend, hslice⟩
  · rw [tokenize, hts, List.pairwise_append]
    refine ⟨hinOrder.pairwise, List.pairwise_singleton _ _, fun t ht u hu => ?_⟩
    rw [List.mem_singleton.mp hu]
    obtain ⟨_, hlt, hle⟩ := hinOrder.bounds t ht
    exact ⟨Nat.lt_of_lt_of_le hlt hle, hle⟩
  · intro calls
    rw [TokenReader.ofText, TokenReader.answers_start, ← hsize]
    rfl

end JavaSyntax
