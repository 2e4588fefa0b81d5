import JavaSyntax.Proofs.Token.Lines

namespace JavaSyntax

/-- The kinds of the tokens that literals are made of. -/
def Kind.isLiteral : Kind → Bool
  | .intLiteral | .floatLiteral | .stringLiteral | .charLiteral | .trueKw | .falseKw | .nullKw => true
  | _ => false

namespace LiteralKind

/-- The kind of a literal by its token. Only a suffix of a number has to be looked up in the text. -/
def ofToken? (t : Token) : Option LiteralKind :=
  match t.kind with
  | .intLiteral => some (if endsIn ['l', 'L'] t.text.toList then .long else .int)
  | .floatLiteral => some (if endsIn ['f', 'F'] t.text.toList then .float else .double)
  | .stringLiteral => some .string
  | .charLiteral => some .char
  | .trueKw | .falseKw => some .boolean
  | .nullKw => some .null
  | _ => none

section

variable {ends cs : List Char} {p : Char → Bool}

theorem endsIn_iff : endsIn ends cs = true ↔ ∃ c, cs.getLast? = some c ∧ c ∈ ends := by
  unfold endsIn
  cases cs.getLast? with
  | none => simp
  | some c => simp

theorem endsIn_eq_false (h : ∀ c ∈ cs, p c = true) (hends : ends.any p = false) :
    endsIn ends cs = false := by
  refine Bool.eq_false_iff.mpr fun hin => ?_
  obtain ⟨c, hc, hmem⟩ := endsIn_iff.mp hin
  exact List.any_eq_false.mp hends c hmem (h c (List.mem_of_getLast? hc))

theorem endsIn_cons {c : Char} (h : endsIn ends cs = true) : endsIn ends (c :: cs) = true := by
  cases cs with
  | nil => cases h
  | cons d cs => rwa [endsIn, List.getLast?_cons_cons]

theorem endsIn_append (ends more cs : List Char) :
    endsIn (ends ++ more) cs = (endsIn ends cs || endsIn more cs) := by
  unfold endsIn
  cases cs.getLast? with
  | none => rfl
  | some c => simp

end

/-- What starts like none of `true`, `false` and `null`. -/
theorem ofText_cons {text : String} {c : Char} {cs : List Char} (h : text.toList = c :: cs)
    (hc : c ≠ 't' ∧ c ≠ 'f' ∧ c ≠ 'n') :
    ofText text =
      if c = '"' then .string
      else if c = '\'' then .char
      else if endsIn ['l', 'L'] (c :: cs) then .long
      else if (c :: cs).take 2 = ['0', 'x'] ∨ (c :: cs).take 2 = ['0', 'X'] then .int
      else if endsIn ['f', 'F'] (c :: cs) then .float
      else if endsIn ['d', 'D'] (c :: cs) || (c :: cs).any ['.', 'e', 'E'].contains then .double
      else .int := by
  have hword {d : Char} (hd : c ≠ d) {word : String} (hw : word.toList.head? = some d) :
      text ≠ word := by
    rintro rfl
    rw [h] at hw
    exact hd (Option.some.inj hw)
  have hboolean : ¬ (text = "true" ∨ text = "false") := not_or.mpr ⟨hword hc.1 rfl, hword hc.2.1 rfl⟩
  rw [ofText, h, if_neg hboolean, if_neg (hword hc.2.2 rfl), List.head?_cons]
  simp only [Option.some.injEq]

theorem ofText_string {text : String} {cs : List Char} (h : text.toList = '"' :: cs) :
    ofText text = .string := by
  rw [ofText_cons h (by decide), if_pos rfl]

theorem ofText_char {text : String} {cs : List Char} (h : text.toList = '\'' :: cs) :
    ofText text = .char := by
  rw [ofText_cons h (by decide), if_neg (by decide), if_pos rfl]

/-- What starts with a digit or a point is a number, and its other characters tell which. -/
theorem ofText_number {text : String} {c : Char} {cs : List Char} (h : text.toList = c :: cs)
    (hc : c = '.' ∨ c.isDigit = true) :
    ofText text =
      if endsIn ['l', 'L'] (c :: cs) then .long
      else if (c :: cs).take 2 = ['0', 'x'] ∨ (c :: cs).take 2 = ['0', 'X'] then .int
      else if endsIn ['f', 'F'] (c :: cs) then .float
      else if endsIn ['d', 'D'] (c :: cs) || (c :: cs).any ['.', 'e', 'E'].contains then .double
      else .int := by
  have hstart {d : Char} (hd : d ≠ '.' ∧ d.isDigit = false) : c ≠ d := by
    rintro rfl
    rcases hc with hc | hc
    · exact hd.1 hc
    · cases hd.2.symm.trans hc
  rw [ofText_cons h ⟨hstart (by decide), hstart (by decide), hstart (by decide)⟩,
    if_neg (hstart (by decide)), if_neg (hstart (by decide))]

/-- An integer has none of the characters that make a number floating-point. -/
theorem ofText_int {text : String} {c : Char} {cs : List Char} (h : text.toList = c :: cs)
    (hc : c.isDigit = true) (hcs : Lexeme.NumberTail c .intLiteral cs) :
    ofText text = if endsIn ['l', 'L'] (c :: cs) then .long else .int := by
  rw [ofText_number h (.inr hc)]
  congr 1
  cases hcs with
  | @hex x ds hzero hx hdigits =>
    refine if_pos ?_
    rw [hzero]
    exact hx.imp (by rintro rfl; rfl) (by rintro rfl; rfl)
  | int hparts =>
    have hpart : Lexeme.isIntPart c = true := by simp [Lexeme.isIntPart, Lexeme.isDecimalPart, hc]
    have hall : ∀ d ∈ c :: cs, Lexeme.isIntPart d = true := List.forall_mem_cons.mpr ⟨hpart, hparts⟩
    have hmark : (c :: cs).any ['.', 'e', 'E'].contains = false := by
      refine List.any_eq_false.mpr fun d hd hmem => ?_
      have hnot : ['.', 'e', 'E'].any Lexeme.isIntPart = false := by decide
      exact List.any_eq_false.mp hnot d (List.contains_iff_mem.mp hmem) (hall d hd)
    rw [endsIn_eq_false hall (by decide), endsIn_eq_false hall (by decide), hmark]
    exact ite_self _

/-- A floating-point number has no suffix of an integer, and what makes it floating-point can be seen. -/
theorem ofText_float {text : String} {c : Char} {cs : List Char} (h : text.toList = c :: cs)
    (hc : c = '.' ∨ c.isDigit = true) (hcs : ∀ d ∈ cs, Lexeme.isFloatPart d = true)
    (hmarks : Lexeme.MarksFloat (c :: cs)) :
    ofText text = if endsIn ['f', 'F'] (c :: cs) then .float else .double := by
  have hpart : Lexeme.isFloatPart c = true := by
    rcases hc with rfl | hc
    · rfl
    · simp [Lexeme.isFloatPart, Lexeme.isDecimalPart, hc]
  have hall : ∀ d ∈ c :: cs, Lexeme.isFloatPart d = true := List.forall_mem_cons.mpr ⟨hpart, hcs⟩
  have hhex : ¬ ((c :: cs).take 2 = ['0', 'x'] ∨ (c :: cs).take 2 = ['0', 'X']) := by
    have hnot {x : Char} (hx : Lexeme.isFloatPart x = false) : (c :: cs).take 2 ≠ ['0', x] := by
      intro heq
      have hmem : x ∈ (c :: cs).take 2 := heq ▸ List.mem_cons_of_mem _ List.mem_cons_self
      cases hx.symm.trans (hall x (List.mem_of_mem_take hmem))
    exact not_or.mpr ⟨hnot rfl, hnot rfl⟩
  rw [ofText_number h hc, endsIn_eq_false hall (by decide), if_neg hhex]
  by_cases hf : endsIn ['f', 'F'] (c :: cs) = true
  · simp only [if_pos hf, Bool.false_eq_true, if_false]
  · rw [if_neg hf, if_neg hf, if_neg Bool.false_ne_true]
    refine if_pos (Bool.or_eq_true_iff.mpr ?_)
    rcases hmarks with ⟨d, hd, hmem⟩ | hends
    · exact .inr (List.any_eq_true.mpr ⟨d, hd, List.contains_iff_mem.mpr hmem⟩)
    · refine .inl ?_
      rw [show ['f', 'F', 'd', 'D'] = ['f', 'F'] ++ ['d', 'D'] from rfl, endsIn_append] at hends
      exact (Bool.or_eq_true_iff.mp hends).resolve_left hf

end LiteralKind

namespace Lexeme

variable {kind : Kind} {cs : List Char}

/-- How literals are written. -/
inductive LiteralText : Kind → List Char → Prop
  | number {first : Char} {kind : Kind} {tail : List Char} (digit : first.isDigit = true)
    (more : NumberTail first kind tail) : LiteralText kind (first :: tail)
  | point {digits : List Char} (parts : ∀ c ∈ digits, isFloatPart c = true) :
    LiteralText .floatLiteral ('.' :: digits)
  | quoted {quote : Char} {kind : Kind} (quotes : Quotes quote kind) (inside : List Char) :
    LiteralText kind (quote :: inside)
  | word {word : String} {kind : Kind} (keyword : Kind.ofKeyword? word = some kind) :
    LiteralText kind word.toList

theorem literalText_literal {quote : Char} (hq : Quotes quote kind) (cs : List Char)
    (h : (literal kind (quoted quote cs)).1.isLiteral = true) :
    LiteralText (literal kind (quoted quote cs)).1 (quote :: (quoted quote cs).2.taken) := by
  rw [literal] at h ⊢
  split at h
  · next hclosed =>
    rw [if_pos hclosed]
    exact .quoted hq _
  · cases h

theorem not_literal_oneOrTwo {long short : Kind} (hl : long.isLiteral = false)
    (hs : short.isLiteral = false) (next : Char) (cs : List Char) :
    (oneOrTwo next long short cs).1.isLiteral = false := by
  cases cs with
  | nil => exact hs
  | cons c r =>
    rw [oneOrTwo]
    split
    · exact hl
    · exact hs

theorem literalText_point (h : (point cs).1.isLiteral = true) :
    LiteralText (point cs).1 ('.' :: (point cs).2.taken) := by
  rcases takes_point cs with ⟨-, hkind⟩ | ⟨hkind, hparts⟩ | ⟨-, hkind⟩
  · rw [hkind] at h
    cases h
  · rw [hkind]
    exact .point hparts
  · rw [hkind] at h
    cases h

theorem literalText_word {first : Char} (h : (word first cs).1.isLiteral = true) :
    LiteralText (word first cs).1 (first :: (word first cs).2.taken) := by
  simp only [word] at h ⊢
  cases hword : Kind.ofKeyword? (String.ofList (first :: (Cut.span isWordPart cs).taken)) with
  | none =>
    rw [hword] at h
    cases h
  | some k => simpa using LiteralText.word hword

/-- What is read as a literal is written as one. -/
theorem literalText_read {first : Char} (h : (read first cs).1.isLiteral = true) :
    LiteralText (read first cs).1 (first :: (read first cs).2.taken) := by
  unfold read at h ⊢
  split at h
  all_goals first
    | cases h
    | cases (not_literal_oneOrTwo rfl rfl _ _).symm.trans h
    | exact literalText_point h
    | exact literalText_literal .string cs h
    | exact literalText_literal .char cs h
    | skip
  split at h
  · next hdigit =>
    rw [if_pos hdigit]
    exact .number hdigit (numberTail_number first cs)
  · next hdigit =>
    rw [if_neg hdigit]
    split at h
    · next hstart =>
      rw [if_pos hstart]
      exact literalText_word h
    · cases h

theorem MarksFloat.cons {c : Char} (h : MarksFloat cs) : MarksFloat (c :: cs) := by
  rcases h with ⟨d, hd, hmark⟩ | hends
  · exact .of_mem (List.mem_cons_of_mem _ hd) hmark
  · exact .inr (LiteralKind.endsIn_cons hends)

/-- The text of a literal tells as much as its token. -/
theorem LiteralText.ofToken?_eq (h : LiteralText kind cs) {t : Token} (hk : t.kind = kind)
    (hcs : t.text.toList = cs) (hliteral : kind.isLiteral = true) :
    LiteralKind.ofToken? t = some (LiteralKind.ofText t.text) := by
  rw [LiteralKind.ofToken?, hk]
  cases h with
  | @number first _ tail hdigit hmore =>
    cases hmore with
    | hex hzero hx hdigits =>
      rw [LiteralKind.ofText_int hcs hdigit (.hex hzero hx hdigits), hcs]
    | int hparts => rw [LiteralKind.ofText_int hcs hdigit (.int hparts), hcs]
    | float hparts hmarks => rw [LiteralKind.ofText_float hcs (.inr hdigit) hparts hmarks.cons, hcs]
  | @point digits hparts =>
    have hmarks : MarksFloat ('.' :: digits) := .of_mem List.mem_cons_self List.mem_cons_self
    rw [LiteralKind.ofText_float hcs (.inl rfl) hparts hmarks, hcs]
  | quoted hquotes inside =>
    cases hquotes with
    | string => rw [LiteralKind.ofText_string hcs]
    | char => rw [LiteralKind.ofText_char hcs]
  | word hword =>
    have htext := String.toList_inj.mp hcs
    unfold Kind.ofKeyword? at hword
    split at hword
    all_goals cases hword
    all_goals first
      | (rw [htext]; decide)
      | cases hliteral

end Lexeme

/-- The text of a literal of a text tells as much as its token. -/
theorem LiteralKind.ofToken?_eq {text : String} {t : Token} (ht : t ∈ significantTokens text)
    (hk : t.kind.isLiteral = true) : ofToken? t = some (ofText t.text) := by
  obtain ⟨c, r, hread⟩ := exists_readAt_of_significant ht
  have hliteral := hk
  rw [hread.kind] at hliteral
  exact (Lexeme.literalText_read hliteral).ofToken?_eq hread.kind hread.text hliteral

end JavaSyntax
