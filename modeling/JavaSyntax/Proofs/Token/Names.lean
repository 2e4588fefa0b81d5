import JavaSyntax.Keyword
import JavaSyntax.Proofs.Token.Gap

namespace JavaSyntax

namespace Lexeme

variable {c : Char} {cs r : List Char}

/-- The kinds of words of letters. -/
def isName (k : Kind) : Bool := k == .ident || k.isKeyword

theorem not_isName_oneOrTwo {long short : Kind} (hl : isName long = false) (hs : isName short = false)
    (next : Char) (cs : List Char) : isName (oneOrTwo next long short cs).1 = false := by
  cases cs with
  | nil => exact hs
  | cons c r =>
    rw [oneOrTwo]
    split
    · exact hl
    · exact hs

theorem not_isName_point (cs : List Char) : isName (point cs).1 = false := by
  unfold point
  split
  · rfl
  · split <;> rfl
  · rfl

theorem not_isName_number (first : Char) (cs : List Char) : isName (number first cs).1 = false := by
  have hdecimal (us : List Char) : isName (decimal us).1 = false := by
    simp only [decimal]
    split
    · rfl
    · split
      · rfl
      · split <;> rfl
  unfold number
  split
  · split
    · rfl
    · split
      · rfl
      · exact hdecimal _
  · exact hdecimal _

theorem not_isName_literal {k : Kind} (hk : isName k = false) {cs : List Char} (r : Bool × Cut cs) :
    isName (literal k r).1 = false := by
  simp only [literal]
  split
  · exact hk
  · rfl

/-- The letters, and the two signs that count as letters. -/
theorem isWordStart_cases (h : isWordStart c = true) :
    (c.toNat < 128 ∧ (c.toNat = 36 ∨ c.toNat = 95 ∨ 65 ≤ c.toNat ∧ c.toNat ≤ 90 ∨
      97 ≤ c.toNat ∧ c.toNat ≤ 122)) ∨ 128 ≤ c.toNat ∧ Text.within Text.alphabeticRanges c = true := by
  have hascii : Text.isAscii c = decide (c.toNat < 128) := rfl
  rw [isWordStart, Bool.or_eq_true, Bool.or_eq_true, beq_iff_eq, beq_iff_eq] at h
  rcases h with (rfl | rfl) | hletter
  · decide
  · decide
  · rw [Text.isAlphabetic, hascii] at hletter
    by_cases hlt : c.toNat < 128
    · rw [decide_eq_true hlt, if_pos rfl] at hletter
      delta Char.isAlpha Char.isUpper Char.isLower at hletter
      simp [UInt32.le_iff_toNat_le] at hletter
      omega
    · rw [decide_eq_false hlt] at hletter
      exact .inr ⟨Nat.le_of_not_lt hlt, hletter⟩

theorem isDigit_eq_false (h : isWordStart c = true) : c.isDigit = false := by
  refine Bool.eq_false_iff.mpr fun hdigit => ?_
  simp [Char.isDigit, UInt32.le_iff_toNat_le] at hdigit
  rcases isWordStart_cases h with ⟨-, hletter⟩ | ⟨hle, -⟩ <;> omega

/-- Whatever a letter starts is a word of letters. -/
theorem read_of_isWordStart (h : isWordStart c = true) (cs : List Char) : read c cs = word c cs := by
  have hdigit : ¬ c.isDigit = true := Bool.eq_false_iff.mp (isDigit_eq_false h)
  unfold read
  split
  all_goals try cases h
  rw [if_neg hdigit, if_pos h]

/-- Only a letter starts what is read as a word of letters. -/
theorem isWordStart_of_isName (h : isName (read c cs).1 = true) : isWordStart c = true := by
  unfold read at h
  split at h
  all_goals first
    | cases h
    | cases (not_isName_oneOrTwo rfl rfl _ _).symm.trans h
    | cases (not_isName_point _).symm.trans h
    | cases (not_isName_literal rfl _).symm.trans h
    | skip
  split at h
  · cases (not_isName_number _ _).symm.trans h
  · split at h
    · assumption
    · cases h

/-- Letters and white space have no character in common. -/
theorem isWhiteSpace_eq_false (h : isWordStart c = true) : Text.isWhiteSpace c = false := by
  have hapart : ∀ white ∈ Text.whiteSpaceRanges, ∀ letters ∈ Text.alphabeticRanges,
      white.2 < letters.1 ∨ letters.2 < white.1 := by decide +kernel
  have hascii : Text.isAscii c = decide (c.toNat < 128) := rfl
  refine Bool.eq_false_iff.mpr fun hwhite => ?_
  rw [Text.isWhiteSpace, hascii] at hwhite
  rcases isWordStart_cases h with ⟨hlt, hletter⟩ | ⟨hle, hletter⟩
  · rw [decide_eq_true hlt, if_pos rfl, Bool.or_eq_true, Bool.and_eq_true, decide_eq_true_eq,
      decide_eq_true_eq, beq_iff_eq] at hwhite
    rcases hwhite with ⟨-, hhigh⟩ | rfl
    · have : c.toNat ≤ 13 := hhigh
      omega
    · exact absurd hletter (by decide)
  · rw [decide_eq_false (Nat.not_lt.mpr hle)] at hwhite
    obtain ⟨white, hin, hwithin⟩ := List.any_eq_true.mp hwhite
    obtain ⟨letters, hin', hwithin'⟩ := List.any_eq_true.mp hletter
    simp only [Bool.and_eq_true, decide_eq_true_eq] at hwithin hwithin'
    have := hapart white hin letters hin'
    omega

theorem startsGap_of_isWordStart (h : isWordStart c = true) (cs : List Char) :
    startsGap (c :: cs) = false := by
  refine Bool.or_eq_false_iff.mpr ⟨isWhiteSpace_eq_false h, startsComment_eq_false.mpr ⟨?_, ?_⟩⟩
  all_goals
    rintro r rfl
    cases h

/-- The text is a word of letters, and this is its kind. -/
structure Names (k : Kind) (text : String) : Prop where
  letters : ∃ c cs, text.toList = c :: cs ∧ isWordStart c = true ∧ ∀ d ∈ cs, isWordPart d = true
  kind : (Kind.ofKeyword? text).getD .ident = k

/-- The characters make one word of letters. -/
def isLetters : List Char → Bool
  | [] => false
  | c :: cs => isWordStart c && cs.all isWordPart

theorem Names.of_isLetters {k : Kind} {text : String} (h : isLetters text.toList = true)
    (hk : (Kind.ofKeyword? text).getD .ident = k) : Names k text := by
  cases htext : text.toList with
  | nil =>
    rw [htext] at h
    cases h
  | cons c cs =>
    rw [htext, isLetters, Bool.and_eq_true] at h
    exact ⟨⟨c, cs, htext, h.1, List.all_eq_true.mp h.2⟩, hk⟩

theorem word_of_forall {cs r : List Char} (hcs : ∀ d ∈ cs, isWordPart d = true)
    (hr : ∀ d ∈ r.head?, isWordPart d = false) (c : Char) :
    (word c (cs ++ r)).1 = (Kind.ofKeyword? (String.ofList (c :: cs))).getD .ident ∧
      (word c (cs ++ r)).2.taken = cs ∧ (word c (cs ++ r)).2.rest = r := by
  have htaken : (cs ++ r).takeWhile isWordPart = cs := by
    rw [List.takeWhile_append_of_pos hcs]
    cases r with
    | nil => simp
    | cons d r => simp [hr d rfl]
  have hrest : (cs ++ r).dropWhile isWordPart = r := by
    rw [List.dropWhile_append_of_pos hcs]
    cases r with
    | nil => rfl
    | cons d r => simp [hr d rfl]
  exact ⟨by simp [word, Cut.span, htaken], htaken, hrest⟩

/-- A word of letters is read as far as it goes. -/
theorem names_read (h : isName (read c cs).1 = true) :
    Names (read c cs).1 (String.ofList (c :: (read c cs).2.taken)) := by
  have hc := isWordStart_of_isName h
  rw [read_of_isWordStart hc]
  exact ⟨⟨c, _, String.toList_ofList, hc, List.all_eq_true.mp List.all_takeWhile⟩, rfl⟩

end Lexeme

/-- The words of letters in a text. -/
theorem names_of_mem {text : String} {t : Token} (h : t ∈ significantTokens text)
    (ht : Lexeme.isName t.kind = true) : Lexeme.Names t.kind t.text := by
  obtain ⟨c, r, hread⟩ := exists_readAt_of_significant h
  rw [hread.kind] at ht
  rw [hread.kind, hread.text_eq]
  exact Lexeme.names_read ht

end JavaSyntax
