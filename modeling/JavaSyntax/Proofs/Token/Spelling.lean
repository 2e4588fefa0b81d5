import JavaSyntax.Proofs.Token.Gap

namespace JavaSyntax

/-- How a sign is spelled. -/
def Kind.sign? : Kind → Option String
  | .leftParen => some "("
  | .rightParen => some ")"
  | .leftBracket => some "["
  | .rightBracket => some "]"
  | .leftBrace => some "\x7b"
  | .rightBrace => some "\x7d"
  | .lt => some "<"
  | .gt => some ">"
  | .ltEq => some "<="
  | .gtEq => some ">="
  | .eq => some "="
  | .eqEq => some "=="
  | .bang => some "!"
  | .bangEq => some "!="
  | .plus => some "+"
  | .minus => some "-"
  | .star => some "*"
  | .slash => some "/"
  | .percent => some "%"
  | .ampAmp => some "&&"
  | .pipePipe => some "||"
  | .plusEq => some "+="
  | .minusEq => some "-="
  | .comma => some ","
  | .semicolon => some ";"
  | .dot => some "."
  | .ellipsis => some "..."
  | .colon => some ":"
  | .colonColon => some "::"
  | .at => some "@"
  | .question => some "?"
  | _ => none

namespace Lexeme

/-- What was read is spelled as its kind is, if that has one spelling. -/
def Spells (first : Char) {cs : List Char} (r : Kind × Cut cs) : Prop :=
  ∀ s, r.1.sign? = some s → String.ofList (first :: r.2.taken) = s

theorem spells_of_none {first : Char} {cs : List Char} {r : Kind × Cut cs} (h : r.1.sign? = none) :
    Spells first r := by
  intro s hs
  rw [h] at hs
  cases hs

theorem spells_before {first : Char} {k : Kind} (h : k.sign? = some (String.ofList [first]))
    (cs : List Char) : Spells first (k, Cut.before cs) := by
  intro s hs
  exact Option.some.inj (h.symm.trans hs)

theorem spells_oneOrTwo {first next : Char} {long short : Kind}
    (hl : long.sign? = some (String.ofList [first, next]))
    (hs : short.sign? = some (String.ofList [first]) ∨ short.sign? = none) (cs : List Char) :
    Spells first (oneOrTwo next long short cs) := by
  have hshort (us : List Char) : Spells first (short, Cut.before us) := by
    rcases hs with hs | hs
    · exact spells_before hs us
    · exact spells_of_none hs
  cases cs with
  | nil => exact hshort []
  | cons c r =>
    rw [oneOrTwo]
    split
    · next hc =>
      intro s hspelled
      rw [hc]
      exact Option.some.inj (hl.symm.trans hspelled)
    · exact hshort (c :: r)

theorem spells_point (cs : List Char) : Spells '.' (point cs) := by
  unfold point
  split
  · intro s hs
    exact Option.some.inj hs
  · split
    · exact spells_of_none rfl
    · exact spells_before rfl _
  · exact spells_before rfl _

theorem spells_number (first : Char) (cs : List Char) : Spells first (number first cs) := by
  have hdecimal (us : List Char) : (decimal us).1.sign? = none := by
    simp only [decimal]
    split
    · rfl
    · split
      · rfl
      · split <;> rfl
  apply spells_of_none
  unfold number
  split
  · split
    · rfl
    · split
      · rfl
      · exact hdecimal _
  · exact hdecimal _

theorem sign?_ofKeyword? {s : String} {k : Kind} (h : Kind.ofKeyword? s = some k) :
    k.sign? = none := by
  unfold Kind.ofKeyword? at h
  split at h
  all_goals cases h
  all_goals rfl

theorem spells_word (first : Char) (cs : List Char) : Spells first (word first cs) := by
  apply spells_of_none
  simp only [word]
  cases h : Kind.ofKeyword? (String.ofList (first :: (Cut.span isWordPart cs).taken)) with
  | none => rfl
  | some k => exact sign?_ofKeyword? h

theorem spells_literal {first : Char} {k : Kind} (hk : k.sign? = none) {cs : List Char}
    (r : Bool × Cut cs) : Spells first (literal k r) := by
  apply spells_of_none
  simp only [literal]
  split
  · exact hk
  · rfl

theorem spells_read (first : Char) (cs : List Char) : Spells first (read first cs) := by
  unfold read
  split
  all_goals first
    | exact spells_before rfl cs
    | exact spells_oneOrTwo rfl (.inl rfl) cs
    | exact spells_oneOrTwo rfl (.inr rfl) cs
    | exact spells_point cs
    | exact spells_literal rfl _
    | skip
  split
  · exact spells_number _ cs
  · split
    · exact spells_word _ cs
    · exact spells_of_none rfl

end Lexeme

/-- A sign in a text is spelled as its kind is. -/
theorem text_of_sign {text : String} {t : Token} {s : String} (h : t ∈ significantTokens text)
    (hs : t.kind.sign? = some s) : t.text = s := by
  obtain ⟨c, r, hread⟩ := exists_readAt_of_significant h
  rw [hread.kind] at hs
  rw [hread.text_eq]
  exact Lexeme.spells_read c r s hs

end JavaSyntax
