import JavaSyntax.Text.Bytes
import JavaSyntax.Token
import JavaSyntax.Token.Lexeme

namespace JavaSyntax

/-- The first token of `cs`, which starts at byte `offset`, and what follows it. At the end
there is only the end of the input, again and again. -/
def readToken (offset : Nat) (cs : List Char) : Token × List Char :=
  let gap := Lexeme.gap cs
  let start := offset + Text.utf8Length gap.taken
  match gap.rest with
  | [] => (.endOfInput start, [])
  | c :: r =>
    let (kind, cut) := Lexeme.read c r
    (⟨kind, String.ofList (c :: cut.taken), start⟩, cut.rest)

theorem readToken_length_lt {offset : Nat} {cs : List Char}
    (h : (Lexeme.gap cs).rest ≠ []) : (readToken offset cs).2.length < cs.length := by
  have hg := (Lexeme.gap cs).length_rest_le
  cases hr : (Lexeme.gap cs).rest with
  | nil => contradiction
  | cons c r =>
    have := (Lexeme.read c r).2.length_rest_le
    simp only [readToken, hr, List.length_cons] at hg ⊢
    omega

/-- All tokens from `offset` on. The end of the input is the last one. -/
def tokensFrom (offset : Nat) (cs : List Char) : List Token :=
  let read := readToken offset cs
  if _h : (Lexeme.gap cs).rest = [] then [read.1]
  else read.1 :: tokensFrom read.1.stop read.2
termination_by cs.length
decreasing_by exact readToken_length_lt _h

def tokenize (text : String) : List Token := tokensFrom 0 text.toList

/-- Tokens on demand, with one token of look-ahead. -/
structure TokenReader where
  current : Token
  rest : List Char

namespace TokenReader

def start (offset : Nat) (cs : List Char) : TokenReader :=
  let (token, rest) := readToken offset cs
  ⟨token, rest⟩

def ofText (text : String) : TokenReader := start 0 text.toList

def peek (r : TokenReader) : Token := r.current

/-- The current token, and the reader moved on to the one after it. -/
def next (r : TokenReader) : Token × TokenReader := (r.current, start r.current.stop r.rest)

end TokenReader

end JavaSyntax
