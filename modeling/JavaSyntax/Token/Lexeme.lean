import JavaSyntax.Kind
import JavaSyntax.Text.Alphabet
import JavaSyntax.Token.Cut

namespace JavaSyntax.Lexeme

def isWordStart (c : Char) : Bool := c == '_' || c == '$' || Text.isAlphabetic c

def isWordPart (c : Char) : Bool := c == '_' || c == '$' || Text.isAlphanumeric c

/-- What follows `/*`, up to the first `*/` or the end. -/
def commentTail : (cs : List Char) → Cut cs
  | '*' :: '/' :: r => ((Cut.before r).cons '/').cons '*'
  | c :: r => (commentTail r).cons c
  | [] => .before []

/-- White space and comments in front of a token. A line comment leaves its newline. -/
def gap (cs : List Char) : Cut cs :=
  match cs with
  | '/' :: '/' :: r =>
    let line := ((Cut.span (· != '\n') r).cons '/').cons '/'
    line.andThen (gap line.rest)
  | '/' :: '*' :: r =>
    let comment := ((commentTail r).cons '*').cons '/'
    comment.andThen (gap comment.rest)
  | c :: r =>
    if Text.isWhiteSpace c then
      let blank := (Cut.span Text.isWhiteSpace r).cons c
      blank.andThen (gap blank.rest)
    else .before (c :: r)
  | [] => .before []
termination_by cs.length
decreasing_by all_goals grind

def isDecimalPart (c : Char) : Bool := c == '_' || c.isDigit

def isHexPart (c : Char) : Bool :=
  isDecimalPart c || ('a' ≤ c && c ≤ 'f') || ('A' ≤ c && c ≤ 'F')

/-- A point counts as part of a number only before a digit. -/
def fraction? : (cs : List Char) → Option (Cut cs)
  | '.' :: d :: r =>
    if d.isDigit then some ((Cut.span isDecimalPart (d :: r)).cons '.') else none
  | _ => none

/-- The digits of an exponent may be missing. -/
def exponent? : (cs : List Char) → Option (Cut cs)
  | c :: r =>
    if c = 'e' ∨ c = 'E' then
      let sign := Cut.one (fun s => s == '-' || s == '+') r
      some ((sign.andThen (Cut.span isDecimalPart sign.rest)).cons c)
    else none
  | [] => none

def floatSuffix? : (cs : List Char) → Option (Cut cs)
  | c :: r =>
    if c = 'f' ∨ c = 'F' ∨ c = 'd' ∨ c = 'D' then some ((Cut.before r).cons c) else none
  | [] => none

def intSuffix (cs : List Char) : Cut cs := Cut.one (fun c => c == 'l' || c == 'L') cs

/-- The exponent and the suffix that may end a floating-point literal. -/
def floatTail (cs : List Char) : Cut cs :=
  let power := Cut.orNothing (exponent? cs)
  power.andThen (Cut.orNothing (floatSuffix? power.rest))

/-- The rest of a decimal literal: a fraction, an exponent or a suffix makes it floating-point. -/
def decimal (cs : List Char) : Kind × Cut cs :=
  let whole := Cut.span isDecimalPart cs
  match fraction? whole.rest with
  | some point =>
    let mantissa := whole.andThen point
    (.floatLiteral, mantissa.andThen (floatTail mantissa.rest))
  | none =>
    match exponent? whole.rest with
    | some power =>
      let scaled := whole.andThen power
      (.floatLiteral, scaled.andThen (Cut.orNothing (floatSuffix? scaled.rest)))
    | none =>
      match floatSuffix? whole.rest with
      | some suffix => (.floatLiteral, whole.andThen suffix)
      | none => (.intLiteral, whole.andThen (intSuffix whole.rest))

/-- The rest of a number that starts with the digit `first`. -/
def number (first : Char) (cs : List Char) : Kind × Cut cs :=
  match cs with
  | x :: r =>
    if first = '0' ∧ (x = 'x' ∨ x = 'X') then
      let digits := (Cut.span isHexPart r).cons x
      (.intLiteral, digits.andThen (intSuffix digits.rest))
    else if first = '0' ∧ (x = 'b' ∨ x = 'B') then
      let digits := (Cut.span isDecimalPart r).cons x
      (.intLiteral, digits.andThen (intSuffix digits.rest))
    else decimal (x :: r)
  | [] => decimal []

/-- The rest of a literal after its opening quote, and whether it was closed. A backslash hides
the next character, even a line end; an open line end leaves the literal unclosed. -/
def quoted (quote : Char) : (cs : List Char) → Bool × Cut cs
  | '\\' :: c :: r =>
    let tail := quoted quote r
    (tail.1, (tail.2.cons c).cons '\\')
  | ['\\'] => (false, (Cut.before []).cons '\\')
  | c :: r =>
    if c = '\n' ∨ c = '\r' then (false, .before (c :: r))
    else if c = quote then (true, (Cut.before r).cons c)
    else
      let tail := quoted quote r
      (tail.1, tail.2.cons c)
  | [] => (false, .before [])

/-- The kind of a literal that may be unclosed. -/
def literal (kind : Kind) {cs : List Char} (read : Bool × Cut cs) : Kind × Cut cs :=
  (if read.1 then kind else .unknown, read.2)

/-- A keyword or an identifier starting with `first`. -/
def word (first : Char) (cs : List Char) : Kind × Cut cs :=
  let part := Cut.span isWordPart cs
  ((Kind.ofKeyword? (String.ofList (first :: part.taken))).getD .ident, part)

/-- The longer of two operators if `next` follows. -/
def oneOrTwo (next : Char) (long short : Kind) : (cs : List Char) → Kind × Cut cs
  | c :: r => if c = next then (long, (Cut.before r).cons c) else (short, .before (c :: r))
  | [] => (short, .before [])

/-- What a token that starts with a point goes on with. -/
def point : (cs : List Char) → Kind × Cut cs
  | '.' :: '.' :: r => (.ellipsis, ((Cut.before r).cons '.').cons '.')
  | c :: r =>
    if c.isDigit then
      let digits := Cut.span isDecimalPart (c :: r)
      (.floatLiteral, digits.andThen (floatTail digits.rest))
    else (.dot, .before (c :: r))
  | [] => (.dot, .before [])

/-- The kind of the token that starts with `first` and what it takes of the rest. -/
def read (first : Char) (cs : List Char) : Kind × Cut cs :=
  match first with
  | '(' => (.leftParen, .before cs)
  | ')' => (.rightParen, .before cs)
  | '[' => (.leftBracket, .before cs)
  | ']' => (.rightBracket, .before cs)
  | '\x7b' => (.leftBrace, .before cs)
  | '\x7d' => (.rightBrace, .before cs)
  | ',' => (.comma, .before cs)
  | ';' => (.semicolon, .before cs)
  | '@' => (.at, .before cs)
  | '?' => (.question, .before cs)
  | '*' => (.star, .before cs)
  | '/' => (.slash, .before cs)
  | '%' => (.percent, .before cs)
  | ':' => oneOrTwo ':' .colonColon .colon cs
  | '<' => oneOrTwo '=' .ltEq .lt cs
  | '>' => oneOrTwo '=' .gtEq .gt cs
  | '=' => oneOrTwo '=' .eqEq .eq cs
  | '!' => oneOrTwo '=' .bangEq .bang cs
  | '+' => oneOrTwo '=' .plusEq .plus cs
  | '-' => oneOrTwo '=' .minusEq .minus cs
  | '&' => oneOrTwo '&' .ampAmp .unknown cs
  | '|' => oneOrTwo '|' .pipePipe .unknown cs
  | '.' => point cs
  | '"' => literal .stringLiteral (quoted '"' cs)
  | '\'' => literal .charLiteral (quoted '\'' cs)
  | c =>
    if c.isDigit then number c cs
    else if isWordStart c then word c cs
    else (.unknown, .before cs)

end JavaSyntax.Lexeme
