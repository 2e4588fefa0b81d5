import JavaSyntax.Diagnostic
import JavaSyntax.Text.Alphabet
import JavaSyntax.Text.Bytes
import JavaSyntax.Text.Split

namespace JavaSyntax

/-- Columns from `start` up to, but not including, `stop`. -/
structure Columns where
  start : Nat
  stop : Nat
  deriving DecidableEq

namespace Columns

def width (c : Columns) : Nat := c.stop - c.start

def widened (c : Columns) (margin : Nat) : Columns := ⟨c.start - margin, c.stop + margin⟩

end Columns

/-- Why a diagnostic cannot be shown. -/
inductive RenderError where
  /-- A long line stands so far to the right that the mark and its label are inside its indent. -/
  | markInIndent
  deriving DecidableEq

def RenderError.message : RenderError → String
  | .markInIndent => "attempt to subtract with overflow"

/-- A line with its number from one. -/
structure Excerpt where
  number : Nat
  line : List Char
  /-- How many characters stand in front of the span. -/
  place : Nat
  mark : Columns
  /-- The columns of the source there is room for. -/
  window : Columns
  room : Nat

namespace Excerpt

/-- The label of a mark. -/
def label : List Char := ['h', 'e', 'r', 'e']

/-- The columns of a whole line of output. -/
def outputWidth : Nat := 140

/-- The columns that are kept free on either side of a mark. -/
def margin : Nat := 6

def labelled (mark : Columns) : Columns := ⟨mark.start, mark.stop + 1 + label.length⟩

/-- The characters that start in the first bytes. -/
def upTo : (bytes : Nat) → List Char → List Char
  | _, [] => []
  | n, c :: cs => if n = 0 then [] else c :: upTo (n - c.utf8Size) cs

/-- The first bytes, and what follows them on the same line. -/
def throughLine : (bytes : Nat) → List Char → List Char
  | _, [] => []
  | n, c :: cs => if n = 0 ∧ c = '\n' then [] else c :: throughLine (n - c.utf8Size) cs

/-- A tab is shown as four blanks. -/
def untabbed (cs : List Char) : List Char :=
  cs.flatMap fun c => if c = '\t' then [' ', ' ', ' ', ' '] else [c]

/-- Tabs and other controls take no column of a mark. -/
def markedWidth (cs : List Char) : Nat := (cs.filter fun c => ' ' ≤ c && c != '\x7f').length

/-- The columns of a span, at least one. -/
def markOf (line : List Char) (start stop : Nat) : Columns :=
  let first := markedWidth (upTo start line)
  ⟨first, max (first + 1) (markedWidth (upTo stop line))⟩

/-- The columns in front of the first character that shows. A line of white space has no indent. -/
def indent? (line : List Char) : Option Nat :=
  if line.all Text.isWhiteSpace then none
  else some (untabbed (line.takeWhile Text.isWhiteSpace)).length

/-- The columns to show of lines with some indent. An indent of more than 26 columns is cut by all
but 22 of them. Lines that are still too long are cut at the indent, if the mark fits with its label
then; else around mark and label; else around the mark; else to the mark. -/
def windowAt (indent longest room : Nat) (mark : Columns) : Except RenderError Columns :=
  let indent := indent - margin
  let around := mark.widened margin
  let withLabel := (labelled mark).widened margin
  let start := if indent > 20 then indent - 16 else 0
  if max longest start - start ≤ room then .ok ⟨start, max longest start⟩
  else if withLabel.stop < indent then .error .markInIndent
  else if withLabel.stop - indent ≤ room then .ok ⟨indent, indent + room⟩
  else if withLabel.width ≤ room then
    let start := withLabel.start - (room - withLabel.width) / 2
    .ok ⟨start, start + room⟩
  else if around.width ≤ room then
    let start := around.start - (room - around.width) / 5 * 2
    .ok ⟨start, start + room⟩
  else .ok around

/-- The columns to show of some lines. Of white space alone nothing is shown, so the window is past
the end of it. -/
def windowOf (lines : List (List Char)) (room : Nat) (mark : Columns) :
    Except RenderError Columns :=
  let longest := (lines.map List.length).foldl max 0
  match (lines.filterMap indent?).min? with
  | none => .ok ⟨4 * longest + 1, 4 * longest + 1⟩
  | some indent => windowAt indent longest room mark

/-- The line in which a span starts. It is judged together with what follows it up to the end of the
line in which the span ends. Of an empty rest of a text there is nothing to show. -/
def ofSpan? (text : String) (span : Span) : Except RenderError (Option Excerpt) :=
  match Text.LineColumn.ofOffset? text span.start with
  | none => .ok none
  | some place =>
    let stop := place.column + span.length
    let source := (Text.dropBytes (span.start - place.column) text.toList).getD []
    match Text.lines (throughLine stop source) with
    | [] => .ok none
    | line :: more => do
      let number := place.line + 1
      let digits := (toString (number + 1 + more.length)).length
      let room := outputWidth - (digits + 3)
      let mark := markOf line place.column stop
      let window ← windowOf (line :: more) room mark
      pure (some ⟨number, line, (upTo place.column line).length, mark, window, room⟩)

/-- How many columns of the source are left out in front. -/
def skipped (e : Excerpt) : Nat := min e.window.start (untabbed e.line).length

/-- The column of the source at which it is cut. -/
def cut (e : Excerpt) : Nat :=
  let length := (untabbed e.line).length
  if length - e.window.start ≤ e.room then length else min e.window.stop length

/-- The source in the window. -/
def source (e : Excerpt) : List Char :=
  ((untabbed e.line).drop e.skipped).take (e.cut - e.skipped)

def isCutLeft (e : Excerpt) : Bool := 0 < e.window.start

/-- The end of the window, less what is kept free behind a mark where the mark set it. -/
def limit (e : Excerpt) : Nat :=
  let stops := [e.mark, labelled e.mark].map fun c => (c.widened margin).stop
  if stops.contains e.window.stop then e.window.stop - margin else e.window.stop

/-- The source goes on behind the limit, and more of it than there is room for. -/
def isCutRight (e : Excerpt) : Bool :=
  let length := (untabbed e.line).length
  e.limit < length && e.window.start + e.room < length

end Excerpt

end JavaSyntax
