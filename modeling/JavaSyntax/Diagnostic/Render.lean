import JavaSyntax.Diagnostic.Excerpt

namespace JavaSyntax

/-- What a part of a rendered diagnostic is painted as. -/
inductive Paint where
  | plain
  | alarm
  | frame
  | strong
  deriving DecidableEq

/-- The control sequences around painted text. -/
structure Palette where
  alarm : String
  frame : String
  strong : String
  reset : String

namespace Palette

def plain : Palette := ⟨"", "", "", ""⟩

/-- Bold red for what is wrong, bold blue for the frame around the source line. -/
def styled : Palette := ⟨"\x1b[1m\x1b[91m", "\x1b[1m\x1b[94m", "\x1b[1m", "\x1b[0m"⟩

def before (p : Palette) : Paint → List Char
  | .plain => []
  | .alarm => p.alarm.toList
  | .frame => p.frame.toList
  | .strong => p.strong.toList

def after (p : Palette) : Paint → List Char
  | .plain => []
  | _ => p.reset.toList

end Palette

structure Cell where
  char : Char
  paint : Paint

/-- One line of output. -/
abbrev Strip := List Cell

namespace Strip

def blank : Cell := ⟨' ', .plain⟩

/-- Puts a text at a column, over blanks if the strip is shorter. An empty text leaves no trace. -/
def put (column : Nat) (paint : Paint) (text : List Char) (s : Strip) : Strip :=
  if text.isEmpty then s
  else
    s.take column ++ List.replicate (column - s.length) blank ++
      text.map (⟨·, paint⟩) ++ s.drop (column + text.length)

def append (paint : Paint) (text : List Char) (s : Strip) : Strip := s.put s.length paint text

/-- The strip as text, after a part that is painted as `last`. -/
def written (p : Palette) : (last : Paint) → Strip → List Char
  | last, [] => p.after last
  | last, c :: cs =>
    if c.paint = last then c.char :: written p last cs
    else p.after last ++ p.before c.paint ++ c.char :: written p c.paint cs

protected def toString (s : Strip) (p : Palette) : String := String.ofList (s.written p .plain)

end Strip

namespace Diagnostic

/-- Stands for source that is left out. -/
def ellipsis : List Char := ['.', '.', '.']

def title (message : String) : Strip :=
  let error := Strip.append .alarm "error".toList []
  if message = "" then error
  else (error.append .plain ": ".toList).append .strong message.toList

/-- Where a diagnostic stands. Without a path only the place in the text is given. -/
def location (margin : Nat) (path : String) (line column : Nat) : Strip :=
  let arrow := (Strip.put margin .frame "-->".toList []).put (margin + 4) .plain path.toList
  arrow.append .plain (":" ++ toString line ++ ":" ++ toString column).toList

/-- The frame beside an empty line. -/
def bar (margin : Nat) : Strip := Strip.put (margin + 1) .frame ['|'] []

/-- The source in the window. An ellipsis covers the source at the end that is cut. -/
def sourceRow (e : Excerpt) (margin : Nat) : Strip :=
  let row := Strip.put 0 .frame (toString e.number ++ " |").toList []
  let row := row.put (margin + 3) .plain e.source
  let row := if e.isCutLeft then row.put (margin + 3) .frame ellipsis else row
  if e.isCutRight then row.put (margin + 3 + e.source.length - 3) .frame ellipsis else row

/-- The mark and its label. What the window leaves out in front is missing here too, but a mark
shows one column at least. -/
def markRow (e : Excerpt) (margin : Nat) : Strip :=
  let row := (bar margin).put (margin + 3 + (e.mark.stop + 1 - e.skipped)) .alarm Excerpt.label
  let start := margin + 3 + e.mark.start - e.skipped
  let stop := max (start + 1) (margin + 3 + e.mark.stop - e.skipped)
  row.put start .alarm (List.replicate (stop - start) '^')

def rows (message path : String) : Option Excerpt → List Strip
  | none => [title message, location 0 path 1 1, bar 0, bar 0]
  | some e =>
    let margin := (toString e.number).length
    [title message, location margin path e.number (e.place + 1), bar margin,
     sourceRow e margin, markRow e margin, bar margin]

def render (d : Diagnostic) (palette : Palette) (path text : String) :
    Except RenderError String := do
  let excerpt ← Excerpt.ofSpan? text d.span
  pure ("\n".intercalate ((rows d.message path excerpt).map (·.toString palette)))

end Diagnostic

end JavaSyntax
