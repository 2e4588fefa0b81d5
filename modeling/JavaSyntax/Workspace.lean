import JavaSyntax.Parse
import JavaSyntax.Text.Split

namespace JavaSyntax

abbrev FileId := Nat

/-- A library that finds places in a text. -/
structure LineIndexing where
  Index : Type
  ofText : String → Index
  place? : Index → Nat → Option Text.LineColumn

/-- Goes through the text at each question. -/
def LineIndexing.scanning : LineIndexing where
  Index := String
  ofText := id
  place? := Text.LineColumn.ofOffset?

/-- What is computed for a file and kept. -/
inductive Query where
  | parse | errors | lineIndex
  deriving DecidableEq

namespace Query

/-- What a query returns. The errors are reported on the way and not returned. -/
abbrev Value (L : LineIndexing) : Query → Type
  | .parse => Except Misuse Parse
  | .errors => Except Misuse Unit
  | .lineIndex => L.Index

/-- What is answered to the one who asks. -/
abbrev Answer (L : LineIndexing) : Query → Type
  | .parse => Except Misuse Parse
  | .errors => Except Misuse (List Diagnostic)
  | .lineIndex => L.Index

end Query

/-- A query with what it reported, and the queries it called. -/
inductive Calls (Log : Type) where
  | query (q : Query) (f : FileId) (reported : Log) (calls : List (Calls Log))

namespace Calls

variable {Log : Type}

mutual

/-- All queries with their reports, each in front of those that it called. -/
def entries : Calls Log → List ((Query × FileId) × Log)
  | .query q f reported calls => ((q, f), reported) :: entriesOfAll calls

def entriesOfAll : List (Calls Log) → List ((Query × FileId) × Log)
  | [] => []
  | c :: cs => c.entries ++ entriesOfAll cs

end

end Calls

/-- The library that keeps what queries return. It decides whether it is given again: for this it is told the
number of the question, the revisions of the texts that were read, and their revisions now. It also keeps what
queries report while they run, and collects it for a query and those that it called. -/
structure Engine where
  reuses : (call : Nat) → (read now : List (Option Nat)) → Bool
  Log : Type
  silent : Log
  report : Log → Diagnostic → Log
  /-- What was reported, in order. -/
  held : Log → List Diagnostic
  accumulated : Calls Log → List Diagnostic

/-- What the library documents. -/
structure Engine.Lawful (E : Engine) : Prop where
  /-- Only unchanged texts let it give a value again. -/
  eq_of_reuses : ∀ call read now, E.reuses call read now = true → read = now
  held_silent : E.held E.silent = []
  held_report : ∀ log d, E.held (E.report log d) = E.held log ++ [d]
  /-- It collects from a query first and then from those that it called, in the order of the calls. -/
  accumulated_eq : ∀ calls : Calls E.Log, (calls.entries.map Prod.fst).Nodup →
    E.accumulated calls = calls.entries.flatMap fun entry => E.held entry.2

namespace Engine

/-- Leaves out the queries that were seen before. -/
def unseen {Log : Type} (seen : List (Query × FileId)) : List ((Query × FileId) × Log) → List Log
  | [] => []
  | (key, log) :: entries =>
    if key ∈ seen then unseen seen entries else log :: unseen (key :: seen) entries

/-- Gives a value again whenever the texts are unchanged. -/
def caching : Engine where
  reuses _ read now := read == now
  Log := Array Diagnostic
  silent := #[]
  report := Array.push
  held := Array.toList
  accumulated calls := (unseen [] calls.entries).flatMap Array.toList

theorem unseen_of_nodup {Log : Type} {seen : List (Query × FileId)}
    {entries : List ((Query × FileId) × Log)} (h : (entries.map Prod.fst).Nodup)
    (hseen : ∀ entry ∈ entries, entry.1 ∉ seen) : unseen seen entries = entries.map Prod.snd := by
  induction entries generalizing seen with
  | nil => rfl
  | cons entry entries ih =>
    obtain ⟨hnew, h⟩ := List.nodup_cons.mp h
    rw [unseen, if_neg (hseen _ List.mem_cons_self), List.map_cons]
    refine congrArg (entry.2 :: ·) (ih h fun other hother => ?_)
    rw [List.mem_cons, not_or]
    exact ⟨fun heq => hnew (heq ▸ List.mem_map_of_mem hother), hseen _ (List.mem_cons_of_mem _ hother)⟩

theorem caching_lawful : caching.Lawful where
  eq_of_reuses _ _ _ := eq_of_beq
  held_silent := rfl
  held_report _ _ := Array.toList_push
  accumulated_eq _ h :=
    (congrArg (List.flatMap Array.toList) (unseen_of_nodup h fun _ _ => List.not_mem_nil)).trans
      (List.flatMap_map ..)

end Engine

/-- A text that was read by a query, in the revision it had then. -/
structure Dependency where
  file : FileId
  revision : Nat

/-- What was kept of a query. -/
structure Memo (L : LineIndexing) (E : Engine) (q : Query) where
  value : q.Value L
  reported : E.Log
  dependencies : List Dependency

/-- Reports the errors of a parse one by one. What was read for the parse was read for them. -/
def Memo.reporting {L : LineIndexing} {E : Engine} (memo : Memo L E .parse) : Memo L E .errors :=
  match memo.value with
  | .error misuse => ⟨.error misuse, E.silent, memo.dependencies⟩
  | .ok p => ⟨.ok (), p.errors.foldl E.report E.silent, memo.dependencies⟩

structure SourceFile (L : LineIndexing) (E : Engine) where
  path : String
  text : String
  /-- How often the text was set. -/
  revision : Nat
  memos : (q : Query) → Option (Memo L E q)

variable {L : LineIndexing} {E : Engine}

namespace SourceFile

def ofText (path text : String) : SourceFile L E := ⟨path, text, 0, fun _ => none⟩

/-- Setting a text makes a revision of its own, even if the text is the same. -/
def setText (file : SourceFile L E) (text : String) : SourceFile L E :=
  { file with text, revision := file.revision + 1 }

/-- The memo takes the place of the one before it. -/
def keep {q : Query} (memo : Memo L E q) (file : SourceFile L E) : SourceFile L E :=
  { file with memos := fun r => if h : q = r then some (h ▸ memo) else file.memos r }

end SourceFile

/-- Files, with what the engine keeps about them. -/
structure Database (L : LineIndexing) (E : Engine) where
  files : Array (SourceFile L E)
  /-- How many questions there were. -/
  calls : Nat
  /-- How often a text was parsed. -/
  parses : Nat

namespace Database

def new (L : LineIndexing) (E : Engine) : Database L E := ⟨#[], 0, 0⟩

def addFile (w : Database L E) (path text : String) : FileId × Database L E :=
  (w.files.size, { w with files := w.files.push (.ofText path text) })

def setText (w : Database L E) (f : FileId) (text : String) : Database L E :=
  { w with files := w.files.modify f fun file => file.setText text }

def keep {q : Query} (w : Database L E) (f : FileId) (memo : Memo L E q) : Database L E :=
  { w with files := w.files.modify f (.keep memo) }

def revision (w : Database L E) (f : FileId) : Option Nat := w.files[f]?.map SourceFile.revision

/-- The engine takes the memo. -/
def reuses {q : Query} (w : Database L E) (memo : Memo L E q) : Bool :=
  E.reuses w.calls (memo.dependencies.map fun r => some r.revision)
    (memo.dependencies.map fun r => w.revision r.file)

/-- The memo of a query about a file, made by `run` unless there is one that the engine takes. -/
def fetch {q : Query} (w : Database L E) (f : FileId)
    (run : SourceFile L E → Database L E → Option (Memo L E q × Database L E)) :
    Option (Memo L E q × Database L E) :=
  match w.files[f]? with
  | none => none
  | some file =>
    let counted := { w with calls := w.calls + 1 }
    match (file.memos q).filter w.reuses with
    | some memo => some (memo, counted)
    | none => (run file counted).map fun (memo, w) => (memo, w.keep f memo)

def fetchParse (w : Database L E) (f : FileId) : Option (Memo L E .parse × Database L E) :=
  w.fetch f fun file w =>
    some (⟨JavaSyntax.parse file.text, E.silent, [⟨f, file.revision⟩]⟩, { w with parses := w.parses + 1 })

def fetchErrors (w : Database L E) (f : FileId) : Option (Memo L E .errors × Database L E) :=
  w.fetch f fun _ w => (w.fetchParse f).map fun (memo, w) => (memo.reporting, w)

def fetchLineIndex (w : Database L E) (f : FileId) : Option (Memo L E .lineIndex × Database L E) :=
  w.fetch f fun file w => some (⟨L.ofText file.text, E.silent, [⟨f, file.revision⟩]⟩, w)

/-- The parse of the text last set on a file. -/
def parse (w : Database L E) (f : FileId) : Option (Except Misuse Parse × Database L E) :=
  (w.fetchParse f).map fun (memo, w) => (memo.value, w)

/-- The syntax errors of a file: all that is reported when they are looked for, or when it is parsed. -/
def check (w : Database L E) (f : FileId) : Option (Except Misuse (List Diagnostic) × Database L E) := do
  let (memo, w) ← w.fetchErrors f
  let (called, w) ← w.fetchParse f
  let calls := .query .errors f memo.reported [.query .parse f called.reported []]
  pure (memo.value.map fun _ => E.accumulated calls, w)

def lineIndex (w : Database L E) (f : FileId) : Option (L.Index × Database L E) :=
  (w.fetchLineIndex f).map fun (memo, w) => (memo.value, w)

def ask (w : Database L E) : (q : Query) → FileId → Option (q.Answer L × Database L E)
  | .parse => w.parse
  | .errors => w.check
  | .lineIndex => w.lineIndex

/-- The place of a byte offset in the text of a file. -/
def lineColumn (w : Database L E) (f : FileId) (offset : Nat) : Option Text.LineColumn :=
  (w.lineIndex f).bind fun (index, _) => L.place? index offset

end Database

/-- The database of the program. -/
abbrev Workspace := Database .scanning .caching

def Workspace.empty : Workspace := .new .scanning .caching

end JavaSyntax
