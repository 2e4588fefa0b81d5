import JavaSyntax.Diagnostic.Render
import JavaSyntax.Parse

namespace JavaSyntax

/-- Why a file could not be read as a text. -/
inductive ReadError where
  | missing
  | directory
  | notDirectory
  | notText
  deriving DecidableEq

def ReadError.message : ReadError → String
  | .missing => "No such file or directory (os error 2)"
  | .directory => "Is a directory (os error 21)"
  | .notDirectory => "Not a directory (os error 20)"
  | .notText => "stream did not contain valid UTF-8"

/-- What a run of the program leaves behind. -/
structure Report where
  exit : UInt32
  output : String
  errors : String
  deriving DecidableEq

/-- What the program is asked to do with a file. -/
inductive Order where
  | dump
  | check
  deriving DecidableEq

namespace CommandLine

/-- The only path among the arguments. Before `--`, an argument that starts with a dash is an
option, and there are none. A dash alone is a path. -/
def path? : List String → Option String
  | ["--", path] => some path
  | [path, "--"] => plain? path
  | [path] => plain? path
  | _ => none
where
  plain? (path : String) : Option String :=
    if path.startsWith "-" && path != "-" then none else some path

/-- The order and the path that the arguments ask for. -/
def read? : List String → Option (Order × String)
  | "dump" :: arguments => (path? arguments).map (.dump, ·)
  | "check" :: arguments => (path? arguments).map (.check, ·)
  | _ => none

def unreadable (path : String) (e : ReadError) : Report :=
  ⟨1, "", "Error: failed to read `" ++ path ++ "`\n\nCaused by:\n    " ++ e.message ++ "\n"⟩

def broken (m : Misuse) : Report := ⟨101, "", m.message ++ "\n"⟩

/-- The diagnostics one below the other, up to the first that cannot be shown. -/
def shown (path text : String) : List Diagnostic → String × Option RenderError
  | [] => ("", none)
  | d :: ds =>
    match d.render .styled path text with
    | .error e => ("", some e)
    | .ok s =>
      let (more, error) := shown path text ds
      (s ++ "\n" ++ more, error)

/-- What a check leaves behind. Only a text without errors passes it. -/
def checked (path text : String) (errors : List Diagnostic) : Report :=
  match shown path text errors with
  | (s, some e) => ⟨101, "", s ++ e.message ++ "\n"⟩
  | (s, none) => ⟨if errors.isEmpty then 0 else 1, "", s⟩

/-- Shows the tree, or the errors if there are any. -/
def report (order : Order) (path : String) : Except ReadError String → Report
  | .error e => unreadable path e
  | .ok text =>
    match order, parse text with
    | _, .error m => broken m
    | .dump, .ok p => ⟨0, p.tree.dump, ""⟩
    | .check, .ok p => checked path text p.errors

/-- A run on arguments, with a way to read files. Wrong arguments are answered by their exit code
alone. -/
def run (arguments : List String) (read : String → Except ReadError String) : Report :=
  match read? arguments with
  | none => ⟨2, "", ""⟩
  | some (order, path) => report order path (read path)

end CommandLine

end JavaSyntax
