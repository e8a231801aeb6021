import SchemaMerge.CommandLine.Run

/-!
# The program

The program runs the command of its command line on the files of the computer.
-/

namespace SchemaMerge.Program

/-! ## The computer as a host -/

/-- What an action gives, or in words why it failed. -/
def attempt {α : Type} (action : IO α) : IO (Except String α) := do
  match ← action.toBaseIO with
  | .ok a => return .ok a
  | .error error => return .error (toString error)

/-- What a path leads to, with its path without links. -/
def follow (path : String) : IO (EntryKind × String) := do
  let real ← IO.FS.realPath path
  match (← real.metadata).type with
  | .file => return (.file, real.toString)
  | .dir => return (.directory, real.toString)
  | _ => return (.other, real.toString)

/-- The names in a directory, in order. -/
def namesIn (path : String) : IO (List String) := do
  return ((← (← IO.FS.realPath path).readDir).toList.map (·.fileName)).mergeSort

/-- Walks a path from inside of some directories, given with their paths without links. -/
partial def walk (inside : List (String × String)) (path : String) : IO (List Visit) := do
  match ← attempt (follow path) with
  | .error message => return [(WalkFault.unreadable path message).visit]
  | .ok (.directory, real) =>
    match inside.find? fun ancestor => ancestor.2 = real with
    | some (ancestor, _) => return [(WalkFault.loop path ancestor).visit]
    | none =>
      match ← attempt (namesIn path) with
      | .error message =>
        return [.entry path .directory, (WalkFault.unreadable path message).visit]
      | .ok names =>
        let below ← names.mapM fun name => walk ((path, real) :: inside) (Path.join path name)
        return .entry path .directory :: below.flatten
  | .ok (kind, _) => return [.entry path kind]

/-- The files of the computer. -/
def host : Host IO where
  walk := walk []
  isFile path := return (← attempt (follow path)).toOption.any (·.1 = .file)
  readText path := attempt (IO.FS.readFile path)
  createDirectories path := attempt (IO.FS.createDirAll path)
  writeText path text := attempt (IO.FS.writeFile path text)
  brokenTask := "the task panicked"

/-! ## Running the command line -/

/-- How the program is called. -/
def usage : String :=
  "Merges modular GraphQL SDL files into a single schema.\n\n" ++
  "Commands:\n" ++
  "  merge [--graphql-file-exts EXTS] [--indent INDENT] FILE_OR_DIR_PATHS... OUTPUT\n" ++
  "  check [--graphql-file-exts EXTS] FILE_OR_DIR_PATHS...\n\n" ++
  "Options:\n" ++
  "  -v, --verbose\n  -h, --help\n  -V, --version"

/-- The version of the program. -/
def version : String := "0.3.0"

/-- What is wrong with a command line. -/
def usageMessage : UsageFault → String
  | .helpRequested => usage
  | .versionRequested => version
  | .unknownArgument => "error: unexpected argument found"
  | .unknownCommand => "error: unrecognized subcommand"
  | .argumentRepeated => "error: an argument cannot be used multiple times"
  | .badValue => "error: invalid value for an argument"
  | .missingValue => "error: a value is required for an argument but none was supplied"
  | .needlessValue => "error: unexpected value for an argument"
  | .missingArgument => "error: required arguments were not provided"

/-- Reports how a run has ended, by a status that is zero if it was a success. -/
def report : Report → IO UInt32
  | .success text => do
    IO.println text
    return 0
  | .failure text => do
    IO.eprintln text
    return 1
  | .brokenOff => return 101

/-- Runs a command line. -/
def runWords (words : List String) : IO UInt32 := do
  match parseArguments words with
  | .ok ⟨_, some command⟩ => report (← command.run host)
  | .ok ⟨_, none⟩ => report (.success usage)
  | .error fault =>
    if fault = .helpRequested || fault = .versionRequested then
      report (.success (usageMessage fault))
    else
      IO.eprintln (usageMessage fault)
      return 2

end SchemaMerge.Program

/-- Runs the program on the words of its command line. -/
def main (words : List String) : IO UInt32 := SchemaMerge.Program.runWords words
