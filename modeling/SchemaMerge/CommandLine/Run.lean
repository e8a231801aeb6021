import SchemaMerge.CommandLine.Arguments
import SchemaMerge.Diagnostic.Snippet
import SchemaMerge.Merge.Documents

/-!
# Running commands

Both commands find the schema files under their inputs, read and merge them (`load_and_merge`);
`merge` then prints the merged document and writes it to its output (`write_output`). What they do
to files they do through a host.
-/

namespace SchemaMerge

/-- How a command ends. -/
inductive Report
  /-- It succeeds, with a text for the standard output. -/
  | success (text : String)
  /-- It fails, with a text for the error output. -/
  | failure (text : String)
  /-- It breaks off without a report of its own. -/
  | brokenOff
deriving DecidableEq, Inhabited

/-- The mark before a report of success. -/
def successMark : String := "✅ "

/-- The mark before a report of failure. -/
def failureMark : String := "❌ "

/-- The merged document of all schema files under some paths. -/
structure MergedSchema where
  document : Document
  fileCount : Nat
deriving DecidableEq

/-- What `check` reports of a merged schema. -/
def checkReport (schema : MergedSchema) : String :=
  let document := schema.document
  let others := document.scalars.length + document.enums.length + document.interfaces.length +
    document.unions.length + document.inputs.length
  successMark ++ "All GraphQL merged successfully:\n" ++
    "  * Analyzed " ++ toString schema.fileCount ++ " files.\n" ++
    "  * Merged " ++ toString document.types.length ++ " type definitions.\n" ++
    "  * Merged " ++ toString document.directiveDefinitions.length ++ " directive definitions.\n" ++
    "  * Merged " ++ toString others ++ " other definitions."

/-- What `merge` reports of a merged schema that it has written. -/
def mergeReport (schema : MergedSchema) (output : String) : String :=
  successMark ++ "Merged " ++ toString schema.fileCount ++ " files (" ++
    toString schema.document.count ++ " definitions) into " ++ output ++ "."

/-! ## Merging -/

/-- A file with the text that was read of it. -/
def sourceOf (path : String) : Except String String → Except String Source
  | .ok text => .ok ⟨path, text⟩
  | .error message => .error ("Failed to read " ++ Text.quoted path ++ ": " ++ message)

/-- Merges texts in a task of its own. A failure is reported beside the text that it is about; where
that breaks off, so does the task, and `brokenTask` is what is said of it. -/
def mergeTask (brokenTask : String) (sources : List Source) : Except String MergedSchema :=
  match mergeSources sources with
  | .error diagnostic =>
    match diagnostic.detailed? (diagnostic.sourceText? sources) with
    | some text => .error text
    | none => .error ("Merge task failed: " ++ brokenTask)
  | .ok document => .ok ⟨document, sources.length⟩

/-! ## Commands -/

section

variable {m : Type → Type} [Monad m] (host : Host m)

/-- Reads a file (`read_source`). -/
def readSource? (path : String) : m (Except String Source) :=
  return sourceOf path (← host.readText path)

/-- Reads some files, or says why the first that could not be read could not (`read_sources`). -/
def readSources? (paths : List String) : m (Except String (List Source)) :=
  return (← paths.mapM (readSource? host)).mapM id

/-- Finds, reads and merges the schema files under some paths, or says why that failed. -/
def loadMerged (paths extensions : List String) : m (Except String MergedSchema) := do
  match ← host.findSchemaFiles paths extensions with
  | .error fault => return .error fault.message
  | .ok files =>
    match ← readSources? host files with
    | .error message => return .error message
    | .ok sources => return mergeTask host.brokenTask sources

/-- Writes a text to a file, in a directory that is made if it is missing. -/
def writeOutput (path text : String) : m (Except String Unit) := do
  match (Path.parent? path).filter fun parent => !parent.isEmpty with
  | none => host.writeText path text
  | some parent =>
    match ← host.createDirectories parent with
    | .error message => return .error message
    | .ok () => host.writeText path text

/-- Prints a merged schema and writes it to its output. -/
def writeMerged (schema : MergedSchema) (output : String) (indent : IndentPattern) : m Report := do
  match indent.unit? with
  | none => return .brokenOff
  | some unit =>
    match ← writeOutput host output (schema.document.print unit) with
    | .ok () => return .success (mergeReport schema output)
    | .error message =>
      return .failure (failureMark ++ "Failed to write " ++ Text.quoted output ++ ": " ++ message)

/-- Runs a command. -/
def Command.run : Command → m Report
  | .check inputs extensions => do
    match ← loadMerged host inputs extensions with
    | .ok schema => return .success (checkReport schema)
    | .error message => return .failure (failureMark ++ message)
  | .merge inputs output extensions indent => do
    match ← loadMerged host inputs extensions with
    | .ok schema => writeMerged host schema output indent
    | .error message => return .failure (failureMark ++ message)

end

end SchemaMerge
