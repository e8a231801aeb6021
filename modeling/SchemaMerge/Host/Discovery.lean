import SchemaMerge.FileTree.Path
import SchemaMerge.Host.Basic
import SchemaMerge.Text.Escape

/-!
# Finding schema files

The schema files under some paths are all files with one of the given extensions, path by path and
in the order of a walk (`find_schema_files`). A single path to a file is taken whatever its
extension.
-/

namespace SchemaMerge

/-- The extensions of schema files if none are given. -/
def standardExtensions : List String := ["graphql", "graphqls", "gql"]

/-- An extension without the blank characters around it and the dots before it. -/
def normalizeExtension (extension : String) : String :=
  String.ofList ((Text.trim Text.isBlank extension.toList).dropWhile (· = '.'))

/-- The extensions as they are compared (`normalize_exts`). One of which nothing is left is
dropped. -/
def normalizeExtensions (extensions : List String) : List String :=
  (extensions.map normalizeExtension).filter fun extension => !extension.isEmpty

/-- Why no schema files were found. -/
inductive DiscoveryFault
  /-- Some paths could not be walked to the end. -/
  | unwalkable (faults : List String)
  /-- No file has one of the extensions. -/
  | nothingFound (paths extensions : List String)
deriving DecidableEq, Inhabited

/-- The fault in words. -/
def DiscoveryFault.message : DiscoveryFault → String
  | .unwalkable faults =>
    "Failed to scan input paths:\n" ++
      String.intercalate "\n" (faults.map fun fault => "  * " ++ fault)
  | .nothingFound paths extensions =>
    "No GraphQL schema files found under " ++ String.intercalate ", " paths ++ " (looked for " ++
      String.intercalate ", " (extensions.map fun extension => "`." ++ extension ++ "`") ++ ")."

/-- Whether a path ends in one of the extensions (`has_schema_ext`). -/
def hasExtension (extensions : List String) (path : String) : Bool :=
  match Path.extension? path with
  | some extension => extension ∈ extensions
  | none => false

section

variable {m : Type → Type} [Monad m]

/-- The paths of the schema files under the given paths, which are walked in a given way. -/
def findSchemaFilesBy (walk : String → m (List Visit)) (isFile : String → m Bool)
    (paths extensions : List String) : m (Except DiscoveryFault (List String)) := do
  let extensions := normalizeExtensions extensions
  let visits := (← paths.mapM walk).flatten
  let faults := visits.filterMap Visit.fault?
  let files := (visits.filterMap Visit.file?).filter (hasExtension extensions)
  if !faults.isEmpty then return .error (.unwalkable faults)
  else if !files.isEmpty then return .ok files
  else
    match paths with
    | [path] => return if ← isFile path then .ok [path] else .error (.nothingFound paths extensions)
    | _ => return .error (.nothingFound paths extensions)

/-- The paths of the schema files that a host has under the given paths. -/
def Host.findSchemaFiles (host : Host m) (paths extensions : List String) :
    m (Except DiscoveryFault (List String)) :=
  findSchemaFilesBy host.walk host.isFile paths extensions

end

end SchemaMerge
