/-!
# Trees of files

A tree holds files, directories and symbolic links by name. A location is the list of names that
lead from the root to a node without going through links; it identifies the node. Operations on a
tree fail the way an operating system's file operations do, with the same messages (`strerror`).

## Results

* `named?_putEntry_self`, `named?_putEntry_of_ne`: putting an entry changes what its name stands for
  and no other.
-/

namespace SchemaMerge

/-- Why a file operation failed. -/
inductive FileFault
  | noSuchFile | fileExists | notADirectory | isADirectory | nameTooLong | tooManyLinks
  | nulInName | notUtf8
deriving DecidableEq, Inhabited

/-- The failure in words, with the number the system has for it if it comes from the system. -/
def FileFault.message : FileFault → String
  | .noSuchFile => "No such file or directory (os error 2)"
  | .fileExists => "File exists (os error 17)"
  | .notADirectory => "Not a directory (os error 20)"
  | .isADirectory => "Is a directory (os error 21)"
  | .nameTooLong => "File name too long (os error 36)"
  | .tooManyLinks => "Too many levels of symbolic links (os error 40)"
  | .nulInName => "file name contained an unexpected NUL byte"
  | .notUtf8 => "stream did not contain valid UTF-8"

/-- A file, a directory or a symbolic link. -/
inductive FileNode
  | file (content : ByteArray)
  | directory (entries : List (String × FileNode))
  | link (target : String)
deriving Inhabited

/-- The names that lead to a node. -/
abbrev Location := List String

/-- The entry of a name. -/
def named? (name : String) : List (String × FileNode) → Option FileNode
  | [] => none
  | (first, node) :: rest => if first = name then some node else named? name rest

/-- The entries with one of a name replaced, or added at the end. -/
def putEntry (name : String) (node : FileNode) : List (String × FileNode) → List (String × FileNode)
  | [] => [(name, node)]
  | (first, old) :: rest =>
    if first = name then (name, node) :: rest else (first, old) :: putEntry name node rest

theorem named?_putEntry_self (name : String) (node : FileNode)
    (entries : List (String × FileNode)) :
    named? name (putEntry name node entries) = some node := by
  induction entries with
  | nil => simp [putEntry, named?]
  | cons first rest ih =>
    unfold putEntry
    split
    · simp [named?]
    · next h => simp [named?, h, ih]

theorem named?_putEntry_of_ne {name other : String} (h : other ≠ name) (node : FileNode)
    (entries : List (String × FileNode)) :
    named? other (putEntry name node entries) = named? other entries := by
  induction entries with
  | nil => simp [putEntry, named?, h.symm]
  | cons first rest ih =>
    unfold putEntry
    split
    · next hf => simp [named?, hf, h.symm]
    · simp only [named?, ih]

namespace FileNode

/-- The entries of a directory; none for anything else. -/
def entries : FileNode → List (String × FileNode)
  | .directory entries => entries
  | _ => []

/-- Whether the node is a directory. -/
def isDirectory : FileNode → Bool
  | .directory _ => true
  | _ => false

/-- The node at a location. -/
def at? : FileNode → Location → Option FileNode
  | node, [] => some node
  | .directory entries, name :: location =>
    match named? name entries with
    | some node => node.at? location
    | none => none
  | _, _ :: _ => none

/-- The tree with a node put at a location whose directories exist. -/
def put (new : FileNode) : Location → FileNode → FileNode
  | [], _ => new
  | name :: location, .directory entries =>
    match location, named? name entries with
    | [], _ => .directory (putEntry name new entries)
    | _ :: _, some node => .directory (putEntry name (new.put location node) entries)
    | _ :: _, none => .directory entries
  | _ :: _, node => node

/-- The files of a tree with their locations. -/
def files (location : Location) : FileNode → List (Location × ByteArray)
  | .file content => [(location, content)]
  | .directory entries =>
    entries.attach.flatMap fun ⟨(name, node), _⟩ => node.files (location ++ [name])
  | .link _ => []
termination_by node => sizeOf node
decreasing_by
  have := List.sizeOf_lt_of_mem ‹(name, node) ∈ entries›
  simp_all
  omega

end FileNode

end SchemaMerge
