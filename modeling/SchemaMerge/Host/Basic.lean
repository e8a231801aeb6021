/-!
# Hosts

What commands use of the system that they run on: walking paths, reading and writing files, and
making directories. Commands are written for any host, so they run on the files of a computer as
well as on a tree of files in memory.

Errors of a host are texts, since commands do nothing with them but report them.
-/

namespace SchemaMerge

/-- What a path leads to. -/
inductive EntryKind
  | file | directory | other
deriving DecidableEq, Inhabited

/-- What a walk comes across. -/
inductive Visit
  /-- Something that the walk has come to by a path. -/
  | entry (path : String) (kind : EntryKind)
  /-- Why the walk could not go on somewhere. -/
  | fault (message : String)
deriving DecidableEq, Inhabited

namespace Visit

/-- The path of a file. What is no file is passed over. -/
def file? : Visit → Option String
  | .entry path .file => some path
  | _ => none

/-- What went wrong. -/
def fault? : Visit → Option String
  | .entry _ _ => none
  | .fault message => some message

end Visit

/-- What went wrong on a walk. -/
inductive WalkFault
  /-- What a path leads to could not be read. -/
  | unreadable (path message : String)
  /-- A link leads back to a directory that the walk came through. -/
  | loop (path ancestor : String)
deriving DecidableEq, Inhabited

/-- The fault in words. -/
def WalkFault.message : WalkFault → String
  | .unreadable path message => "IO error for operation on " ++ path ++ ": " ++ message
  | .loop path ancestor =>
    "File system loop found: " ++ path ++ " points to an ancestor " ++ ancestor

/-- The fault as what a walk comes across. -/
def WalkFault.visit (fault : WalkFault) : Visit := .fault fault.message

/-- The operations of a host, which take effect in `m`. -/
structure Host (m : Type → Type) where
  /-- Walks a path and all that is under it. -/
  walk : String → m (List Visit)
  /-- Whether a path leads to a file. -/
  isFile : String → m Bool
  /-- The text of the file that a path leads to. -/
  readText : String → m (Except String String)
  /-- Makes a directory, and those above it that are missing. -/
  createDirectories : String → m (Except String Unit)
  /-- Stores a text in the file that a path leads to, and makes the file if there is none. -/
  writeText : String → String → m (Except String Unit)
  /-- What is said of a task that broke off. -/
  brokenTask : String

end SchemaMerge
