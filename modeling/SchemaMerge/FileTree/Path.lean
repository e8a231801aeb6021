import SchemaMerge.FileTree.Basic

/-!
# Paths

A path is written as names with slashes between them. A name may be `.` for the directory itself or
`..` for the one above. Repeated slashes count as one; a slash at the end asks for a directory. File
operations take a path only if it is not too long and has no NUL in it.

A path's extension is what follows the last dot of its last name, unless that dot comes first
(`extension`). The path above it leads to the directory that holds what it leads to (`parent`).
-/

namespace SchemaMerge

/-- The parts of a text between occurrences of a character. -/
def splitOnChar (separator : Char) : List Char → List (List Char)
  | [] => [[]]
  | c :: rest =>
    if c = separator then [] :: splitOnChar separator rest
    else
      match splitOnChar separator rest with
      | part :: parts => (c :: part) :: parts
      | [] => [[c]]

/-- A path, taken apart. -/
structure Path where
  /-- Whether the path starts at the root. -/
  absolute : Bool
  names : List String
  /-- Whether the path ends in a slash. -/
  slashed : Bool
deriving DecidableEq, Inhabited

namespace Path

/-- The path that a text writes. -/
def ofText (text : String) : Path where
  absolute := text.toList.head? = some '/'
  names := ((splitOnChar '/' text.toList).filter fun part => !part.isEmpty).map String.ofList
  slashed := text.toList.getLast? = some '/'

/-- How many bytes a path may take. -/
def maxBytes : Nat := 4095

/-- The path that a text writes, or why file operations refuse it. -/
def accepted (text : String) : Except FileFault Path :=
  if '\x00' ∈ text.toList then .error .nulInName
  else if text.isEmpty then .error .noSuchFile
  else if maxBytes < text.utf8ByteSize then .error .nameTooLong
  else .ok (ofText text)

/-- The path of a name in the directory that a path leads to. -/
def join (path name : String) : String :=
  if path.toList.getLast? = some '/' then path ++ name else path ++ "/" ++ name

/-- The parts of a text between its slashes. -/
def parts (text : String) : List String := (splitOnChar '/' text.toList).map String.ofList

/-- The names of a path without those that stand for the directory itself, a first one apart. -/
def essentialNames (text : String) : List String :=
  match parts text with
  | [] => []
  | first :: rest => (first :: rest.filter fun part => part ≠ ".").filter fun part => !part.isEmpty

/-- The beginnings of a text that end with an essential name of some of its parts, which have the
text `before` in front of them. -/
def beginningsFrom (before : String) : List String → List String
  | [] => []
  | part :: rest =>
    let here := before ++ "/" ++ part
    if part.isEmpty || part = "." then beginningsFrom here rest
    else here :: beginningsFrom here rest

/-- The beginnings of a text that end with one of its essential names, the shortest first. -/
def beginnings (text : String) : List String :=
  match parts text with
  | [] => []
  | first :: rest =>
    if first.isEmpty then beginningsFrom first rest else first :: beginningsFrom first rest

/-- The path of the directory above what a path leads to: the empty text if that is the working
directory. The root and the working directory have none. -/
def parent? (text : String) : Option String :=
  match beginnings text with
  | [] => none
  | [_] => some (if (ofText text).absolute then "/" else "")
  | first :: rest => (first :: rest).dropLast.getLast?

/-- The part of a name behind its last dot, if there is something before that dot. -/
def nameExtension? (name : List Char) : Option (List Char) :=
  match name.reverse.dropWhile fun c => c ≠ '.' with
  | '.' :: _ :: _ =>
    if name = ['.', '.'] then none
    else some ((name.reverse.takeWhile fun c => c ≠ '.').reverse)
  | _ => none

/-- The extension of the last name of a path. -/
def extension? (text : String) : Option String :=
  ((essentialNames text).getLast?.bind fun name => nameExtension? name.toList).map
    String.ofList

end Path

end SchemaMerge
