import SchemaMerge.FileTree.Path

/-!
# Following paths

A path is followed name by name, as `open` and `stat` do, from the root if it starts with a slash
and otherwise from the working directory. Links are followed too, up to a fixed number; the last
name of a path is followed only where asked for. Above the root is the root itself.

The way taken is kept as a trail, so that `..` leads back on it.

## Results

* `links_enter_le`: following names uses up links and gives none back.
-/

namespace SchemaMerge

/-- How many links may be followed on one path. -/
def maxLinks : Nat := 40

/-- How many bytes a name may take. -/
def maxNameBytes : Nat := 255

/-- A place where a path leads: a location, and what is there. -/
structure Place where
  location : Location
  node : FileNode

/-- The directories that lead to one of them, that one first and the root left out, each with its
name. -/
abbrev Trail := List (String × FileNode)

/-- The location of the first directory of a trail. -/
def Trail.location (trail : Trail) : Location := (trail.map Prod.fst).reverse

namespace FileNode

/-- The trail to the directory at a location. It stops where there is none. -/
def trailFrom (trail : Trail) (node : FileNode) : Location → Trail
  | [] => trail
  | name :: location =>
    match named? name node.entries with
    | some node => trailFrom ((name, node) :: trail) node location
    | none => trail

/-- The first directory of a trail from a root. -/
def atTrail (root : FileNode) : Trail → FileNode
  | [] => root
  | (_, node) :: _ => node

/-- The place of the first directory of a trail from a root. -/
def placeOf (root : FileNode) (trail : Trail) : Place := ⟨trail.location, root.atTrail trail⟩

/-- What a name stands for in the first directory of a trail, if anything. -/
def child? (root : FileNode) (trail : Trail) (name : String) : Except FileFault (Option FileNode) :=
  if maxNameBytes < name.utf8ByteSize then .error .nameTooLong
  else .ok (named? name (root.atTrail trail).entries)

/-- The trail from which the names of a link's target are to be followed. -/
def linkStart (trail : Trail) (target : Path) : Trail := if target.absolute then [] else trail

/-- Follows names that all have to lead to directories, from a trail and with a number of links
left to follow. Gives the trail to the last directory and the links left. -/
def enter (root : FileNode) (links : Nat) (trail : Trail) :
    List String → Except FileFault (Trail × Nat)
  | [] => .ok (trail, links)
  | name :: names =>
    if name = "." then root.enter links trail names
    else if name = ".." then root.enter links trail.tail names
    else
      match root.child? trail name with
      | .error fault => .error fault
      | .ok none => .error .noSuchFile
      | .ok (some (.directory entries)) =>
        root.enter links ((name, .directory entries) :: trail) names
      | .ok (some (.file _)) => .error .notADirectory
      | .ok (some (.link target)) =>
        match links with
        | 0 => .error .tooManyLinks
        | links + 1 =>
          let target := Path.ofText target
          root.enter links (linkStart trail target) (target.names ++ names)
termination_by names => (links, names.length)

theorem links_enter_le {root : FileNode} {links left : Nat} {trail found : Trail}
    {names : List String} (h : root.enter links trail names = .ok (found, left)) :
    left ≤ links := by
  fun_induction enter root links trail names with
  | case1 => simp_all
  | case2 _ _ _ ih => exact ih h
  | case3 _ _ _ _ ih => exact ih h
  | case4 => simp at h
  | case5 => simp at h
  | case6 _ _ _ _ _ _ _ _ ih => exact ih h
  | case7 => simp at h
  | case8 => simp at h
  | case9 _ _ _ _ _ _ _ _ _ ih => exact Nat.le_succ_of_le (ih h)

/-- Follows a path from a trail. Its last name, if it is a link, is followed if `follow` is set or a
directory is wanted. -/
def locate (root : FileNode) (follow : Bool) (links : Nat) (trail : Trail) (path : Path) :
    Except FileFault Place :=
  match path.names.getLast? with
  | none => .ok (root.placeOf trail)
  | some name =>
    match _ : root.enter links trail path.names.dropLast with
    | .error fault => .error fault
    | .ok (trail, left) =>
      if name = "." then .ok (root.placeOf trail)
      else if name = ".." then .ok (root.placeOf trail.tail)
      else
        match root.child? trail name with
        | .error fault => .error fault
        | .ok none => .error .noSuchFile
        | .ok (some (.directory entries)) =>
          .ok (root.placeOf ((name, .directory entries) :: trail))
        | .ok (some (.file content)) =>
          if path.slashed then .error .notADirectory
          else .ok (root.placeOf ((name, .file content) :: trail))
        | .ok (some (.link target)) =>
          if !follow && !path.slashed then .ok (root.placeOf ((name, .link target) :: trail))
          else
            match left with
            | 0 => .error .tooManyLinks
            | left + 1 =>
              let target := Path.ofText target
              root.locate true left (linkStart trail target)
                { target with slashed := target.slashed || path.slashed }
termination_by links
decreasing_by exact links_enter_le ‹_›

end FileNode

/-- A tree and the location of its working directory. -/
structure FileTree where
  root : FileNode
  workingDirectory : Location
deriving Inhabited

namespace FileTree

/-- The trail from which the names of a path are to be followed. -/
def start (tree : FileTree) (path : Path) : Trail :=
  if path.absolute then [] else tree.root.trailFrom [] tree.workingDirectory

/-- Where the text of a path leads. A link at its end is followed if `follow` is set. -/
def resolve (tree : FileTree) (follow : Bool) (text : String) : Except FileFault Place :=
  match Path.accepted text with
  | .error fault => .error fault
  | .ok path => tree.root.locate follow maxLinks (tree.start path) path

/-- Whether a path leads to a file. -/
def isFile (tree : FileTree) (text : String) : Bool :=
  match tree.resolve true text with
  | .ok ⟨_, .file _⟩ => true
  | _ => false

/-- Whether a path leads to a directory. -/
def isDirectory (tree : FileTree) (text : String) : Bool :=
  match tree.resolve true text with
  | .ok place => place.node.isDirectory
  | .error _ => false

/-- The text of the file that a path leads to. -/
def readText (tree : FileTree) (text : String) : Except FileFault String :=
  match tree.resolve true text with
  | .error fault => .error fault
  | .ok ⟨_, .file content⟩ =>
    match String.fromUTF8? content with
    | some text => .ok text
    | none => .error .notUtf8
  | .ok _ => .error .isADirectory

end FileTree

end SchemaMerge
