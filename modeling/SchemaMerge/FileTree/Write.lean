import SchemaMerge.FileTree.Walk

/-!
# Writing to a tree

A file is written where its path leads (`write`): links are followed, and a path that ends in a
slash or leads to a directory is refused. The directories on the way to it can be made first
(`create_dir_all`).

With these operations a tree is a host, whose actions read and change the tree.
-/

namespace SchemaMerge

namespace FileNode

/-- Where a file is to be written that a path leads to from a trail. -/
def fileLocation (root : FileNode) (links : Nat) (trail : Trail) (path : Path) :
    Except FileFault Location :=
  match path.names.getLast? with
  | none => .error .isADirectory
  | some name =>
    match _ : root.enter links trail path.names.dropLast with
    | .error fault => .error fault
    | .ok (trail, left) =>
      if path.slashed || name = "." || name = ".." then .error .isADirectory
      else
        match root.child? trail name with
        | .error fault => .error fault
        | .ok (some (.directory _)) => .error .isADirectory
        | .ok (some (.link target)) =>
          match left with
          | 0 => .error .tooManyLinks
          | left + 1 =>
            let target := Path.ofText target
            root.fileLocation left (linkStart trail target) target
        | .ok _ => .ok (trail.location ++ [name])
termination_by links
decreasing_by exact links_enter_le ‹_›

/-- Where something new is to be put that a path leads to from a trail. Nothing may be there. -/
def freeLocation (root : FileNode) (trail : Trail) (path : Path) : Except FileFault Location :=
  match path.names.getLast? with
  | none => .error .fileExists
  | some name =>
    match root.enter maxLinks trail path.names.dropLast with
    | .error fault => .error fault
    | .ok (trail, _) =>
      if name = "." || name = ".." then .error .fileExists
      else
        match root.child? trail name with
        | .error fault => .error fault
        | .ok (some _) => .error .fileExists
        | .ok none => .ok (trail.location ++ [name])

end FileNode

namespace FileTree

/-- The tree with something put at a location. -/
def put (tree : FileTree) (location : Location) (node : FileNode) : FileTree :=
  { tree with root := node.put location tree.root }

/-- Why the making of files or directories stopped, and the tree as it was left. -/
structure Stop where
  fault : FileFault
  tree : FileTree

/-- The tree with something new where the text of a path leads, unless something is there. -/
def create (tree : FileTree) (text : String) (node : FileNode) : Except Stop FileTree :=
  match Path.accepted text with
  | .error fault => .error ⟨fault, tree⟩
  | .ok path =>
    match tree.root.freeLocation (tree.start path) path with
    | .error fault => .error ⟨fault, tree⟩
    | .ok location => .ok (tree.put location node)

/-- The tree with a directory at a path, which may be there already. -/
def ensureDirectory (tree : FileTree) (text : String) : Except Stop FileTree :=
  match tree.create text (.directory []) with
  | .ok tree => .ok tree
  | .error stop => if tree.isDirectory text then .ok tree else .error stop

/-- The tree with a directory at the first of several paths; each of the others is the path of the
directory above the one before it. A directory that is missing on the way is made, and stays if what
follows fails. -/
def ensureDirectories (tree : FileTree) : List String → Except Stop FileTree
  | [] => .ok tree
  | text :: above =>
    match tree.create text (.directory []) with
    | .ok tree => .ok tree
    | .error ⟨.noSuchFile, _⟩ =>
      match tree.ensureDirectories above with
      | .ok tree => tree.ensureDirectory text
      | .error stop => .error stop
    | .error stop => if tree.isDirectory text then .ok tree else .error stop

/-- The tree with a directory at a path, and with those that lead to it. -/
def createDirectories (tree : FileTree) (text : String) : Except Stop FileTree :=
  tree.ensureDirectories (Path.beginnings text).reverse

/-- The tree with a file written where a path leads. -/
def writeFile (tree : FileTree) (text : String) (content : ByteArray) : Except FileFault FileTree :=
  match Path.accepted text with
  | .error fault => .error fault
  | .ok path =>
    match tree.root.fileLocation maxLinks (tree.start path) path with
    | .error fault => .error fault
    | .ok location => .ok (tree.put location (.file content))

/-- The files that are in one tree and not, or with another content, in an earlier one. -/
def changedFiles (earlier later : FileTree) : List (Location × ByteArray) :=
  let before := earlier.root.files []
  (later.root.files []).filter fun file =>
    (before.find? fun old => old.1 = file.1).map (·.2.data) ≠ some file.2.data

/-! ## A tree as a host -/

/-- The directories that are made stay, also if not all can be. -/
def afterCreating : Except Stop FileTree → Except String Unit × FileTree
  | .ok tree => (.ok (), tree)
  | .error stop => (.error stop.fault.message, stop.tree)

/-- The tree with what an attempt to write has made of it. -/
def afterWriting (tree : FileTree) : Except FileFault FileTree → Except String Unit × FileTree
  | .ok after => (.ok (), after)
  | .error fault => (.error fault.message, tree)

/-- Operations on files that read and change a tree. -/
def host : Host (StateM FileTree) where
  walk path tree := (tree.walk path, tree)
  isFile path tree := (tree.isFile path, tree)
  readText path tree := ((tree.readText path).mapError FileFault.message, tree)
  createDirectories path tree := afterCreating (tree.createDirectories path)
  writeText path text tree := tree.afterWriting (tree.writeFile path text.toUTF8)
  brokenTask := "the task panicked"

end FileTree

end SchemaMerge
