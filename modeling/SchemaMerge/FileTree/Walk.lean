import SchemaMerge.FileTree.Resolve
import SchemaMerge.Host.Basic

/-!
# Walking a tree

A walk visits a path and everything under it: a directory before what it holds, and its entries in
the order of their names, as in the walk of `find_schema_files`. Links are followed. A link to a
directory that the walk is inside of is a loop, and the walk goes on behind it.
-/

namespace SchemaMerge

/-- A directory that a walk is inside of, by the path that the walk took and by its location. -/
structure Ancestor where
  path : String
  location : Location

/-- The entries of a directory in the order of their names. -/
def sortedEntries (entries : List (String × FileNode)) : List (String × FileNode) :=
  entries.mergeSort fun a b => a.1 ≤ b.1

namespace FileTree

/-- The walk from a node that the walk has come to by a path and that stands at a location, inside
of some directories and with a number of links left to follow. -/
def walkFrom (tree : FileTree) (ancestors : List Ancestor) (links : Nat) (path : String)
    (location : Location) : FileNode → List Visit
  | .file _ => [.entry path .file]
  | .directory entries =>
    .entry path .directory ::
      match Path.accepted path with
      | .error fault => [(WalkFault.unreadable path fault.message).visit]
      | .ok _ =>
        (sortedEntries entries).attach.flatMap fun ⟨(name, node), _⟩ =>
          tree.walkFrom (⟨path, location⟩ :: ancestors) links (Path.join path name)
            (location ++ [name]) node
  | .link _ =>
    match tree.resolve true path with
    | .error fault => [(WalkFault.unreadable path fault.message).visit]
    | .ok ⟨location, .directory entries⟩ =>
      match ancestors.find? fun ancestor => ancestor.location = location with
      | some ancestor => [(WalkFault.loop path ancestor.path).visit]
      | none =>
        match links with
        | 0 => [(WalkFault.unreadable path FileFault.tooManyLinks.message).visit]
        | links + 1 => tree.walkFrom ancestors links path location (.directory entries)
    | .ok _ => [.entry path .file]
termination_by node => (links, sizeOf node)
decreasing_by
  · have hmem := List.mem_mergeSort.1 ‹(name, node) ∈ sortedEntries entries›
    have hsize := List.sizeOf_lt_of_mem hmem
    apply Prod.Lex.right
    simp at hsize ⊢
    omega
  · exact Prod.Lex.left _ _ (Nat.lt_succ_self _)

/-- The walk of a path. Each link that the walk is inside of is one that its path leads through, so
none is left out for want of links. -/
def walk (tree : FileTree) (path : String) : List Visit :=
  match tree.resolve false path with
  | .error fault => [(WalkFault.unreadable path fault.message).visit]
  | .ok place => tree.walkFrom [] maxLinks path place.location place.node

end FileTree

end SchemaMerge
