import Mathlib.Data.List.Lex
import SchemaMerge.FileTree.Walk
import SchemaMerge.Proofs.FileTree.Following
import SchemaMerge.Proofs.FileTree.PathNames

/-!
# The files of a tree without links

`FileNode.listed` gives the paths of the files at or under a node, depth first and the entries of
each directory in the order of their names. All files are listed and nothing else
(`FileNode.mem_listed`), in the order of the names of their paths (`FileNode.pairwise_listed`).

`FileNode.visits` gives all that a walk is to come across: directories as well as files, each before
what it holds. The files among it are those listed (`FileNode.filterMap_visits`). The walk of a tree
is such a walk unless a directory's path is too long (`FileTree.walk_eq_visits`).
-/

namespace SchemaMerge

open FileNode

variable {entries : List (String × FileNode)} {root node found : FileNode} {name file : String}
  {names : Location}

/-! ## Entries -/

theorem named?_eq_some_iff (h : (entries.map Prod.fst).Nodup) :
    named? name entries = some node ↔ (name, node) ∈ entries := by
  induction entries with
  | nil => simp [named?]
  | cons entry entries ih =>
    obtain ⟨first, old⟩ := entry
    obtain ⟨hfirst, hrest⟩ := List.nodup_cons.1 h
    by_cases hname : first = name
    · subst hname
      have habsent : (first, node) ∉ entries := fun hmem =>
        hfirst (List.mem_map.2 ⟨_, hmem, rfl⟩)
      simp [named?, habsent, eq_comm]
    · simp [named?, hname, ih hrest, Ne.symm hname]

theorem mem_sortedEntries {entry : String × FileNode} :
    entry ∈ sortedEntries entries ↔ entry ∈ entries := List.mem_mergeSort

/-- The entries of a directory are in strictly ascending order of their names. -/
theorem pairwise_sortedEntries (h : (entries.map Prod.fst).Nodup) :
    (sortedEntries entries).Pairwise fun a b => a.1 < b.1 := by
  have hsorted : (sortedEntries entries).Pairwise fun a b => a.1 ≤ b.1 := by
    refine (List.pairwise_mergeSort ?_ ?_ entries).imp fun hle => of_decide_eq_true hle
    · intro a b c hab hbc
      exact decide_eq_true (String.le_trans (of_decide_eq_true hab) (of_decide_eq_true hbc))
    · intro a b
      simpa using String.le_total a.1 b.1
  have hdistinct : (sortedEntries entries).Pairwise fun a b => a.1 ≠ b.1 := by
    rw [← List.pairwise_map]
    exact ((List.mergeSort_perm entries _).map Prod.fst).nodup_iff.2 h
  refine hsorted.imp₂ (fun a b hle hne => ?_) hdistinct
  by_contra hlt
  exact hne (String.le_antisymm hle (String.not_lt.1 hlt))

/-! ## The files under a path -/

namespace FileNode

/-- Files and directories without links. A directory has each name once. -/
inductive Plain : FileNode → Prop
  | file (content : ByteArray) : Plain (.file content)
  | directory {entries : List (String × FileNode)}
      (proper : ∀ entry ∈ entries, ProperName entry.1) (distinct : (entries.map Prod.fst).Nodup)
      (below : ∀ entry ∈ entries, Plain entry.2) : Plain (.directory entries)

/-- The paths of the files at or under a path that leads to the node: depth first, the entries of
each directory in the order of their names. -/
def listed (path : String) : FileNode → List String
  | .file _ => [path]
  | .directory entries =>
    (sortedEntries entries).attach.flatMap fun ⟨(name, node), _⟩ =>
      node.listed (Path.join path name)
  | .link _ => []
termination_by node => sizeOf node
decreasing_by
  have hmem := List.mem_mergeSort.1 ‹(name, node) ∈ sortedEntries entries›
  have hsize := List.sizeOf_lt_of_mem hmem
  simp at hsize ⊢
  omega

/-- What a walk comes across at or under a path that leads to the node: the node itself and then,
depth first, the entries of each directory in the order of their names. -/
def visits (path : String) : FileNode → List Visit
  | .file _ => [.entry path .file]
  | .directory entries =>
    .entry path .directory :: (sortedEntries entries).attach.flatMap fun ⟨(name, node), _⟩ =>
      node.visits (Path.join path name)
  | .link _ => []
termination_by node => sizeOf node
decreasing_by
  have hmem := List.mem_mergeSort.1 ‹(name, node) ∈ sortedEntries entries›
  have hsize := List.sizeOf_lt_of_mem hmem
  simp at hsize ⊢
  omega

theorem listed_directory (path : String) (entries : List (String × FileNode)) :
    (FileNode.directory entries).listed path =
      (sortedEntries entries).flatMap fun entry => entry.2.listed (Path.join path entry.1) := by
  rw [listed]
  conv_rhs => rw [← List.attach_map_subtype_val (sortedEntries entries), List.flatMap_map]

theorem visits_directory (path : String) (entries : List (String × FileNode)) :
    (FileNode.directory entries).visits path = .entry path .directory ::
      (sortedEntries entries).flatMap fun entry => entry.2.visits (Path.join path entry.1) := by
  rw [visits]
  conv_rhs => rw [← List.attach_map_subtype_val (sortedEntries entries), List.flatMap_map]

/-- Of what a walk comes across, the files are those listed, and nothing is a fault. -/
theorem filterMap_visits (h : node.Plain) (path : String) :
    (node.visits path).filterMap Visit.file? = node.listed path ∧
      (node.visits path).filterMap Visit.fault? = [] := by
  induction h generalizing path with
  | file content => simp [visits, listed, Visit.file?, Visit.fault?]
  | @directory entries proper distinct below ih =>
    have hbelow (entry : String × FileNode) (hentry : entry ∈ sortedEntries entries) :=
      ih entry (mem_sortedEntries.1 hentry) (Path.join path entry.1)
    rw [visits_directory, listed_directory]
    constructor
    · simp only [List.filterMap_cons, Visit.file?, List.filterMap_flatMap]
      exact List.flatMap_congr fun entry hentry => (hbelow entry hentry).1
    · simp only [List.filterMap_cons, Visit.fault?, List.filterMap_flatMap, List.flatMap_eq_nil_iff]
      exact fun entry hentry => (hbelow entry hentry).2

/-- What stands somewhere in a tree without links is one, under proper names. -/
theorem Plain.of_at? (h : node.Plain) (hat : node.at? names = some found) :
    found.Plain ∧ ∀ name ∈ names, ProperName name := by
  induction names generalizing node with
  | nil =>
    rw [at?_nil] at hat
    cases hat
    exact ⟨h, List.forall_mem_nil _⟩
  | cons name names ih =>
    rw [at?_cons] at hat
    obtain ⟨child, hchild, hrest⟩ := Option.bind_eq_some_iff.1 hat
    cases h with
    | file => cases hchild
    | directory proper distinct below =>
      have hmem := (named?_eq_some_iff distinct).1 hchild
      obtain ⟨hfound, hnames⟩ := ih (below _ hmem) hrest
      exact ⟨hfound, List.forall_mem_cons.2 ⟨proper _ hmem, hnames⟩⟩

/-- All files of the node are listed, and nothing else is. -/
theorem mem_listed (h : node.Plain) (path : String) :
    file ∈ node.listed path ↔
      ∃ names content,
        node.at? names = some (.file content) ∧ file = names.foldl Path.join path := by
  induction h generalizing path with
  | file content =>
    rw [listed, List.mem_singleton]
    constructor
    · intro hfile
      exact ⟨[], content, at?_nil _, hfile⟩
    · rintro ⟨names, found, hat, rfl⟩
      cases names with
      | nil => rfl
      | cons name names => cases hat
  | @directory entries proper distinct below ih =>
    rw [listed_directory, List.mem_flatMap]
    constructor
    · rintro ⟨⟨name, child⟩, hentry, hfile⟩
      have hmem := mem_sortedEntries.1 hentry
      obtain ⟨names, content, hat, rfl⟩ := (ih _ hmem _).1 hfile
      refine ⟨name :: names, content, ?_, rfl⟩
      rw [at?_cons, FileNode.entries, (named?_eq_some_iff distinct).2 hmem]
      exact hat
    · rintro ⟨names, content, hat, rfl⟩
      cases names with
      | nil => cases hat
      | cons name names =>
        rw [at?_cons, FileNode.entries] at hat
        obtain ⟨child, hchild, hrest⟩ := Option.bind_eq_some_iff.1 hat
        have hmem := (named?_eq_some_iff distinct).1 hchild
        have hfile := (ih _ hmem (Path.join path name)).2 ⟨names, content, hrest, rfl⟩
        exact ⟨(name, child), mem_sortedEntries.2 hmem, hfile⟩

/-- The names of a listed file continue those of the path. -/
theorem essentialNames_of_mem_listed (h : node.Plain) {path : String}
    (hfile : file ∈ node.listed path) :
    ∃ names, Path.essentialNames file = Path.essentialNames path ++ names := by
  obtain ⟨names, content, hat, rfl⟩ := (mem_listed h path).1 hfile
  exact ⟨names, Path.essentialNames_foldl_join (h.of_at? hat).2 path⟩

/-- Files are listed in the order of their names, component by component. -/
theorem pairwise_listed (h : node.Plain) (path : String) :
    (node.listed path).Pairwise fun p q => Path.essentialNames p < Path.essentialNames q := by
  induction h generalizing path with
  | file content =>
    rw [listed]
    exact List.pairwise_singleton _ _
  | @directory entries proper distinct below ih =>
    rw [listed_directory, List.pairwise_flatMap]
    refine ⟨fun entry hentry => ih entry (mem_sortedEntries.1 hentry) _, ?_⟩
    -- Two files under different entries differ first in the names of these entries.
    refine (pairwise_sortedEntries distinct).imp_of_mem fun {a b} ha hb hlt p hp q hq => ?_
    have hmema := mem_sortedEntries.1 ha
    have hmemb := mem_sortedEntries.1 hb
    obtain ⟨behind, hbehind⟩ := essentialNames_of_mem_listed (below a hmema) hp
    obtain ⟨rest, hrest⟩ := essentialNames_of_mem_listed (below b hmemb) hq
    rw [hbehind, hrest, Path.essentialNames_join (proper a hmema),
      Path.essentialNames_join (proper b hmemb), List.append_assoc, List.append_assoc]
    exact List.Lex.append_left _ (List.Lex.rel hlt) _

/-! ## Walks -/

/-- What a path leads to can be walked: there are no links, and the paths of all directories are
such that file operations take them. -/
inductive Walkable : String → FileNode → Prop
  | file (path : String) (content : ByteArray) : Walkable path (.file content)
  | directory {path : String} {entries : List (String × FileNode)} {accepted : Path}
      (haccepted : Path.accepted path = .ok accepted)
      (below : ∀ entry ∈ entries, Walkable (Path.join path entry.1) entry.2) :
      Walkable path (.directory entries)

theorem Plain.child?_ne_link (h : root.Plain) {trail : Trail} (hleads : trail.Leads root)
    (name target : String) : root.child? trail name ≠ .ok (some (.link target)) := by
  intro hchild
  have hplain := (h.of_at? (hleads.into hchild).at?).1
  cases hplain

/-- Where there are no links, it does not matter whether they are followed. -/
theorem Plain.locate_eq (h : root.Plain) {trail : Trail} (hleads : trail.Leads root) {links : Nat}
    {path : Path} {place : Place} (hplace : root.locate true links trail path = .ok place) :
    root.locate false links trail path = .ok place := by
  cases hlast : path.names.getLast? with
  | none =>
    rw [locate, hlast] at hplace ⊢
    exact hplace
  | some name =>
    cases henter : root.enter links trail path.names.dropLast with
    | error fault =>
      rw [locate, hlast] at hplace
      dsimp only at hplace
      split at hplace
      · cases hplace
      · next hfound => cases henter.symm.trans hfound
    | ok reached =>
      obtain ⟨reached, left⟩ := reached
      have hlink := h.child?_ne_link (leads_enter hleads henter) name
      rw [locate_of_enter hlast henter] at hplace ⊢
      cases hchild : root.child? reached name with
      | error fault => simpa only [hchild] using hplace
      | ok child =>
        rcases child with _ | _ | _ | target
        · simpa only [hchild] using hplace
        · simpa only [hchild] using hplace
        · simpa only [hchild] using hplace
        · exact (hlink target hchild).elim

end FileNode

namespace FileTree

variable {tree : FileTree} {path : String} {ancestors : List Ancestor} {links : Nat}
  {location : Location} {place : Place}

theorem walkFrom_directory {accepted : Path} (h : Path.accepted path = .ok accepted) :
    tree.walkFrom ancestors links path location (.directory entries) =
      .entry path .directory :: (sortedEntries entries).flatMap fun entry =>
        tree.walkFrom (⟨path, location⟩ :: ancestors) links (Path.join path entry.1)
          (location ++ [entry.1]) entry.2 := by
  rw [walkFrom, h]
  conv_rhs => rw [← List.attach_map_subtype_val (sortedEntries entries), List.flatMap_map]

/-- Without links, a walk has nothing to follow and comes across what is there. -/
theorem walkFrom_eq_visits (h : node.Walkable path) :
    tree.walkFrom ancestors links path location node = node.visits path := by
  induction h generalizing ancestors location with
  | file path content => rw [walkFrom, visits]
  | directory haccepted below ih =>
    rw [walkFrom_directory haccepted, visits_directory]
    congr 1
    exact List.flatMap_congr fun entry hentry => ih entry (mem_sortedEntries.1 hentry)

theorem walk_eq_visits (h : tree.root.Plain) (hplace : tree.resolve true path = .ok place)
    (hwalkable : place.node.Walkable path) : tree.walk path = place.node.visits path := by
  have hresolve : tree.resolve false path = .ok place := by
    unfold resolve at hplace ⊢
    cases hpath : Path.accepted path with
    | error => simp [hpath] at hplace
    | ok accepted =>
      rw [hpath] at hplace
      exact h.locate_eq (leads_start tree accepted) hplace
  unfold walk
  rw [hresolve]
  exact walkFrom_eq_visits hwalkable

end FileTree

end SchemaMerge
