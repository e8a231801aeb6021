import Mathlib.Data.List.Forall2
import SchemaMerge.Proofs.FileTree.Listing
import SchemaMerge.Proofs.Host.Extensions
import SchemaMerge.Proofs.Host.Lawful

/-!
# Which schema files are found

In a tree without links, the schema files under a path are all its files with one of the extensions,
each once and in the order of the names of their paths; so what is found does not depend on the
order in which a directory holds its entries (`FileTree.findSchemaFilesBy_spec`). The walk is one
that comes across directories and files in the order of `FileNode.visits`, as that of
`walk_eq_visits` does.
-/

namespace SchemaMerge

open FileNode

variable {node : FileNode} {file : String}

/-! ## The files under several paths -/

namespace FileTree

variable {tree other : FileTree} {walk otherWalk : String → Id (List Visit)} {path : String}
  {paths extensions files : List String} {place : Place}

/-- A tree without links, with a working directory in it. -/
structure Plain (tree : FileTree) : Prop where
  root : tree.root.Plain
  standsInDirectory : tree.StandsInDirectory

/-- The paths of the files at or under a path. -/
def listing (tree : FileTree) (path : String) : List String :=
  match tree.resolve true path with
  | .ok place => place.node.listed path
  | .error _ => []

/-- Some paths are walked in order: the walk of each, if it leads somewhere, comes across what it
leads to and then, depth first, the entries of each directory in the order of their names. -/
def Walked (tree : FileTree) (walk : String → Id (List Visit)) (paths : List String) : Prop :=
  ∀ path ∈ paths, ∀ place, tree.resolve true path = .ok place → walk path = place.node.visits path

/-- A file at or under a path, by the path that the names behind it make. -/
def Under (tree : FileTree) (path file : String) : Prop :=
  ∃ place names, tree.resolve true path = .ok place ∧ place.node.kind? names = some .file ∧
    file = names.foldl Path.join path

/-- The paths found are those of all files at or under a path that have one of the extensions, each
once and in ascending order of their components. -/
structure Finds (tree : FileTree) (extensions : List String) (path : String)
    (found : List String) : Prop where
  mem_iff : ∀ file,
    file ∈ found ↔ tree.Under path file ∧ ∃ extension ∈ extensions, EndsIn file extension
  nodup : found.Nodup
  ordered : found.Pairwise fun p q => Path.essentialNames p < Path.essentialNames q

theorem listing_of_resolve (h : tree.resolve true path = .ok place) :
    tree.listing path = place.node.listed path := by
  unfold listing
  rw [h]

theorem Plain.of_resolve (h : tree.Plain) (hplace : tree.resolve true path = .ok place) :
    place.node.Plain := (h.root.of_at? (at?_of_resolve hplace)).1

theorem mem_listing (h : tree.Plain) : file ∈ tree.listing path ↔ tree.Under path file := by
  unfold listing
  constructor
  · intro hfile
    split at hfile
    · next place hplace =>
      obtain ⟨names, content, hat, rfl⟩ := (mem_listed (h.of_resolve hplace) path).1 hfile
      exact ⟨place, names, hplace, kind?_eq_some_iff.2 ⟨_, hat, rfl⟩, rfl⟩
    · cases hfile
  · rintro ⟨place, names, hplace, hkind, rfl⟩
    obtain ⟨found, hat, hkind⟩ := kind?_eq_some_iff.1 hkind
    obtain ⟨content, rfl⟩ := exists_content_of_kind hkind
    rw [hplace]
    exact (mem_listed (h.of_resolve hplace) path).2 ⟨names, content, hat, rfl⟩

theorem pairwise_listing (h : tree.Plain) (path : String) :
    (tree.listing path).Pairwise fun p q => Path.essentialNames p < Path.essentialNames q := by
  unfold listing
  split
  · next place hplace => exact pairwise_listed (h.of_resolve hplace) path
  · exact .nil

theorem finds_filter_listing (h : tree.Plain) (extensions : List String) (path : String) :
    tree.Finds extensions path ((tree.listing path).filter (hasExtension extensions)) := by
  have hordered := (pairwise_listing h path).filter (hasExtension extensions)
  refine ⟨fun file => ?_, hordered.imp fun hlt heq => ?_, hordered⟩
  · rw [List.mem_filter, mem_listing h, hasExtension_iff]
  · exact List.lt_irrefl _ (heq ▸ hlt)

/-- What is found under a path is determined by which files are under it. -/
theorem Finds.unique {found others : List String} (h : tree.Finds extensions path found)
    (h' : other.Finds extensions path others)
    (hunder : ∀ file, tree.Under path file ↔ other.Under path file) : found = others := by
  have hperm : found.Perm others := by
    rw [List.perm_ext_iff_of_nodup h.nodup h'.nodup]
    intro file
    rw [h.mem_iff, h'.mem_iff, hunder]
  refine hperm.eq_of_pairwise (fun p q _ _ hpq hqp => ?_) h.ordered h'.ordered
  exact (List.lt_asymm hpq hqp).elim

/-! ## Trees with the same nodes -/

/-- Two trees with the same working directory and, at each location, nodes of one kind. -/
structure Matches (tree other : FileTree) : Prop where
  workingDirectory_eq : other.workingDirectory = tree.workingDirectory
  kind?_eq : ∀ location, other.root.kind? location = tree.root.kind? location

theorem Matches.symm (h : tree.Matches other) : other.Matches tree :=
  ⟨h.workingDirectory_eq.symm, fun location => (h.kind?_eq location).symm⟩

theorem kind?_of_at? {root : FileNode} {location : Location} (h : root.at? location = some node)
    (names : Location) : node.kind? names = root.kind? (location ++ names) := by
  unfold kind?
  rw [at?_append, h, Option.bind_some]

/-- A path leads to nodes of one kind in both trees, with nodes of one kind below them. -/
theorem Matches.resolve (h : tree.Matches other) (hdirectory : tree.StandsInDirectory)
    (hplace : tree.resolve true path = .ok place) :
    ∃ found, other.resolve true path = .ok found ∧
      ∀ names, found.node.kind? names = place.node.kind? names := by
  have hwithin : tree.root.Within other.root := fun location kind hkind =>
    (h.kind?_eq location).trans hkind
  obtain ⟨found, hfound, hlocation⟩ :=
    resolve_within hdirectory h.workingDirectory_eq hwithin hplace
  refine ⟨found, hfound, fun names => ?_⟩
  rw [kind?_of_at? (at?_of_resolve hfound), kind?_of_at? (at?_of_resolve hplace), hlocation,
    h.kind?_eq]

theorem Matches.under (h : tree.Matches other) (hdirectory : tree.StandsInDirectory)
    (hunder : tree.Under path file) : other.Under path file := by
  obtain ⟨place, names, hplace, hkind, rfl⟩ := hunder
  obtain ⟨found, hfound, hkinds⟩ := h.resolve hdirectory hplace
  exact ⟨found, names, hfound, (hkinds names).trans hkind, rfl⟩

theorem isFile_iff : tree.isFile path = true ↔
    ∃ place, tree.resolve true path = .ok place ∧ place.node.kind? [] = some .file := by
  unfold isFile
  split
  · next location content hplace =>
    simp [hplace, kind?, kind]
  · next hother =>
    simp only [Bool.false_eq_true, false_iff, not_exists, not_and]
    intro place hplace hkind
    obtain ⟨found, hat, hkind⟩ := kind?_eq_some_iff.1 hkind
    obtain ⟨content, rfl⟩ := exists_content_of_kind hkind
    rw [at?_nil] at hat
    obtain ⟨location, node⟩ := place
    cases hat
    exact hother location content hplace

theorem Matches.isFile_eq (h : tree.Matches other) (hdirectory : tree.StandsInDirectory)
    (hdirectory' : other.StandsInDirectory) (path : String) :
    other.isFile path = tree.isFile path := by
  rw [Bool.eq_iff_iff, isFile_iff, isFile_iff]
  constructor
  · rintro ⟨place, hplace, hkind⟩
    obtain ⟨found, hfound, hkinds⟩ := h.symm.resolve hdirectory' hplace
    exact ⟨found, hfound, (hkinds []).trans hkind⟩
  · rintro ⟨place, hplace, hkind⟩
    obtain ⟨found, hfound, hkinds⟩ := h.resolve hdirectory hplace
    exact ⟨found, hfound, (hkinds []).trans hkind⟩

/-! ## Finding -/

/-- The walk of a tree keeps to the order, where no path is too long for it. -/
theorem walked_walk (h : tree.Plain)
    (hwalkable : ∀ path ∈ paths, ∀ place, tree.resolve true path = .ok place →
      place.node.Walkable path) : tree.Walked tree.walk paths :=
  fun path hpath place hplace => walk_eq_visits h.root hplace (hwalkable path hpath place hplace)

/-- Walks of paths that lead somewhere come across their files, and nothing goes wrong. -/
theorem filterMap_walk (hplain : tree.Plain) (hwalk : tree.Walked walk paths)
    (hexist : ∀ path ∈ paths, ∃ place, tree.resolve true path = .ok place) :
    (paths.flatMap walk).filterMap Visit.file? = paths.flatMap tree.listing ∧
      (paths.flatMap walk).filterMap Visit.fault? = [] := by
  have hvisits (path : String) (hpath : path ∈ paths) :
      (walk path).filterMap Visit.file? = tree.listing path ∧
        (walk path).filterMap Visit.fault? = [] := by
    obtain ⟨place, hplace⟩ := hexist path hpath
    rw [hwalk path hpath place hplace, listing_of_resolve hplace]
    exact filterMap_visits (hplain.of_resolve hplace) path
  rw [List.filterMap_flatMap, List.filterMap_flatMap, List.flatMap_eq_nil_iff]
  exact ⟨List.flatMap_congr fun path hpath => (hvisits path hpath).1,
    fun path hpath => (hvisits path hpath).2⟩

/-- What is found on walks that come across some files and on which nothing goes wrong. -/
theorem findSchemaFilesBy_of_flatMap
    (hfiles : (paths.flatMap walk).filterMap Visit.file? = files)
    (hfaults : (paths.flatMap walk).filterMap Visit.fault? = []) {normal found : List String}
    (hnormal : normalizeExtensions extensions = normal)
    (hfound : files.filter (hasExtension normal) = found) :
    (found ≠ [] → findSchemaFilesBy walk tree.isFile paths extensions = .ok found) ∧
    (found = [] → ∀ path, paths = [path] → tree.isFile path = true →
      findSchemaFilesBy walk tree.isFile paths extensions = .ok [path]) ∧
    (found = [] → (∀ path, paths = [path] → tree.isFile path = false) →
      findSchemaFilesBy walk tree.isFile paths extensions =
        .error (.nothingFound paths normal)) := by
  have hwalks : paths.mapM walk = pure (paths.map walk) := List.mapM_pure (f := walk)
  have hvisits : (paths.map walk).flatten = paths.flatMap walk := List.flatMap_def.symm
  unfold findSchemaFilesBy
  rw [hwalks, pure_bind]
  simp only [hvisits, hfaults, hfiles, hnormal, hfound]
  refine ⟨fun hsome => ?_, fun hnone path hpath hfile => ?_, fun hnone hother => ?_⟩
  · have hthere : (!found.isEmpty) = true := by simpa using hsome
    exact if_pos hthere
  · subst hnone hpath
    exact if_pos hfile
  · subst hnone
    match paths with
    | [] => rfl
    | [path] => exact if_neg (Bool.eq_false_iff.1 (hother path rfl))
    | _ :: _ :: _ => rfl

/-- The listings of some paths, one behind the other and without files of other extensions. -/
theorem filter_flatMap_listing (tree : FileTree) (paths extensions : List String) :
    (paths.flatMap tree.listing).filter (hasExtension extensions) =
      (paths.map fun path => (tree.listing path).filter (hasExtension extensions)).flatten := by
  rw [List.filter_flatMap, List.flatMap_def]

/-- Under each path the same files are found in both trees. -/
theorem Matches.filter_listing (h : tree.Matches other) (hplain : tree.Plain)
    (hplain' : other.Plain) (extensions : List String) (path : String) :
    (other.listing path).filter (hasExtension extensions) =
      (tree.listing path).filter (hasExtension extensions) := by
  refine (finds_filter_listing hplain' extensions path).unique
    (finds_filter_listing hplain extensions path) fun file => ?_
  constructor
  · exact h.symm.under hplain'.standsInDirectory
  · exact h.under hplain.standsInDirectory

/-- The order in which the entries of directories stand makes no difference. -/
theorem Matches.findSchemaFilesBy_eq (h : tree.Matches other) (hplain : tree.Plain)
    (hplain' : other.Plain) (hwalk : tree.Walked walk paths)
    (hwalk' : other.Walked otherWalk paths)
    (hexist : ∀ path ∈ paths, ∃ place, tree.resolve true path = .ok place)
    (extensions : List String) :
    findSchemaFilesBy otherWalk other.isFile paths extensions =
      findSchemaFilesBy walk tree.isFile paths extensions := by
  have hexist' : ∀ path ∈ paths, ∃ place, other.resolve true path = .ok place := by
    intro path hpath
    obtain ⟨place, hplace⟩ := hexist path hpath
    obtain ⟨found, hfound, -⟩ := h.resolve hplain.standsInDirectory hplace
    exact ⟨found, hfound⟩
  have hsame : (paths.flatMap other.listing).filter
        (hasExtension (normalizeExtensions extensions)) =
      (paths.flatMap tree.listing).filter (hasExtension (normalizeExtensions extensions)) := by
    simp only [filter_flatMap_listing, h.filter_listing hplain hplain']
  have hfile := h.isFile_eq hplain.standsInDirectory hplain'.standsInDirectory
  obtain ⟨hfiles, hfaults⟩ := filterMap_walk hplain hwalk hexist
  obtain ⟨hfiles', hfaults'⟩ := filterMap_walk hplain' hwalk' hexist'
  obtain ⟨hsome, hsingle, hnone⟩ := findSchemaFilesBy_of_flatMap hfiles hfaults rfl rfl
  obtain ⟨hsome', hsingle', hnone'⟩ := findSchemaFilesBy_of_flatMap hfiles' hfaults' rfl hsame
  by_cases hfound : (paths.flatMap tree.listing).filter
      (hasExtension (normalizeExtensions extensions)) = []
  · by_cases hpath : ∃ path, paths = [path] ∧ tree.isFile path = true
    · obtain ⟨path, hpath, hthere⟩ := hpath
      rw [hsingle' hfound path hpath ((hfile path).trans hthere), hsingle hfound path hpath hthere]
    · have hmissing (path : String) (h : paths = [path]) : tree.isFile path = false :=
        Bool.eq_false_iff.2 fun hthere => hpath ⟨path, h, hthere⟩
      rw [hnone' hfound fun path h => (hfile path).trans (hmissing path h), hnone hfound hmissing]
  · rw [hsome' hfound, hsome hfound]

/-- **The files found are those under the paths, path by path, each once and in order**; if there
are none, a single path to a file is taken, and otherwise nothing is found. It makes no difference
in which order the entries of a directory stand. -/
theorem findSchemaFilesBy_spec (hplain : tree.Plain) (hwalk : tree.Walked walk paths)
    (hexist : ∀ path ∈ paths, ∃ place, tree.resolve true path = .ok place)
    (extensions : List String) :
    (∃ normal, NormalizesTo extensions normal ∧
      ∃ parts, List.Forall₂ (tree.Finds normal) paths parts ∧
        (parts.flatten ≠ [] →
          findSchemaFilesBy walk tree.isFile paths extensions = .ok parts.flatten) ∧
        (parts.flatten = [] → ∀ path, paths = [path] → tree.isFile path = true →
          findSchemaFilesBy walk tree.isFile paths extensions = .ok [path]) ∧
        (parts.flatten = [] → (∀ path, paths = [path] → tree.isFile path = false) →
          findSchemaFilesBy walk tree.isFile paths extensions =
            .error (.nothingFound paths normal))) ∧
    ∀ other otherWalk, other.Plain → other.Walked otherWalk paths → tree.Matches other →
      findSchemaFilesBy otherWalk other.isFile paths extensions =
        findSchemaFilesBy walk tree.isFile paths extensions := by
  constructor
  · have hfinds : List.Forall₂ (tree.Finds (normalizeExtensions extensions)) paths
        (paths.map fun path => (tree.listing path).filter
          (hasExtension (normalizeExtensions extensions))) := by
      rw [List.forall₂_map_right_iff, List.forall₂_same]
      exact fun path _ => finds_filter_listing hplain _ path
    obtain ⟨hfiles, hfaults⟩ := filterMap_walk hplain hwalk hexist
    exact ⟨_, normalizesTo_iff.2 rfl, _, hfinds,
      findSchemaFilesBy_of_flatMap hfiles hfaults rfl (filter_flatMap_listing tree paths _)⟩
  · intro other otherWalk hplain' hwalk' h
    exact h.findSchemaFilesBy_eq hplain hplain' hwalk hwalk' hexist extensions

/-- A directory whose name is the beginning of that of a file. -/
theorem findSchemaFilesBy_spec_directory :
    let inner : FileNode := .directory [("x.gql", .file "scalar X".toUTF8)]
    let schema : FileNode := .directory
      [("b.graphql", .file "scalar B".toUTF8), ("a.graphql", .file "scalar A".toUTF8), ("a", inner)]
    let tree : FileTree := ⟨.directory [("s", schema)], []⟩
    tree.Plain ∧ tree.Walked tree.walk ["s"] ∧ tree.resolve true "s" = .ok ⟨["s"], schema⟩ ∧
      ∃ normal found, NormalizesTo [" ..graphql", ".", "gql"] normal ∧ "graphql" ∈ normal ∧
        tree.Finds normal "s" found ∧
        host.findSchemaFiles ["s"] [" ..graphql", ".", "gql"] tree = (.ok found, tree) := by
  intro inner schema tree
  have hinner : inner.Plain := .directory (by decide +kernel) (by decide) (by simp [Plain.file])
  have hschema : schema.Plain :=
    .directory (by decide +kernel) (by decide) (by simp [Plain.file, hinner])
  have hplain : tree.Plain :=
    ⟨.directory (by decide +kernel) (by decide) (by simp [hschema]),
      by simp [StandsInDirectory, tree, kind?, kind]⟩
  have hpath : Path.accepted "s" = .ok ⟨false, ["s"], false⟩ := by decide +kernel
  have hresolve : tree.resolve true "s" = .ok ⟨["s"], schema⟩ := by
    have henter : tree.root.enter maxLinks [] [] = .ok ([], maxLinks) := by simp [enter]
    unfold resolve
    rw [hpath]
    exact @locate_of_enter _ _ _ _ _ _ ⟨false, ["s"], false⟩ _ rfl henter
  have hwalk : tree.Walked tree.walk ["s"] := by
    refine walked_walk hplain fun path hmem place hplace => ?_
    obtain rfl := List.mem_singleton.1 hmem
    cases hresolve.symm.trans hplace
    have hinner : Path.accepted "s/a" = .ok ⟨false, ["s", "a"], false⟩ := by decide +kernel
    refine .directory hpath ?_
    simp only [List.forall_mem_cons, List.not_mem_nil, false_imp_iff, implies_true, and_true]
    exact ⟨.file _ _, .file _ _, .directory hinner (by simp [Walkable.file])⟩
  have hexist : ∀ path ∈ ["s"], ∃ place, tree.resolve true path = .ok place := by
    intro path hmem
    obtain rfl := List.mem_singleton.1 hmem
    exact ⟨_, hresolve⟩
  obtain ⟨⟨normal, hnormal, parts, hparts, hsome, -⟩, -⟩ :=
    findSchemaFilesBy_spec hplain hwalk hexist [" ..graphql", ".", "gql"]
  obtain ⟨found, _, hfinds, hrest, rfl⟩ := List.forall₂_cons_left_iff.1 hparts
  cases hrest
  have hgraphql : "graphql" ∈ normal := by
    rw [← normalizesTo_iff.1 hnormal]
    decide +kernel
  refine ⟨hplain, hwalk, hresolve, normal, found, hnormal, hgraphql, hfinds, ?_⟩
  have hmem : "s/b.graphql" ∈ found := by
    have hkind : schema.kind? ["b.graphql"] = some .file := by
      simp [kind?, at?_cons, schema, FileNode.entries, named?, kind]
    rw [hfinds.mem_iff]
    refine ⟨⟨_, ["b.graphql"], hresolve, hkind, by decide +kernel⟩, "graphql", hgraphql, ?_⟩
    rw [← extension?_eq_some_iff]
    decide +kernel
  have hfound := hsome (by simpa using List.ne_nil_of_mem hmem)
  rw [List.flatten_singleton] at hfound
  unfold Host.findSchemaFiles
  rw [findSchemaFilesBy_of_keeps (fun _ _ => rfl) (fun _ _ => rfl)]
  exact congrArg (·, tree) hfound

end FileTree

end SchemaMerge
