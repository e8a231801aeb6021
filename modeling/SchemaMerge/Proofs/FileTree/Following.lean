import SchemaMerge.Proofs.FileTree.Locations

/-!
# Following paths from tree to tree

A trail that leads through a tree ends at the node of its location (`Trail.Leads.at?`). Following
names keeps it one (`leads_enter`). In a tree that holds all that another one does, names lead to
the locations that they lead to in the other: step by step (`child?_within`), along directories
(`enter_within`) and to the end of a path (`resolve_within`).
-/

namespace SchemaMerge

open FileNode

variable {root other : FileNode} {trail twin found : Trail} {name : String} {node : FileNode}
  {names : List String} {links left : Nat} {path : Path} {location : Location}

/-! ## Trails that lead somewhere -/

/-- Each entry of the trail is one of the directory that comes before it. -/
def Trail.Leads (root : FileNode) : Trail → Prop
  | [] => True
  | (name, node) :: trail =>
    named? name (root.atTrail trail).entries = some node ∧ Trail.Leads root trail

/-- A name is looked up if it is not too long. -/
theorem child?_eq_ok_iff {child : Option FileNode} :
    root.child? trail name = .ok child ↔
      name.utf8ByteSize ≤ maxNameBytes ∧ named? name (root.atTrail trail).entries = child := by
  unfold child?
  by_cases hlong : maxNameBytes < name.utf8ByteSize
  · simp [hlong, Nat.not_le.2 hlong]
  · simp [hlong, Nat.not_lt.1 hlong]

@[simp] theorem Trail.location_cons (entry : String × FileNode) (trail : Trail) :
    Trail.location (entry :: trail) = trail.location ++ [entry.1] := by simp [Trail.location]

theorem Trail.location_tail (trail : Trail) :
    Trail.location trail.tail = trail.location.dropLast := by
  cases trail with
  | nil => rfl
  | cons => simp

theorem Trail.Leads.tail (h : trail.Leads root) : Trail.Leads root trail.tail := by
  cases trail with
  | nil => trivial
  | cons => exact h.2

/-- The first directory of a trail stands at its location. -/
theorem Trail.Leads.at? (h : trail.Leads root) :
    root.at? trail.location = some (root.atTrail trail) := by
  induction trail with
  | nil => exact at?_nil root
  | cons entry trail ih =>
    rw [Trail.location_cons, at?_concat (ih h.2)]
    exact h.1

/-- A name that is there leads on. -/
theorem Trail.Leads.into (h : trail.Leads root)
    (hchild : root.child? trail name = .ok (some node)) :
    Trail.Leads root ((name, node) :: trail) :=
  ⟨(child?_eq_ok_iff.1 hchild).2, h⟩

theorem Trail.Leads.linkStart (h : trail.Leads root) (target : Path) :
    Trail.Leads root (linkStart trail target) := by
  unfold FileNode.linkStart
  split
  · trivial
  · exact h

theorem leads_trailFrom (trail : Trail) (h : trail.Leads root) (location : Location) :
    (trailFrom trail (root.atTrail trail) location).Leads root := by
  induction location generalizing trail with
  | nil => exact h
  | cons name location ih =>
    unfold trailFrom
    cases hchild : named? name (root.atTrail trail).entries with
    | none => exact h
    | some child => exact ih ((name, child) :: trail) ⟨hchild, h⟩

/-- The trail to a directory that is there reaches it. -/
theorem location_trailFrom (trail : Trail) (h : (root.atTrail trail).at? location = some node) :
    (trailFrom trail (root.atTrail trail) location).location = trail.location ++ location := by
  induction location generalizing trail with
  | nil => simp [trailFrom]
  | cons name location ih =>
    rw [at?_cons] at h
    obtain ⟨child, hchild, hrest⟩ := Option.bind_eq_some_iff.1 h
    unfold trailFrom
    rw [hchild]
    exact (ih ((name, child) :: trail) hrest).trans (by simp)

/-- What holds of the empty trail, and stays true on the way back and into directories, holds of the
trail to which names lead. -/
theorem of_enter (holds : Trail → Prop) (hroot : holds [])
    (htail : ∀ trail, holds trail → holds trail.tail)
    (hinto : ∀ trail name entries, holds trail →
      root.child? trail name = .ok (some (.directory entries)) →
      holds ((name, .directory entries) :: trail))
    (h : holds trail) (henter : root.enter links trail names = .ok (found, left)) :
    holds found := by
  fun_induction enter root links trail names with
  | case1 =>
    cases henter
    exact h
  | case2 _ _ _ ih => exact ih h henter
  | case3 _ _ _ _ ih => exact ih (htail _ h) henter
  | case4 => cases henter
  | case5 => cases henter
  | case6 _ _ _ _ _ _ _ hchild ih => exact ih (hinto _ _ _ h hchild) henter
  | case7 => cases henter
  | case8 => cases henter
  | case9 _ _ _ _ _ _ _ _ target ih =>
    refine ih ?_ henter
    unfold FileNode.linkStart
    split
    · exact hroot
    · exact h

theorem leads_enter (h : trail.Leads root)
    (henter : root.enter links trail names = .ok (found, left)) : found.Leads root :=
  of_enter (Trail.Leads root) trivial (fun _ h => h.tail) (fun _ _ _ h hchild => h.into hchild)
    h henter

/-- A node with an entry is a directory. -/
theorem kind_of_named? (h : named? name root.entries = some node) : root.kind = .directory := by
  cases root with
  | directory => rfl
  | file => cases h
  | link => cases h

theorem Trail.Leads.kind_tail (h : trail.Leads root)
    (hkind : (root.atTrail trail).kind = .directory) :
    (root.atTrail trail.tail).kind = .directory := by
  cases trail with
  | nil => exact hkind
  | cons => exact kind_of_named? h.1

theorem Trail.Leads.kind_root (h : trail.Leads root)
    (hkind : (root.atTrail trail).kind = .directory) : root.kind = .directory := by
  induction trail with
  | nil => exact hkind
  | cons entry trail ih => exact ih h.2 (kind_of_named? h.1)

theorem Trail.Leads.kind_linkStart (h : trail.Leads root)
    (hkind : (root.atTrail trail).kind = .directory) (target : Path) :
    (root.atTrail (FileNode.linkStart trail target)).kind = .directory := by
  unfold FileNode.linkStart
  split
  · exact h.kind_root hkind
  · exact hkind

/-- Names lead from a directory to a directory. -/
theorem kind_enter (h : trail.Leads root) (hkind : (root.atTrail trail).kind = .directory)
    (henter : root.enter links trail names = .ok (found, left)) :
    (root.atTrail found).kind = .directory := by
  -- Going back needs the directory above, which only a trail that leads somewhere has.
  let holds (trail : Trail) := trail.Leads root ∧ (root.atTrail trail).kind = .directory
  have hboth : holds found := by
    refine of_enter holds ⟨trivial, h.kind_root hkind⟩ ?_ ?_ ⟨h, hkind⟩ henter
    · rintro trail ⟨hleads, hkind⟩
      exact ⟨hleads.tail, hleads.kind_tail hkind⟩
    · rintro trail name entries ⟨hleads, -⟩ hchild
      exact ⟨hleads.into hchild, rfl⟩
  exact hboth.2

/-! ## Beside each other -/

/-- Trails through two trees that lead to one location. -/
structure Beside (root other : FileNode) (trail twin : Trail) : Prop where
  leads : trail.Leads root
  leads_twin : twin.Leads other
  location_eq : twin.location = trail.location

theorem Beside.tail (h : Beside root other trail twin) :
    Beside root other trail.tail twin.tail where
  leads := h.leads.tail
  leads_twin := h.leads_twin.tail
  location_eq := by rw [Trail.location_tail, Trail.location_tail, h.location_eq]

theorem Beside.linkStart (h : Beside root other trail twin) (target : Path) :
    Beside root other (linkStart trail target) (linkStart twin target) := by
  unfold FileNode.linkStart
  split
  · exact ⟨trivial, trivial, rfl⟩
  · exact h

/-- What a name stands for in one tree is what it stands for in a tree that holds the first. -/
theorem child?_within (hwithin : root.Within other) (h : Beside root other trail twin)
    (hchild : root.child? trail name = .ok (some node)) :
    ∃ twinNode, other.child? twin name = .ok (some twinNode) ∧ twinNode.kind = node.kind ∧
      Beside root other ((name, node) :: trail) ((name, twinNode) :: twin) := by
  have hleads := h.leads.into hchild
  have hkind := hwithin _ _ (kind?_eq_some_iff.2 ⟨node, hleads.at?, rfl⟩)
  rw [Trail.location_cons, ← h.location_eq] at hkind
  obtain ⟨twinNode, hat, hkind⟩ := kind?_eq_some_iff.1 hkind
  rw [at?_concat h.leads_twin.at?] at hat
  have htwin : other.child? twin name = .ok (some twinNode) :=
    child?_eq_ok_iff.2 ⟨(child?_eq_ok_iff.1 hchild).1, hat⟩
  exact ⟨twinNode, htwin, hkind, hleads, h.leads_twin.into htwin, by simp [h.location_eq]⟩

theorem enter_within (hwithin : root.Within other) (h : Beside root other trail twin)
    (henter : root.enter links trail names = .ok (found, left)) :
    ∃ foundTwin, other.enter links twin names = .ok (foundTwin, left) ∧
      Beside root other found foundTwin := by
  fun_induction enter root links trail names generalizing twin with
  | case1 links trail =>
    cases henter
    exact ⟨twin, by simp [enter], h⟩
  | case2 links trail names ih =>
    obtain ⟨foundTwin, hfound, hbeside⟩ := ih h henter
    exact ⟨foundTwin, by simpa [enter] using hfound, hbeside⟩
  | case3 links trail names hdot ih =>
    obtain ⟨foundTwin, hfound, hbeside⟩ := ih h.tail henter
    exact ⟨foundTwin, by simpa [enter] using hfound, hbeside⟩
  | case4 => cases henter
  | case5 => cases henter
  | case6 links trail name names hdot hdots entries hchild ih =>
    obtain ⟨twinNode, htwin, hkind, hinto⟩ := child?_within hwithin h hchild
    obtain ⟨entries, rfl⟩ := exists_entries_of_kind hkind
    obtain ⟨foundTwin, hfound, hbeside⟩ := ih hinto henter
    exact ⟨foundTwin, by rw [enter, if_neg hdot, if_neg hdots, htwin]; exact hfound, hbeside⟩
  | case7 => cases henter
  | case8 => cases henter
  | case9 trail name names hdot hdots target hchild links linked =>
    rename_i ih
    obtain ⟨twinNode, htwin, hkind, hinto⟩ := child?_within hwithin h hchild
    obtain rfl := eq_link_of_kind hkind
    obtain ⟨foundTwin, hfound, hbeside⟩ := ih (h.linkStart _) henter
    exact ⟨foundTwin, by rw [enter, if_neg hdot, if_neg hdots, htwin]; exact hfound, hbeside⟩

/-! ## To the end of a path -/

/-- The last step of following a path, once the names before its last one have been followed. -/
theorem locate_of_enter {follow : Bool} (hlast : path.names.getLast? = some name) :
    root.enter links trail path.names.dropLast = .ok (found, left) →
    root.locate follow links trail path =
      if name = "." then .ok (root.placeOf found)
      else if name = ".." then .ok (root.placeOf found.tail)
      else
        match root.child? found name with
        | .error fault => .error fault
        | .ok none => .error .noSuchFile
        | .ok (some (.directory entries)) =>
          .ok (root.placeOf ((name, .directory entries) :: found))
        | .ok (some (.file content)) =>
          if path.slashed then .error .notADirectory
          else .ok (root.placeOf ((name, .file content) :: found))
        | .ok (some (.link target)) =>
          if !follow && !path.slashed then .ok (root.placeOf ((name, .link target) :: found))
          else
            match left with
            | 0 => .error .tooManyLinks
            | left + 1 =>
              let target := Path.ofText target
              root.locate true left (linkStart found target)
                { target with slashed := target.slashed || path.slashed } := by
  intro henter
  rw [locate, hlast]
  dsimp only
  split
  · next fault h =>
    rw [henter] at h
    cases h
  · next trail left h =>
    rw [henter] at h
    cases h
    cases left <;> rfl

/-- A path leads to one location in both trees. -/
theorem locate_within {follow : Bool} {place : Place} (hwithin : root.Within other)
    (h : Beside root other trail twin) (hlocate : root.locate follow links trail path = .ok place) :
    ∃ reached reachedTwin, place = root.placeOf reached ∧
      other.locate follow links twin path = .ok (other.placeOf reachedTwin) ∧
      Beside root other reached reachedTwin := by
  -- Both runs take the same turns, since these depend on kinds and on the targets of links only.
  fun_induction locate root follow links trail path generalizing twin with
  | case1 follow links trail path hlast =>
    exact ⟨trail, twin, (Except.ok.inj hlocate).symm, by rw [locate, hlast], h⟩
  | case2 => cases hlocate
  | case3 follow links trail path found left henter hlast =>
    obtain ⟨foundTwin, hfound, hbeside⟩ := enter_within hwithin h henter
    refine ⟨_, _, (Except.ok.inj hlocate).symm, ?_, hbeside⟩
    rw [locate_of_enter hlast hfound, if_pos rfl]
  | case4 follow links trail path found left henter hlast hdot =>
    obtain ⟨foundTwin, hfound, hbeside⟩ := enter_within hwithin h henter
    refine ⟨_, _, (Except.ok.inj hlocate).symm, ?_, hbeside.tail⟩
    rw [locate_of_enter hlast hfound, if_neg hdot, if_pos rfl]
  | case5 => cases hlocate
  | case6 => cases hlocate
  | case7 follow links trail path name hlast found left henter hdot hdots entries hchild =>
    obtain ⟨foundTwin, hfound, hbeside⟩ := enter_within hwithin h henter
    obtain ⟨twinNode, htwin, hkind, hinto⟩ := child?_within hwithin hbeside hchild
    obtain ⟨entries, rfl⟩ := exists_entries_of_kind hkind
    refine ⟨_, _, (Except.ok.inj hlocate).symm, ?_, hinto⟩
    rw [locate_of_enter hlast hfound, if_neg hdot, if_neg hdots, htwin]
  | case8 => cases hlocate
  | case9 follow links trail path name hlast found left henter hdot hdots content hchild hslash =>
    obtain ⟨foundTwin, hfound, hbeside⟩ := enter_within hwithin h henter
    obtain ⟨twinNode, htwin, hkind, hinto⟩ := child?_within hwithin hbeside hchild
    obtain ⟨content, rfl⟩ := exists_content_of_kind hkind
    refine ⟨_, _, (Except.ok.inj hlocate).symm, ?_, hinto⟩
    rw [locate_of_enter hlast hfound, if_neg hdot, if_neg hdots, htwin]
    exact if_neg hslash
  | case10 follow links trail path name hlast found left henter hdot hdots target hchild hstay =>
    obtain ⟨foundTwin, hfound, hbeside⟩ := enter_within hwithin h henter
    obtain ⟨twinNode, htwin, hkind, hinto⟩ := child?_within hwithin hbeside hchild
    obtain rfl := eq_link_of_kind hkind
    refine ⟨_, _, (Except.ok.inj hlocate).symm, ?_, hinto⟩
    rw [locate_of_enter hlast hfound, if_neg hdot, if_neg hdots, htwin]
    exact if_pos hstay
  | case11 => cases hlocate
  | case12 follow links trail path name hlast found hdot hdots target hchild hgo left henter =>
    rename_i ih
    obtain ⟨foundTwin, hfound, hbeside⟩ := enter_within hwithin h henter
    obtain ⟨twinNode, htwin, hkind, hinto⟩ := child?_within hwithin hbeside hchild
    obtain rfl := eq_link_of_kind hkind
    obtain ⟨reached, reachedTwin, hplace, hreached, hbeside⟩ := ih (hbeside.linkStart _) hlocate
    refine ⟨reached, reachedTwin, hplace, ?_, hbeside⟩
    rw [locate_of_enter hlast hfound, if_neg hdot, if_neg hdots, htwin]
    exact (if_neg hgo).trans hreached

/-! ## From tree to tree -/

namespace FileTree

/-- The working directory is a directory of the tree. -/
def StandsInDirectory (tree : FileTree) : Prop :=
  tree.root.kind? tree.workingDirectory = some .directory

variable {tree later : FileTree} {text : String} {follow : Bool} {place : Place}

theorem leads_start (tree : FileTree) (path : Path) : (tree.start path).Leads tree.root := by
  unfold start
  split
  · trivial
  · exact leads_trailFrom [] trivial _

theorem StandsInDirectory.location_start (h : tree.StandsInDirectory) (path : Path) :
    (tree.start path).location = if path.absolute then [] else tree.workingDirectory := by
  obtain ⟨node, hnode, -⟩ := kind?_eq_some_iff.1 h
  unfold start
  split
  · rfl
  · exact (location_trailFrom [] hnode).trans (List.nil_append _)

theorem StandsInDirectory.kind_start (h : tree.StandsInDirectory) (path : Path) :
    (tree.root.atTrail (tree.start path)).kind = .directory := by
  have hleads : (tree.root.trailFrom [] tree.workingDirectory).Leads tree.root :=
    leads_trailFrom [] trivial _
  have hkind : (tree.root.atTrail (tree.root.trailFrom [] tree.workingDirectory)).kind =
      .directory := by
    obtain ⟨node, hnode, hkind⟩ := kind?_eq_some_iff.1 h
    have hlocation : (tree.root.trailFrom [] tree.workingDirectory).location =
        tree.workingDirectory := location_trailFrom [] hnode
    have hat := hleads.at?
    rw [hlocation, hnode] at hat
    exact Option.some.inj hat ▸ hkind
  unfold start
  split
  · exact hleads.kind_root hkind
  · exact hkind

theorem StandsInDirectory.mono (h : tree.StandsInDirectory)
    (hcwd : later.workingDirectory = tree.workingDirectory)
    (hwithin : tree.root.Within later.root) : later.StandsInDirectory := by
  unfold StandsInDirectory
  rw [hcwd]
  exact hwithin _ _ h

theorem StandsInDirectory.beside (h : tree.StandsInDirectory)
    (hwithin : tree.root.Within later.root)
    (hcwd : later.workingDirectory = tree.workingDirectory) (path : Path) :
    Beside tree.root later.root (tree.start path) (later.start path) where
  leads := leads_start tree path
  leads_twin := leads_start later path
  location_eq := by
    rw [(h.mono hcwd hwithin).location_start, h.location_start, hcwd]

/-- A path leads to the same location in a tree that holds all that was there. -/
theorem resolve_within (h : tree.StandsInDirectory)
    (hcwd : later.workingDirectory = tree.workingDirectory)
    (hwithin : tree.root.Within later.root) (hplace : tree.resolve follow text = .ok place) :
    ∃ found, later.resolve follow text = .ok found ∧ found.location = place.location := by
  unfold resolve at hplace ⊢
  cases hpath : Path.accepted text with
  | error => simp [hpath] at hplace
  | ok path =>
    rw [hpath] at hplace
    obtain ⟨reached, reachedTwin, rfl, hreached, hbeside⟩ :=
      locate_within hwithin (h.beside hwithin hcwd path) hplace
    exact ⟨_, hreached, hbeside.location_eq⟩

/-- What a path leads to stands at its location. -/
theorem at?_of_resolve (h : tree.resolve follow text = .ok place) :
    tree.root.at? place.location = some place.node := by
  unfold resolve at h
  cases hpath : Path.accepted text with
  | error => simp [hpath] at h
  | ok path =>
    rw [hpath] at h
    have hleads := leads_start tree path
    obtain ⟨reached, _, rfl, -, hbeside⟩ :=
      locate_within (within_refl tree.root) ⟨hleads, hleads, rfl⟩ h
    exact hbeside.leads.at?

end FileTree

end SchemaMerge
