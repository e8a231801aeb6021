import SchemaMerge.Proofs.FileTree.Following
import SchemaMerge.Proofs.Host.Lawful

/-!
# What writing leaves as it was

A file is written, and a directory made, in the directory of a trail: where nothing stands, or over
a file (`exists_opening_of_fileLocation`, `exists_opening_of_freeLocation`). Making directories adds
directories and nothing else, also if it stops half-way (`grown_createDirectories`). A file that was
written is what its path leads to from then on (`locate_of_fileLocation`), and no other file is
changed (`writeFile_spec`). So a tree is a lawful host (`lawful_host`).
-/

namespace SchemaMerge

open FileNode

variable {root other : FileNode} {trail twin above : Trail} {name : String} {links : Nat}
  {path : Path} {location : Location} {content : ByteArray}

/-! ## Where things are put -/

/-- A place for something new, found on a way from a trail: a name in the first directory of another
trail, which stands for nothing or for a file. -/
structure Opening (root : FileNode) (trail above : Trail) (name : String) : Prop where
  leads : above.Leads root
  kind_eq : (root.atTrail trail).kind = .directory → (root.atTrail above).kind = .directory
  free : ∀ found, named? name (root.atTrail above).entries = some found → found.kind = .file

theorem Opening.at?_eq (h : Opening root trail above name) :
    root.at? (above.location ++ [name]) = named? name (root.atTrail above).entries :=
  at?_concat h.leads.at? name

theorem Opening.isFree (h : Opening root trail above name) :
    root.Free (above.location ++ [name]) := by
  intro found hfound
  rw [h.at?_eq] at hfound
  exact h.free found hfound

/-- What is put in an opening is found there. -/
theorem Opening.at?_put (h : Opening root trail above name)
    (hkind : (root.atTrail trail).kind = .directory) (new : FileNode) :
    (new.put (above.location ++ [name]) root).at? (above.location ++ [name]) = some new := by
  obtain ⟨entries, hentries⟩ := exists_entries_of_kind (h.kind_eq hkind)
  exact at?_put_self (hentries ▸ h.leads.at?) name new

/-- A place where something new may be put is an opening with nothing in it. -/
theorem exists_opening_of_freeLocation (h : trail.Leads root)
    (hloc : root.freeLocation trail path = .ok location) :
    ∃ above name, Opening root trail above name ∧ location = above.location ++ [name] ∧
      root.at? location = none := by
  unfold freeLocation at hloc
  split at hloc
  · cases hloc
  next name _ =>
  split at hloc
  · cases hloc
  next above _ henter =>
  split at hloc
  · cases hloc
  split at hloc
  · cases hloc
  · cases hloc
  next hchild =>
  cases hloc
  have hnone := (child?_eq_ok_iff.1 hchild).2
  have hopening : Opening root trail above name :=
    ⟨leads_enter h henter, fun hkind => kind_enter h hkind henter, by simp [hnone]⟩
  exact ⟨above, name, hopening, rfl, by rw [hopening.at?_eq, hnone]⟩

/-- A place where a file may be written is an opening, behind all links. -/
theorem exists_opening_of_fileLocation (h : trail.Leads root)
    (hloc : root.fileLocation links trail path = .ok location) :
    ∃ above name, Opening root trail above name ∧ location = above.location ++ [name] := by
  fun_induction fileLocation root links trail path with
  | case7 links trail path name _ above _ target _ left henter =>
    rename_i ih
    have hleads := leads_enter h henter
    obtain ⟨last, name, hopening, hlocation⟩ := ih (hleads.linkStart _) hloc
    refine ⟨last, name, ⟨hopening.leads, fun hkind => ?_, hopening.free⟩, hlocation⟩
    exact hopening.kind_eq (hleads.kind_linkStart (kind_enter h hkind henter) _)
  | case8 links trail path name _ above left henter _ found hdirectory hlink hchild =>
    refine ⟨above, name, ⟨leads_enter h henter, fun hkind => kind_enter h hkind henter, ?_⟩,
      (Except.ok.inj hloc).symm⟩
    intro node hnode
    rw [(child?_eq_ok_iff.1 hchild).2] at hnode
    cases node with
    | file => rfl
    | directory entries => exact (hdirectory entries hnode).elim
    | link target => exact (hlink target hnode).elim
  | _ => cases hloc

/-- A file in the place where one is to be written is where the path leads. -/
theorem locate_of_fileLocation (hwithin : root.Within other) (h : Beside root other trail twin)
    (hloc : root.fileLocation links trail path = .ok location)
    (hfile : other.at? location = some (.file content)) :
    other.locate true links twin path = .ok ⟨location, .file content⟩ := by
  fun_induction fileLocation root links trail path generalizing twin with
  | case7 links trail path name hlast above hplain target hchild left henter =>
    rename_i ih
    simp only [Bool.or_eq_true, decide_eq_true_eq, not_or, Bool.not_eq_true] at hplain
    obtain ⟨⟨hslash, hdot⟩, hdots⟩ := hplain
    obtain ⟨aboveTwin, habove, hbeside⟩ := enter_within hwithin h henter
    obtain ⟨twinNode, htwin, hkind, -⟩ := child?_within hwithin hbeside hchild
    obtain rfl := eq_link_of_kind hkind
    rw [locate_of_enter hlast habove, if_neg hdot, if_neg hdots, htwin]
    simp only [hslash, Bool.not_true, Bool.false_and, Bool.false_eq_true, if_false, Bool.or_false]
    exact ih (hbeside.linkStart _) hloc
  | case8 links trail path name hlast above left henter hplain found hdirectory hlink hchild =>
    simp only [Bool.or_eq_true, decide_eq_true_eq, not_or, Bool.not_eq_true] at hplain
    obtain ⟨⟨hslash, hdot⟩, hdots⟩ := hplain
    obtain ⟨aboveTwin, habove, hbeside⟩ := enter_within hwithin h henter
    obtain rfl := Except.ok.inj hloc
    have htwin : other.child? aboveTwin name = .ok (some (.file content)) := by
      rw [← hbeside.location_eq, at?_concat hbeside.leads_twin.at?] at hfile
      exact child?_eq_ok_iff.2 ⟨(child?_eq_ok_iff.1 hchild).1, hfile⟩
    rw [locate_of_enter hlast habove, if_neg hdot, if_neg hdots, htwin]
    simp [hslash, placeOf, atTrail, hbeside.location_eq]
  | _ => cases hloc

/-! ## Making directories -/

namespace FileTree

variable {tree after later : FileTree} {text : String}

/-- Nothing that stood in the earlier tree is missing in the later one, and all files are as they
were. -/
structure Grown (tree later : FileTree) : Prop where
  workingDirectory_eq : later.workingDirectory = tree.workingDirectory
  within : tree.root.Within later.root
  content?_eq : ∀ location, later.root.content? location = tree.root.content? location

theorem Grown.refl (tree : FileTree) : Grown tree tree := ⟨rfl, within_refl _, fun _ => rfl⟩

theorem Grown.trans (h : Grown tree after) (h' : Grown after later) : Grown tree later where
  workingDirectory_eq := h'.workingDirectory_eq.trans h.workingDirectory_eq
  within := h.within.trans h'.within
  content?_eq location := (h'.content?_eq location).trans (h.content?_eq location)

/-- The tree that an attempt leaves. -/
def leftBy : Except Stop FileTree → FileTree
  | .ok tree => tree
  | .error stop => stop.tree

@[simp] theorem leftBy_ok (tree : FileTree) : leftBy (.ok tree) = tree := rfl

@[simp] theorem leftBy_error (stop : Stop) : leftBy (.error stop) = stop.tree := rfl

/-- A directory is made where nothing was. -/
theorem grown_create (tree : FileTree) (text : String) :
    Grown tree (leftBy (tree.create text (.directory []))) := by
  unfold create
  split
  · exact Grown.refl tree
  next path _ =>
  split
  · exact Grown.refl tree
  next location hloc =>
  obtain ⟨above, name, hopening, rfl, hnone⟩ :=
    exists_opening_of_freeLocation (leads_start tree path) hloc
  refine ⟨rfl, within_put hopening.isFree rfl fun kind hkind => ?_, content?_put_directory hnone⟩
  simp [kind?, hnone] at hkind

theorem grown_ensureDirectory (tree : FileTree) (text : String) :
    Grown tree (leftBy (tree.ensureDirectory text)) := by
  have hcreate := grown_create tree text
  unfold ensureDirectory
  cases hmade : tree.create text (.directory []) with
  | ok made => simpa [hmade] using hcreate
  | error stop =>
    rw [hmade] at hcreate
    by_cases hthere : tree.isDirectory text
    · simpa [hthere] using Grown.refl tree
    · simpa [hthere] using hcreate

theorem grown_ensureDirectories (tree : FileTree) (texts : List String) :
    Grown tree (leftBy (tree.ensureDirectories texts)) := by
  induction texts with
  | nil => exact Grown.refl tree
  | cons text above ih =>
    have hcreate := grown_create tree text
    unfold ensureDirectories
    split
    · next made hmade => simpa [hmade] using hcreate
    · cases habove : tree.ensureDirectories above with
      | ok made =>
        rw [habove] at ih
        exact ih.trans (grown_ensureDirectory made text)
      | error stop => simpa [habove] using ih
    · next stop hmade =>
      rw [hmade] at hcreate
      by_cases hthere : tree.isDirectory text
      · simpa [hthere] using Grown.refl tree
      · simpa [hthere] using hcreate

/-- Making directories adds directories, however far it gets. -/
theorem grown_createDirectories (tree : FileTree) (text : String) :
    Grown tree (leftBy (tree.createDirectories text)) := grown_ensureDirectories tree _

/-! ## Writing a file -/

/-- A file that was written is put somewhere where nothing stood or a file, and its path leads
there. -/
theorem writeFile_spec (h : tree.writeFile text content = .ok after) :
    ∃ location, (∀ other, other ≠ location →
        after.root.content? other = tree.root.content? other) ∧
      (tree.StandsInDirectory → after.workingDirectory = tree.workingDirectory ∧
        tree.root.Within after.root ∧
        after.resolve true text = .ok ⟨location, .file content⟩) := by
  unfold writeFile at h
  cases hpath : Path.accepted text with
  | error => simp [hpath] at h
  | ok path =>
    rw [hpath] at h
    dsimp only at h
    split at h
    · cases h
    next location hloc =>
    cases h
    obtain ⟨above, name, hopening, rfl⟩ :=
      exists_opening_of_fileLocation (leads_start tree path) hloc
    refine ⟨_, fun other hother => content?_put_of_ne hopening.isFree rfl hother, fun hcwd => ?_⟩
    have hfile := hopening.at?_put (hcwd.kind_start path) (.file content)
    have hwithin : tree.root.Within
        (tree.put (above.location ++ [name]) (.file content)).root := by
      refine within_put hopening.isFree rfl fun kind hkind => ?_
      obtain ⟨found, hfound, rfl⟩ := kind?_eq_some_iff.1 hkind
      exact kind?_eq_some_iff.2 ⟨_, hfile, (hopening.isFree found hfound).symm⟩
    refine ⟨rfl, hwithin, ?_⟩
    unfold resolve
    rw [hpath]
    exact locate_of_fileLocation hwithin (hcwd.beside hwithin rfl path) hloc hfile

/-! ## A tree as a lawful host -/

/-- The files of a tree by their locations. -/
def view : FileView FileTree Location where
  Valid := StandsInDirectory
  content? tree := tree.root.content?
  Denotes tree text location := ∃ content, tree.resolve true text = .ok ⟨location, .file content⟩

theorem content?_of_resolve {location : Location}
    (h : tree.resolve true text = .ok ⟨location, .file content⟩) :
    tree.root.content? location = some content := by
  unfold content?
  rw [at?_of_resolve h]
  rfl

theorem eq_file_of_content? {node : FileNode} (hat : root.at? location = some node)
    (h : root.content? location = some content) : node = .file content := by
  unfold content? at h
  rw [hat, Option.bind_some] at h
  cases node with
  | file found => exact congrArg FileNode.file (Option.some.inj h)
  | directory => cases h
  | link => cases h

/-- Where nothing is lost, paths lead to the files that they have led to. -/
theorem Grown.denotes (h : Grown tree later) (hcwd : tree.StandsInDirectory)
    (hdenotes : view.Denotes tree text location) : view.Denotes later text location := by
  obtain ⟨content, hplace⟩ := hdenotes
  obtain ⟨⟨found, node⟩, hfound, hlocation⟩ :=
    resolve_within hcwd h.workingDirectory_eq h.within hplace
  obtain rfl : found = location := hlocation
  have hcontent := (h.content?_eq found).trans (content?_of_resolve hplace)
  obtain rfl : node = .file content := eq_file_of_content? (at?_of_resolve hfound) hcontent
  exact ⟨content, hfound⟩

theorem afterCreating_snd (attempt : Except Stop FileTree) :
    (afterCreating attempt).2 = leftBy attempt := by
  cases attempt <;> rfl

theorem toUTF8_of_fromUTF8? {bytes : ByteArray} (h : String.fromUTF8? bytes = some text) :
    text.toUTF8 = bytes := by
  unfold String.fromUTF8? at h
  split at h
  · cases h
    rfl
  · cases h

/-- What is read of a file is its content. -/
theorem content?_of_readText {found : String} (h : tree.readText text = .ok found) :
    ∃ location, view.Denotes tree text location ∧
      tree.root.content? location = some found.toUTF8 := by
  unfold readText at h
  split at h
  · cases h
  · next location content hplace =>
    split at h
    · next hfound =>
      cases h
      refine ⟨location, ⟨content, hplace⟩, ?_⟩
      rw [toUTF8_of_fromUTF8? hfound]
      exact content?_of_resolve hplace
    · cases h
  · cases h

/-- A path leads to the file that was written there, which is the one it has led to, if any. -/
theorem stores_of_writeFile (hcwd : tree.StandsInDirectory) {written : String}
    (h : tree.writeFile text written.toUTF8 = .ok after) :
    ∃ location, view.Stores text written location tree after := by
  obtain ⟨location, hothers, hstored⟩ := writeFile_spec h
  obtain ⟨hdirectory, hwithin, hresolve⟩ := hstored hcwd
  refine ⟨location, ⟨_, hresolve⟩, content?_of_resolve hresolve, ?_, hothers⟩
  rintro old ⟨before, hplace⟩
  obtain ⟨found, hfound, hlocation⟩ := resolve_within hcwd hdirectory hwithin hplace
  cases hresolve.symm.trans hfound
  exact hlocation.symm

/-- A tree is a lawful host while its working directory is one of its directories. -/
theorem lawful_host : host.Lawful view where
  keeps_walk _ _ := rfl
  keeps_isFile _ _ := rfl
  keeps_readText _ _ := rfl
  readText_ok {path tree text} _ h := by
    change (tree.readText path).mapError FileFault.message = .ok text at h
    cases hread : tree.readText path with
    | error fault => cases hread ▸ h
    | ok found =>
      cases hread ▸ h
      exact content?_of_readText hread
  createDirectories_frame {path tree} hcwd := by
    have hgrown : tree.Grown (host.createDirectories path tree).2 := by
      show tree.Grown (afterCreating (tree.createDirectories path)).2
      rw [afterCreating_snd]
      exact grown_createDirectories tree path
    exact ⟨hcwd.mono hgrown.workingDirectory_eq hgrown.within, hgrown.content?_eq,
      fun _ _ hdenotes => hgrown.denotes hcwd hdenotes⟩
  writeText_ends {path text tree} hcwd := by
    show view.WriteEnds path text tree (tree.afterWriting (tree.writeFile path text.toUTF8))
    cases hwritten : tree.writeFile path text.toUTF8 with
    | ok after => exact stores_of_writeFile hcwd hwritten
    | error fault => exact fun _ => rfl

end FileTree

end SchemaMerge
