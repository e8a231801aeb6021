import SchemaMerge.FileTree.Write

/-!
# What stands at a location

`FileNode.kind?` tells files, directories and links apart, and `FileNode.content?` is the content
of the file at a location. Neither sees the entries of a directory, so what is put at a location
changes them there and below and nowhere else (`bind_at?_put`). If nothing was there, or a file,
nothing is lost: what stood in the tree is still there (`within_put`).
-/

namespace SchemaMerge.FileNode

/-! ## Observations -/

/-- What a node is, without what it holds. -/
inductive Kind
  | file | directory
  | link (target : String)
deriving DecidableEq

/-- What the node is. -/
def kind : FileNode → Kind
  | .file _ => .file
  | .directory _ => .directory
  | .link target => .link target

/-- The content of a file. -/
def content : FileNode → Option ByteArray
  | .file content => some content
  | _ => none

/-- What stands at a location. -/
def kind? (node : FileNode) (location : Location) : Option Kind := (node.at? location).map kind

/-- The content of the file at a location. -/
def content? (node : FileNode) (location : Location) : Option ByteArray :=
  (node.at? location).bind content

variable {node root new : FileNode} {name : String} {location other : Location}

/-! ## Steps -/

@[simp] theorem at?_nil (node : FileNode) : node.at? [] = some node := by cases node <;> rfl

theorem at?_cons (node : FileNode) (name : String) (location : Location) :
    node.at? (name :: location) =
      (named? name node.entries).bind fun child => child.at? location := by
  cases node with
  | directory all =>
    cases hchild : named? name all with
    | none => simp only [at?, FileNode.entries, hchild, Option.bind_none]
    | some child => simp only [at?, FileNode.entries, hchild, Option.bind_some]
  | file => rfl
  | link => rfl

theorem at?_append (node : FileNode) (location behind : Location) :
    node.at? (location ++ behind) = (node.at? location).bind fun found => found.at? behind := by
  induction location generalizing node with
  | nil => simp
  | cons name location ih =>
    rw [List.cons_append, at?_cons, at?_cons]
    cases named? name node.entries with
    | none => rfl
    | some child => exact ih child

theorem at?_concat {found : FileNode} (h : node.at? location = some found) (name : String) :
    node.at? (location ++ [name]) = named? name found.entries := by
  rw [at?_append, h, Option.bind_some, at?_cons]
  cases named? name found.entries <;> simp

theorem exists_entries_of_kind (h : node.kind = .directory) :
    ∃ entries, node = .directory entries := by
  cases node with
  | directory entries => exact ⟨entries, rfl⟩
  | file => cases h
  | link => cases h

theorem exists_content_of_kind (h : node.kind = .file) : ∃ content, node = .file content := by
  cases node with
  | file content => exact ⟨content, rfl⟩
  | directory => cases h
  | link => cases h

theorem eq_link_of_kind {target : String} (h : node.kind = .link target) : node = .link target := by
  cases node with
  | link => exact congrArg FileNode.link (Kind.link.inj h)
  | file => cases h
  | directory => cases h

theorem kind?_eq_some_iff {kind : Kind} :
    node.kind? location = some kind ↔ ∃ found, node.at? location = some found ∧ found.kind = kind :=
  Option.map_eq_some_iff

/-! ## Putting something somewhere -/

theorem put_entry {child : FileNode} {entries : List (String × FileNode)} {second : String}
    (h : named? name entries = some child) (new : FileNode) (location : Location) :
    new.put (name :: second :: location) (.directory entries) =
      .directory (putEntry name (new.put (second :: location) child) entries) := by
  simp only [put, h]

/-- What is put in a directory that is there is found there. -/
theorem at?_put_self {entries : List (String × FileNode)}
    (h : root.at? location = some (.directory entries)) (name : String) (new : FileNode) :
    (new.put (location ++ [name]) root).at? (location ++ [name]) = some new := by
  induction location generalizing root with
  | nil =>
    obtain rfl : root = .directory entries := by simpa using h
    simp [put, at?_cons, FileNode.entries, named?_putEntry_self]
  | cons first location ih =>
    rw [at?_cons] at h
    obtain ⟨child, hchild, hrest⟩ := Option.bind_eq_some_iff.1 h
    cases root with
    | directory all =>
      rw [FileNode.entries] at hchild
      obtain ⟨second, rest, hsplit⟩ : ∃ second rest, location ++ [name] = second :: rest := by
        cases location <;> simp
      have hstored := ih hrest
      rw [List.cons_append]
      rw [hsplit] at hstored ⊢
      rw [put_entry hchild, at?_cons, FileNode.entries, named?_putEntry_self]
      exact hstored
    | file => cases hchild
    | link => cases hchild

/-- What is seen of a tree stays as it is, if of directories the same is seen whatever they hold,
and if the same is seen of what is put somewhere as of what was there. -/
theorem bind_at?_put {β : Type} {observe : FileNode → Option β}
    (hobserve : ∀ entries others, observe (.directory entries) = observe (.directory others))
    (hsame : ∀ behind, other = location ++ behind →
      (new.at? behind).bind observe = (root.at? other).bind observe) :
    ((new.put location root).at? other).bind observe = (root.at? other).bind observe := by
  induction location generalizing root other with
  | nil => exact hsame other rfl
  | cons name location ih =>
    cases root with
    | file => rfl
    | link => rfl
    | directory entries =>
      -- An entry is replaced by one that is seen as the old one was.
      have hentry {child : FileNode}
          (hchild : ∀ rest, other = name :: rest → (child.at? rest).bind observe =
            ((FileNode.directory entries).at? other).bind observe) :
          ((FileNode.directory (putEntry name child entries)).at? other).bind observe =
            ((FileNode.directory entries).at? other).bind observe := by
        cases other with
        | nil => simpa using hobserve _ _
        | cons first rest =>
          by_cases hfirst : first = name
          · subst hfirst
            rw [← hchild rest rfl, at?_cons, FileNode.entries, named?_putEntry_self,
              Option.bind_some]
          · rw [at?_cons, at?_cons, FileNode.entries, FileNode.entries,
              named?_putEntry_of_ne hfirst]
      cases location with
      | nil =>
        simp only [put]
        exact hentry fun rest hrest => hsame rest hrest
      | cons second location =>
        cases hchild : named? name entries with
        | none => simp only [put, hchild]
        | some child =>
          rw [put_entry hchild]
          refine hentry fun rest hrest => ?_
          subst hrest
          have hbelow : (FileNode.directory entries).at? (name :: rest) = child.at? rest := by
            rw [at?_cons, FileNode.entries, hchild, Option.bind_some]
          rw [hbelow]
          refine ih fun behind hbehind => ?_
          rw [← hbelow]
          exact hsame behind (congrArg (List.cons name) hbehind)

/-! ## Trees that hold what others hold -/

/-- What stands in the first tree stands in the second; files may have other contents. -/
def Within (root other : FileNode) : Prop :=
  ∀ location kind, root.kind? location = some kind → other.kind? location = some kind

theorem within_refl (root : FileNode) : root.Within root := fun _ _ h => h

theorem Within.trans {other third : FileNode} (h : root.Within other) (h' : other.Within third) :
    root.Within third := fun location kind hkind => h' location kind (h location kind hkind)

/-- A file, or a directory that is empty, has nothing below it. -/
theorem at?_eq_none_of_entries (h : node.entries = []) {behind : Location} (hne : behind ≠ []) :
    node.at? behind = none := by
  cases behind with
  | nil => exact absurd rfl hne
  | cons name location => rw [at?_cons, h]; rfl

/-- A location that is free to be filled: nothing stands there, or a file. -/
def Free (root : FileNode) (location : Location) : Prop :=
  ∀ found, root.at? location = some found → found.kind = .file

theorem Free.at?_eq_none (h : root.Free location) {behind : Location} (hne : behind ≠ []) :
    root.at? (location ++ behind) = none := by
  rw [at?_append]
  cases hfound : root.at? location with
  | none => rfl
  | some found =>
    obtain ⟨content, rfl⟩ := exists_content_of_kind (h found hfound)
    exact at?_eq_none_of_entries rfl hne

/-- Something without entries that is put in a free place is seen at no other location. -/
theorem bind_at?_put_of_ne {β : Type} {observe : FileNode → Option β}
    (hobserve : ∀ entries others, observe (.directory entries) = observe (.directory others))
    (hfree : root.Free location) (hnew : new.entries = []) (hne : other ≠ location) :
    ((new.put location root).at? other).bind observe = (root.at? other).bind observe := by
  refine bind_at?_put hobserve fun behind hbehind => ?_
  have hbelow : behind ≠ [] := by
    rintro rfl
    exact hne (by simpa using hbehind)
  rw [hbehind, hfree.at?_eq_none hbelow, at?_eq_none_of_entries hnew hbelow]

theorem content?_put_of_ne (hfree : root.Free location) (hnew : new.entries = [])
    (hne : other ≠ location) : (new.put location root).content? other = root.content? other :=
  bind_at?_put_of_ne (fun _ _ => rfl) hfree hnew hne

theorem kind?_put_of_ne (hfree : root.Free location) (hnew : new.entries = [])
    (hne : other ≠ location) : (new.put location root).kind? other = root.kind? other := by
  unfold kind?
  rw [Option.map_eq_bind, Option.map_eq_bind]
  exact bind_at?_put_of_ne (fun _ _ => rfl) hfree hnew hne

/-- An empty directory where nothing was is no change to the files. -/
theorem content?_put_directory (hnone : root.at? location = none) (other : Location) :
    (FileNode.put (.directory []) location root).content? other = root.content? other := by
  refine bind_at?_put (fun _ _ => rfl) fun behind hbehind => ?_
  rw [hbehind, at?_append, hnone]
  cases behind <;> rfl

/-- What is put in a free place hides nothing, unless it is something else than what was there. -/
theorem within_put (hfree : root.Free location) (hnew : new.entries = [])
    (hkeeps : ∀ kind, root.kind? location = some kind →
      (new.put location root).kind? location = some kind) :
    root.Within (new.put location root) := by
  intro other kind hkind
  by_cases hother : other = location
  · subst hother
    exact hkeeps kind hkind
  · rw [kind?_put_of_ne hfree hnew hother]
    exact hkind

end SchemaMerge.FileNode
