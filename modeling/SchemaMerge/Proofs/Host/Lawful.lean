import SchemaMerge.Host.Discovery

/-!
# Lawful hosts

What is taken for granted of the system that commands run on (`Host.Lawful`), in terms of the files
that are seen in a state of it (`FileView`): looking at files changes nothing, making directories
changes no file, and a write either fails and leaves all files as they were or stores the whole text
in the file that its path leads to.

Actions that only look leave the state as it is, also one after the other (`mapM_of_keeps`); so what
is found under some paths is determined by their walks (`findSchemaFilesBy_of_keeps`).
-/

namespace SchemaMerge

variable {State File α β : Type}

/-! ## Actions that only look -/

/-- The action leaves every state as it is. -/
def Keeps (action : StateM State α) : Prop := ∀ state, (action state).2 = state

theorem bind_of_eq {action : StateM State α} {state after : State} {a : α}
    (h : action state = (a, after)) (next : α → StateM State β) :
    (action >>= next) state = next a after := by
  show next (action state).1 (action state).2 = _
  rw [h]

/-- Behind an action that only looks, the next one starts from the same state. -/
theorem bind_of_keeps {action : StateM State α} (h : Keeps action) (next : α → StateM State β)
    (state : State) : (action >>= next) state = next (action state).1 state := by
  have heq : action state = ((action state).1, state) := Prod.ext rfl (h state)
  exact bind_of_eq heq next

/-- Each of several actions that only look starts from the state in which the first does. -/
theorem mapM_of_keeps {action : α → StateM State β} (h : ∀ a, Keeps (action a)) (list : List α)
    (state : State) : list.mapM action state = (list.map fun a => (action a state).1, state) := by
  induction list generalizing state with
  | nil => rfl
  | cons a list ih =>
    have hrest : Keeps (list.mapM action) := fun state => by rw [ih state]
    rw [List.mapM_cons, bind_of_keeps (h a), bind_of_keeps hrest, ih state]
    rfl

theorem keeps_mapM {action : α → StateM State β} (h : ∀ a, Keeps (action a)) (list : List α) :
    Keeps (list.mapM action) := fun state => by rw [mapM_of_keeps h list state]

/-- Without effects, what is found depends on nothing but the walks. -/
theorem findSchemaFilesBy_of_keeps {walk : String → StateM State (List Visit)}
    {isFile : String → StateM State Bool} (hwalk : ∀ path, Keeps (walk path))
    (hfile : ∀ path, Keeps (isFile path)) (paths extensions : List String) (state : State) :
    findSchemaFilesBy walk isFile paths extensions state =
      (findSchemaFilesBy (fun path => pure (walk path state).1 : String → Id (List Visit))
        (fun path => pure (isFile path state).1) paths extensions, state) := by
  unfold findSchemaFilesBy
  rw [bind_of_keeps (keeps_mapM hwalk paths), mapM_of_keeps hwalk, List.mapM_pure, pure_bind]
  dsimp only
  split
  · rfl
  · split
    · rfl
    · match paths with
      | [] => rfl
      | [path] => exact bind_of_keeps (hfile path) _ state
      | _ :: _ :: _ => rfl

/-! ## Laws -/

/-- What is seen of the files in the states of a system. -/
structure FileView (State File : Type) where
  /-- Whether the system can be in a state. -/
  Valid : State → Prop
  /-- The content of a file, if it exists. -/
  content? : State → File → Option ByteArray
  /-- Whether a path leads to a file. -/
  Denotes : State → String → File → Prop

namespace FileView

variable (view : FileView State File)

/-- The same files exist in both states, with the same contents. -/
def Same (state after : State) : Prop :=
  ∀ file, view.content? after file = view.content? state file

/-- Between the states a text is stored in the file that a path leads to, and no other file is
changed. The path leads to no other file than before. -/
structure Stores (path text : String) (file : File) (state after : State) : Prop where
  denotes : view.Denotes after path file
  content?_eq : view.content? after file = some text.toUTF8
  eq_of_denotes : ∀ old, view.Denotes state path old → old = file
  others : ∀ other, other ≠ file → view.content? after other = view.content? state other

/-- How an attempt to write a text ends: the text is stored as a whole, or all files are as they
were. -/
def WriteEnds (path text : String) (state : State) : Except String Unit × State → Prop
  | (.ok (), after) => ∃ file, view.Stores path text file state after
  | (.error _, after) => view.Same state after

end FileView

/-- What is taken for granted of a host. -/
structure Host.Lawful (host : Host (StateM State)) (view : FileView State File) : Prop where
  keeps_walk : ∀ path, Keeps (host.walk path)
  keeps_isFile : ∀ path, Keeps (host.isFile path)
  keeps_readText : ∀ path, Keeps (host.readText path)
  /-- A text that is read is that of the file that its path leads to. -/
  readText_ok : ∀ {path state text}, view.Valid state →
    (host.readText path state).1 = .ok text →
      ∃ file, view.Denotes state path file ∧ view.content? state file = some text.toUTF8
  /-- Making directories leaves all files as they were, also if not all can be made, and paths lead
  to the files that they have led to. -/
  createDirectories_frame : ∀ {path state}, view.Valid state →
    let after := (host.createDirectories path state).2
    view.Valid after ∧ view.Same state after ∧
      ∀ path file, view.Denotes state path file → view.Denotes after path file
  /-- A write either fails and leaves all files as they were, or stores the whole text. -/
  writeText_ends : ∀ {path text state}, view.Valid state →
    view.WriteEnds path text state (host.writeText path text state)

variable {host : Host (StateM State)} {view : FileView State File}

theorem Host.Lawful.keeps_findSchemaFiles (h : host.Lawful view) (paths extensions : List String) :
    Keeps (host.findSchemaFiles paths extensions) := by
  intro state
  unfold Host.findSchemaFiles
  rw [findSchemaFilesBy_of_keeps h.keeps_walk h.keeps_isFile]

end SchemaMerge
