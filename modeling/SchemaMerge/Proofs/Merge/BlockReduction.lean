import Mathlib.Logic.Function.Basic
import SchemaMerge.Merge.SchemaBlocks

/-!
# The running schema block

Reducing schema blocks keeps one block that stands for all blocks read so far, and for each
operation the place where its type comes from. Here this is compared with the list of those blocks
itself: for each operation the running block names what the first of them to name a type names, and
the place is that block's (`Tracks`). One operation of one block keeps it (`failsOr_name`), so all
operations of a block do (`failsOr_foldlM_name`), and all blocks (`failsOr_foldlM_add`).

## Results

* `reduceSchemaBlocks_cons`: blocks are reduced to the one that `uniteBlocks` reads off their list,
  unless there is a conflict of a block with the first before it to name a type; then the first
  such conflict is reported.
-/

namespace SchemaMerge

/-! ## What the list of blocks says -/

/-- The first block that names a type for the operation, and that type. -/
def firstNaming (operation : RootOperation) : List SchemaBlock → Option (SchemaBlock × String)
  | [] => none
  | block :: blocks =>
    match block.rootType? operation with
    | some type => some (block, type)
    | none => firstNaming operation blocks

/-- The conflict between a block and those before it over an operation, if there is one. -/
def blockConflict? (earlier : List SchemaBlock) (block : SchemaBlock) (operation : RootOperation) :
    Option Diagnostic := do
  let second ← block.rootType? operation
  let (origin, first) ← firstNaming operation earlier
  if first = second then none
  else some (.rootOperationMismatch operation first second origin.span block.span)

/-- The first conflict among blocks, in their order and for each in the order of operations. -/
def firstConflict? (earlier : List SchemaBlock) : List SchemaBlock → Option Diagnostic
  | [] => none
  | block :: blocks =>
    match RootOperation.all.findSome? (blockConflict? earlier block) with
    | some conflict => some conflict
    | none => firstConflict? (earlier ++ [block]) blocks

/-- What blocks without conflicts say together, at the place of the first. -/
def uniteBlocks (first : SchemaBlock) (blocks : List SchemaBlock) : SchemaBlock :=
  let type? := fun operation => (firstNaming operation (first :: blocks)).map Prod.snd
  { query := type? .query
    mutation := type? .mutation
    subscription := type? .subscription
    descriptions := (first :: blocks).flatMap SchemaBlock.descriptions
    span := first.span }

theorem firstNaming_concat (operation : RootOperation) (earlier : List SchemaBlock)
    (later : SchemaBlock) :
    firstNaming operation (earlier ++ [later]) =
      (firstNaming operation earlier).or ((later.rootType? operation).map (later, ·)) := by
  induction earlier with
  | nil =>
    cases hlater : later.rootType? operation <;> simp [firstNaming, hlater]
  | cons block earlier ih =>
    rw [List.cons_append, firstNaming, firstNaming]
    cases block.rootType? operation with
    | none => exact ih
    | some type => rfl

/-! ## Steps that fail with a conflict -/

/-- A step fails with the conflict if there is one, and gets to a state with a property if not. -/
def FailsOr (conflict? : Option Diagnostic) (reached : BlockReduction → Prop) :
    Except Diagnostic BlockReduction → Prop
  | .error e => conflict? = some e
  | .ok next => conflict? = none ∧ reached next

/-- Of two steps in a row the first conflict counts. -/
theorem FailsOr.bind {first? second? : Option Diagnostic} {middle reached : BlockReduction → Prop}
    {step : Except Diagnostic BlockReduction}
    {next : BlockReduction → Except Diagnostic BlockReduction} (h : FailsOr first? middle step)
    (hnext : ∀ reduced, middle reduced → FailsOr second? reached (next reduced)) :
    FailsOr (first?.or second?) reached (step >>= next) := by
  cases step with
  | error e =>
    obtain rfl : first? = some e := h
    rfl
  | ok reduced =>
    obtain ⟨rfl, hmiddle⟩ := h
    exact hnext reduced hmiddle

/-! ## The running block -/

namespace BlockReduction

/-- The running block names, for each operation, the type of the given naming, and remembers the
place of the block that named it. -/
structure Tracks (naming : RootOperation → Option (SchemaBlock × String)) (span : Span)
    (descriptions : List String) (reduced : BlockReduction) : Prop where
  rootType? : ∀ operation, reduced.block.rootType? operation = (naming operation).map Prod.snd
  origin : ∀ operation, reduced.origin operation = (naming operation).map fun named => named.1.span
  span : reduced.block.span = span
  descriptions : reduced.block.descriptions = descriptions

theorem rootType?_setRootType (block : SchemaBlock) (type : String)
    (operation other : RootOperation) :
    (block.setRootType type operation).rootType? other =
      if other = operation then some type else block.rootType? other := by
  cases operation <;> cases other <;> rfl

theorem span_setRootType (block : SchemaBlock) (type : String) (operation : RootOperation) :
    (block.setRootType type operation).span = block.span := by
  cases operation <;> rfl

theorem descriptions_setRootType (block : SchemaBlock) (type : String)
    (operation : RootOperation) :
    (block.setRootType type operation).descriptions = block.descriptions := by
  cases operation <;> rfl

variable {naming : RootOperation → Option (SchemaBlock × String)} {span : Span}
  {descriptions : List String} {reduced : BlockReduction} {earlier : List SchemaBlock}
  {later : SchemaBlock} {operation : RootOperation}

/-- A type is taken over for an operation that has none. -/
theorem Tracks.setRootType (h : Tracks naming span descriptions reduced) {incoming : String} :
    Tracks (Function.update naming operation (some (later, incoming))) span descriptions
      { block := reduced.block.setRootType incoming operation
        origin := fun other =>
          if other = operation then some later.span else reduced.origin other } where
  rootType? other := by
    rw [rootType?_setRootType, Function.update_apply]
    split
    · rfl
    · exact h.rootType? other
  origin other := by
    dsimp only
    rw [Function.update_apply]
    split
    · rfl
    · exact h.origin other
  span := (span_setRootType ..).trans h.span
  descriptions := (descriptions_setRootType ..).trans h.descriptions

/-- One operation of one block: the running block and the first of the earlier blocks to name a
type are in the same conflict with it, or in none, and then the naming goes on to the block. -/
theorem failsOr_name (h : Tracks naming span descriptions reduced)
    (hnaming : naming operation = firstNaming operation earlier) :
    FailsOr (blockConflict? earlier later operation)
      (Tracks
        (Function.update naming operation (firstNaming operation (earlier ++ [later])))
        span descriptions)
      (name later reduced operation) := by
  have htype := h.rootType? operation
  have horigin := h.origin operation
  rw [hnaming] at htype horigin
  rw [firstNaming_concat, name, blockConflict?]
  cases later.rootType? operation with
  | none =>
    refine ⟨rfl, ?_⟩
    rwa [Option.map_none, Option.or_none, ← hnaming, Function.update_eq_self]
  | some incoming =>
    cases hfirst : firstNaming operation earlier with
    | none =>
      rw [hfirst, Option.map_none] at htype
      rw [htype]
      exact ⟨rfl, h.setRootType⟩
    | some named =>
      obtain ⟨block, current⟩ := named
      rw [hfirst, Option.map_some] at htype horigin
      rw [htype, horigin]
      by_cases hsame : current = incoming
      · simp only [Option.bind_eq_bind, Option.bind_some, if_pos hsame, Option.some_or]
        refine ⟨rfl, ?_⟩
        rwa [← hfirst, ← hnaming, Function.update_eq_self]
      · simp only [Option.bind_eq_bind, Option.bind_some, if_neg hsame]
        rfl

/-- All operations of one block. The invariant is that those gone through follow the list with the
block, and those still to come the list without it. -/
theorem failsOr_foldlM_name (later : SchemaBlock) {operations : List RootOperation}
    (hnodup : operations.Nodup) (h : Tracks naming span descriptions reduced)
    (hnaming : ∀ operation ∈ operations, naming operation = firstNaming operation earlier) :
    FailsOr (operations.findSome? (blockConflict? earlier later))
      (Tracks
        (fun operation => if operation ∈ operations then firstNaming operation (earlier ++ [later])
          else naming operation)
        span descriptions)
      (operations.foldlM (name later) reduced) := by
  induction operations generalizing naming reduced with
  | nil => exact ⟨rfl, by simpa using h⟩
  | cons operation operations ih =>
    rw [List.nodup_cons] at hnodup
    rw [List.forall_mem_cons] at hnaming
    have hconflict : (operation :: operations).findSome? (blockConflict? earlier later) =
        (blockConflict? earlier later operation).or
          (operations.findSome? (blockConflict? earlier later)) := by
      rw [List.findSome?_cons]
      cases blockConflict? earlier later operation <;> rfl
    rw [hconflict, List.foldlM_cons]
    refine (failsOr_name h hnaming.1).bind fun next hnext => ?_
    have hother (other : RootOperation) (hmem : other ∈ operations) : other ≠ operation :=
      fun heq => hnodup.1 (heq ▸ hmem)
    have hreached (other : RootOperation) :
        (if other ∈ operation :: operations then firstNaming other (earlier ++ [later])
          else naming other) =
        if other ∈ operations then firstNaming other (earlier ++ [later])
          else
            Function.update naming operation (firstNaming operation (earlier ++ [later]))
              other := by
      by_cases hmem : other ∈ operations
      · simp [hmem]
      · by_cases heq : other = operation
        · simp [heq]
        · simp [hmem, heq]
    simp only [hreached]
    exact ih hnodup.2 hnext fun other hmem => by
      rw [Function.update_of_ne (hother other hmem), hnaming.2 other hmem]

/-- One block. -/
theorem failsOr_add
    (h : Tracks (fun operation => firstNaming operation earlier) span descriptions reduced) :
    FailsOr (RootOperation.all.findSome? (blockConflict? earlier later))
      (Tracks (fun operation => firstNaming operation (earlier ++ [later])) span
        (descriptions ++ later.descriptions))
      (add reduced later) := by
  have hall : RootOperation.all.Nodup := by decide
  have hnamed := failsOr_foldlM_name later hall h fun _ _ => rfl
  simp only [RootOperation.mem_all, if_true] at hnamed
  rw [← Option.or_none (o := RootOperation.all.findSome? _)]
  refine hnamed.bind fun next hnext => ⟨rfl, ?_⟩
  exact
    { rootType? := fun operation => (hnext.rootType? operation) ▸ by cases operation <;> rfl
      origin := hnext.origin
      span := hnext.span
      descriptions := congrArg (· ++ later.descriptions) hnext.descriptions }

/-- All blocks, by induction on those still to be read. -/
theorem failsOr_foldlM_add (blocks : List SchemaBlock)
    (h : Tracks (fun operation => firstNaming operation earlier) span descriptions reduced) :
    FailsOr (firstConflict? earlier blocks)
      (Tracks (fun operation => firstNaming operation (earlier ++ blocks)) span
        (descriptions ++ blocks.flatMap SchemaBlock.descriptions))
      (blocks.foldlM add reduced) := by
  induction blocks generalizing earlier descriptions reduced with
  | nil => exact ⟨rfl, by simpa using h⟩
  | cons later blocks ih =>
    have hconflict : firstConflict? earlier (later :: blocks) =
        (RootOperation.all.findSome? (blockConflict? earlier later)).or
          (firstConflict? (earlier ++ [later]) blocks) := by
      rw [firstConflict?]
      cases RootOperation.all.findSome? (blockConflict? earlier later) <;> rfl
    rw [hconflict, List.foldlM_cons]
    refine (failsOr_add h).bind fun next hnext => ?_
    simpa using ih hnext

theorem tracks_start (first : SchemaBlock) :
    Tracks (fun operation => firstNaming operation [first]) first.span first.descriptions
      (start first) where
  rootType? operation := by
    rw [firstNaming]
    cases hfirst : first.rootType? operation <;> simp [start, hfirst, firstNaming]
  origin operation := by
    rw [firstNaming]
    cases hfirst : first.rootType? operation <;> simp [start, hfirst, firstNaming]
  span := rfl
  descriptions := rfl

/-- The running block is the united one, once all blocks are read. -/
theorem Tracks.block_eq {first : SchemaBlock} {blocks : List SchemaBlock}
    (h : Tracks (fun operation => firstNaming operation (first :: blocks)) first.span
      ((first :: blocks).flatMap SchemaBlock.descriptions) reduced) :
    reduced.block = uniteBlocks first blocks :=
  (SchemaBlock.mk.injEq ..).mpr
    ⟨h.rootType? .query, h.rootType? .mutation, h.rootType? .subscription, h.descriptions, h.span⟩

end BlockReduction

/-- **The running block says what the list of blocks says**: the first conflict is reported, and
without one the blocks become what they say together. -/
theorem reduceSchemaBlocks_cons (first : SchemaBlock) (blocks : List SchemaBlock) :
    reduceSchemaBlocks (first :: blocks) =
      match firstConflict? [first] blocks with
      | some conflict => .error conflict
      | none => .ok (some (uniteBlocks first blocks)) := by
  have hrun := BlockReduction.failsOr_foldlM_add blocks (BlockReduction.tracks_start first)
  rw [reduceSchemaBlocks]
  cases hlast : blocks.foldlM BlockReduction.add (.start first) with
  | error e =>
    rw [hlast] at hrun
    rw [show firstConflict? [first] blocks = some e from hrun]
    rfl
  | ok reduced =>
    rw [hlast] at hrun
    obtain ⟨hconflict, htracks⟩ := hrun
    rw [hconflict]
    exact congrArg (fun block => Except.ok (some block)) htracks.block_eq

end SchemaMerge
