import SchemaMerge.Proofs.Merge.BlockReduction

/-!
# Schema blocks agree

A block is compared with the first of the earlier ones that names a type for an operation. As long
as blocks agree, that one stands for all of them, so blocks can be reduced exactly when all that
name a type for an operation name the same (`reduceSchemaBlocks_isOk_iff`). The root types of the
one block are then those that any of the blocks names, and the defaults for the rest
(`mem_rootTypeNames_iff`).
-/

namespace SchemaMerge

/-- All blocks that name a type for an operation name the same. -/
def BlocksAgree (blocks : List SchemaBlock) : Prop :=
  ∀ operation : RootOperation, ∀ b ∈ blocks, ∀ c ∈ blocks, ∀ first second,
    b.rootType? operation = some first → c.rootType? operation = some second → first = second

theorem BlocksAgree.mono {blocks others : List SchemaBlock} (h : BlocksAgree blocks)
    (hsub : others ⊆ blocks) : BlocksAgree others :=
  fun operation b hb c hc => h operation b (hsub hb) c (hsub hc)

/-! ## The first block that names a type -/

theorem firstNaming_eq_none_iff {operation : RootOperation} {blocks : List SchemaBlock} :
    firstNaming operation blocks = none ↔ ∀ b ∈ blocks, b.rootType? operation = none := by
  induction blocks with
  | nil => simp [firstNaming]
  | cons b blocks ih =>
    rw [firstNaming, List.forall_mem_cons]
    cases b.rootType? operation <;> simp [ih]

theorem of_firstNaming_eq_some {operation : RootOperation} {blocks : List SchemaBlock}
    {b : SchemaBlock} {type : String} (h : firstNaming operation blocks = some (b, type)) :
    b ∈ blocks ∧ b.rootType? operation = some type := by
  induction blocks with
  | nil => cases h
  | cons first blocks ih =>
    rw [firstNaming] at h
    split at h
    · next hfirst =>
      cases h
      exact ⟨List.mem_cons_self, hfirst⟩
    · exact (ih h).imp_left (List.mem_cons_of_mem _)

theorem firstNaming_of_agree {operation : RootOperation} {blocks : List SchemaBlock}
    (h : BlocksAgree blocks) {type : String} :
    (firstNaming operation blocks).map Prod.snd = some type ↔
      ∃ b ∈ blocks, b.rootType? operation = some type := by
  cases hf : firstNaming operation blocks with
  | none =>
    rw [firstNaming_eq_none_iff] at hf
    simp only [Option.map_none, reduceCtorEq, false_iff, not_exists, not_and]
    exact fun b hb => by simp [hf b hb]
  | some found =>
    obtain ⟨hmem, hfound⟩ := of_firstNaming_eq_some hf
    simp only [Option.map_some, Option.some.injEq]
    constructor
    · rintro rfl
      exact ⟨found.1, hmem, hfound⟩
    · rintro ⟨b, hb, hbt⟩
      exact h operation _ hmem b hb _ _ hfound hbt

/-! ## Conflicts -/

/-- A block names the same type for an operation as all earlier ones that name one. -/
def AgreesWith (earlier : List SchemaBlock) (block : SchemaBlock) (operation : RootOperation) :
    Prop :=
  ∀ b ∈ earlier, ∀ first second, b.rootType? operation = some first →
    block.rootType? operation = some second → first = second

theorem blockConflict?_eq_none_iff {earlier : List SchemaBlock} {block : SchemaBlock}
    {operation : RootOperation} (h : BlocksAgree earlier) :
    blockConflict? earlier block operation = none ↔ AgreesWith earlier block operation := by
  unfold blockConflict? AgreesWith
  cases hb : block.rootType? operation with
  | none => simp
  | some second =>
    cases hf : firstNaming operation earlier with
    | none =>
      have hnone := firstNaming_eq_none_iff.1 hf
      simp only [Option.bind_eq_bind, Option.bind_some, Option.bind_none, true_iff]
      intro b hb first second hfirst
      rw [hnone b hb] at hfirst
      cases hfirst
    | some found =>
      obtain ⟨hmem, hfound⟩ := of_firstNaming_eq_some hf
      simp only [Option.bind_eq_bind, Option.bind_some, Option.some.injEq]
      constructor
      · rintro hc b hb first _ hfirst rfl
        have hsame : found.2 = second := Decidable.byContradiction fun hne => by simp [hne] at hc
        rw [← hsame]
        exact h operation b hb found.1 hmem first found.2 hfirst hfound
      · intro hall
        rw [if_pos (hall found.1 hmem found.2 second hfound rfl)]

theorem blocksAgree_concat {earlier : List SchemaBlock} {block : SchemaBlock} :
    BlocksAgree (earlier ++ [block]) ↔
      BlocksAgree earlier ∧ ∀ operation, AgreesWith earlier block operation := by
  constructor
  · intro h
    exact ⟨fun operation b hb c hc =>
        h operation b (List.mem_append_left _ hb) c (List.mem_append_left _ hc),
      fun operation b hb => h operation b (List.mem_append_left _ hb) block (by simp)⟩
  · rintro ⟨h, hblock⟩ operation b hb c hc first second hfirst hsecond
    rw [List.mem_append, List.mem_singleton] at hb hc
    rcases hb with hb | rfl <;> rcases hc with hc | rfl
    · exact h operation b hb c hc first second hfirst hsecond
    · exact hblock operation b hb first second hfirst hsecond
    · exact (hblock operation c hc second first hsecond hfirst).symm
    · exact Option.some.inj (hfirst.symm.trans hsecond)

theorem firstConflict?_eq_none_iff {earlier blocks : List SchemaBlock} (h : BlocksAgree earlier) :
    firstConflict? earlier blocks = none ↔ BlocksAgree (earlier ++ blocks) := by
  induction blocks generalizing earlier with
  | nil => simp [firstConflict?, h]
  | cons block blocks ih =>
    have hblock : RootOperation.all.findSome? (blockConflict? earlier block) = none ↔
        ∀ operation, AgreesWith earlier block operation := by
      simp only [List.findSome?_eq_none_iff, blockConflict?_eq_none_iff h]
      exact ⟨fun hall operation => hall operation operation.mem_all, fun hall operation _ =>
        hall operation⟩
    rw [firstConflict?]
    split
    · next hc =>
      simp only [reduceCtorEq, false_iff]
      intro hall
      have hsub : earlier ++ [block] ⊆ earlier ++ block :: blocks := by simp
      have hnone := hblock.2 (blocksAgree_concat.1 (hall.mono hsub)).2
      exact absurd (hc.symm.trans hnone) (by simp)
    · next hc =>
      rw [ih (blocksAgree_concat.2 ⟨h, hblock.1 hc⟩), List.append_assoc, List.singleton_append]

/-- **Blocks can be reduced exactly when they agree.** -/
theorem reduceSchemaBlocks_isOk_iff {blocks : List SchemaBlock} :
    (∃ block, reduceSchemaBlocks blocks = .ok block) ↔ BlocksAgree blocks := by
  cases blocks with
  | nil => exact ⟨fun _ => by simp [BlocksAgree], fun _ => ⟨none, rfl⟩⟩
  | cons first blocks =>
    have hfirst : BlocksAgree [first] := by
      simp [BlocksAgree]
      grind
    have hiff := @firstConflict?_eq_none_iff [first] blocks hfirst
    rw [List.singleton_append] at hiff
    rw [← hiff, reduceSchemaBlocks_cons]
    cases firstConflict? [first] blocks <;> simp

/-- The one block names what any of the blocks names. -/
theorem rootType?_of_reduceSchemaBlocks {blocks : List SchemaBlock} {block : Option SchemaBlock}
    (h : reduceSchemaBlocks blocks = .ok block) (operation : RootOperation) :
    (block.bind fun b => b.rootType? operation) = (firstNaming operation blocks).map Prod.snd := by
  cases blocks with
  | nil => exact Except.ok.inj h ▸ rfl
  | cons first blocks =>
    rw [reduceSchemaBlocks_cons] at h
    split at h
    · cases h
    · cases h
      cases operation <;> rfl

/-- The name of a type that serves an operation: one that a block names, or the default. -/
def ServesRoot (blocks : List SchemaBlock) (name : String) : Prop :=
  ∃ operation : RootOperation, (∃ b ∈ blocks, b.rootType? operation = some name) ∨
    (∀ b ∈ blocks, b.rootType? operation = none) ∧ operation.defaultType = name

theorem mem_rootTypeNames_iff {blocks : List SchemaBlock} {block : Option SchemaBlock}
    (h : reduceSchemaBlocks blocks = .ok block) {name : String} :
    name ∈ rootTypeNames block ↔ ServesRoot blocks name := by
  have hagree := reduceSchemaBlocks_isOk_iff.1 ⟨block, h⟩
  have hname (operation : RootOperation) :
      ((block.bind fun b => b.rootType? operation).getD operation.defaultType = name) ↔
        ((∃ b ∈ blocks, b.rootType? operation = some name) ∨
          (∀ b ∈ blocks, b.rootType? operation = none) ∧ operation.defaultType = name) := by
    rw [rootType?_of_reduceSchemaBlocks h, ← firstNaming_of_agree hagree,
      ← firstNaming_eq_none_iff]
    cases firstNaming operation blocks <;> simp
  simp only [rootTypeNames, List.mem_map, hname, ServesRoot]
  exact ⟨fun ⟨operation, _, hop⟩ => ⟨operation, hop⟩,
    fun ⟨operation, hop⟩ => ⟨operation, operation.mem_all, hop⟩⟩

/-- The root types are decided by what is among the blocks, in whatever order and how often. -/
theorem rootType?_of_mem_iff {blocks others : List SchemaBlock} {block other : Option SchemaBlock}
    (hmem : ∀ b, b ∈ blocks ↔ b ∈ others) (h : reduceSchemaBlocks blocks = .ok block)
    (h' : reduceSchemaBlocks others = .ok other) (operation : RootOperation) :
    (block.bind fun b => b.rootType? operation) = other.bind fun b => b.rootType? operation := by
  have hagree := reduceSchemaBlocks_isOk_iff.1 ⟨block, h⟩
  have hothers := reduceSchemaBlocks_isOk_iff.1 ⟨other, h'⟩
  rw [rootType?_of_reduceSchemaBlocks h, rootType?_of_reduceSchemaBlocks h']
  refine Option.ext fun type => ?_
  rw [firstNaming_of_agree hagree, firstNaming_of_agree hothers]
  simp only [hmem]

theorem rootTypeNames_congr {block other : Option SchemaBlock}
    (h : ∀ operation : RootOperation,
      (block.bind fun b => b.rootType? operation) = other.bind fun b => b.rootType? operation) :
    rootTypeNames block = rootTypeNames other := by
  simp only [rootTypeNames, h]

/-- One block alone is left as it is. -/
theorem reduceSchemaBlocks_singleton (block : SchemaBlock) :
    reduceSchemaBlocks [block] = .ok (some block) := by
  have hname (operation : RootOperation) :
      (firstNaming operation [block]).map Prod.snd = block.rootType? operation := by
    unfold firstNaming
    cases block.rootType? operation <;> rfl
  simp only [reduceSchemaBlocks_cons, firstConflict?, uniteBlocks, hname]
  simp [SchemaBlock.rootType?]

end SchemaMerge
