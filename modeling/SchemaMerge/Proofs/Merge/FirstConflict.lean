import SchemaMerge.Proofs.Merge.Conflicts

/-!
# The first conflict is the one that is reported

Merging goes through a list once and compares each item with what is kept of those before it. Said
of the list itself: definitions of one category are merged exactly when those of one name agree, and
a failure is about the first place `j` whose definition differs from the first one of its name
(`DiffersAt`); schema blocks are reduced exactly when they agree, and a failure is about the first
block that names another type for an operation than a block before it (`NamesAnother`), and in it
about the first such operation. In front of that place the list can be merged, so its items agree:
that is why what is kept stands for the first of them.

Results:
* `mergesByName_categories`: deduplication in each of the seven categories.
* `reducesToAgreement`: the reduction of schema blocks.
-/

namespace SchemaMerge

open Node

theorem getElem?_of_eq_append {β : Type} {items before after : List β} {item : β}
    (h : items = before ++ item :: after) : items[before.length]? = some item := by
  rw [h, List.getElem?_append_right (Nat.le_refl _), Nat.sub_self, List.getElem?_cons_zero]

theorem mem_of_getElem?_lt {β : Type} {items before after : List β} {i : Nat} {item : β}
    (h : items = before ++ after) (hi : i < before.length) (hitem : items[i]? = some item) :
    item ∈ before := by
  rw [h, List.getElem?_append_left hi] at hitem
  exact List.mem_of_getElem? hitem

/-! ## Definitions of one category -/

section Definitions

variable {α : Type} [Definition α]

/-- The definition `later` at place `j` differs in normal form from the first one of its name, which
is `earlier` at place `i`. -/
structure DiffersAt (definitions : List α) (i j : Nat) (earlier later : α) : Prop where
  findIdx? : definitions.findIdx? (fun a => Definition.name a = Definition.name later) = some i
  getElem?_earlier : definitions[i]? = some earlier
  getElem?_later : definitions[j]? = some later
  differ : sameStructure (normalize earlier) (normalize later) = false

/-- What becomes of the definitions of a category: they are merged if any two of one name have the
same structure in normal form. Then there is one for each name, where the name first occurs, with
structure and place of the first definition of that name. Else the report is on the first place at
which a definition differs from the first one of its name. -/
structure MergesByName (category : Category) (definitions : List α) : Prop where
  isOk_iff : (∃ result, deduplicate category definitions = .ok result) ↔
    ∀ a ∈ definitions, ∀ b ∈ definitions, Definition.name a = Definition.name b →
      sameStructure (normalize a) (normalize b) = true
  ok : ∀ result, deduplicate category definitions = .ok result →
    result.map Definition.name = uniteNames [] (definitions.map Definition.name) ∧
      ∀ a ∈ result, ∃ first,
        definitions.find? (fun b => Definition.name b = Definition.name a) = some first ∧
          sameStructure a (normalize first) = true ∧ Definition.span a = Definition.span first
  error : ∀ e, deduplicate category definitions = .error e → ∃ i j earlier later,
    DiffersAt definitions i j earlier later ∧
      (∀ i' j' earlier' later', DiffersAt definitions i' j' earlier' later' → j ≤ j') ∧
      e = .duplicateDefinition category (Definition.name later) (Definition.span earlier)
        (Definition.span later)

variable {category : Category} {definitions before after : List α} {later : α}

/-- The first definition of a name is in front of every other one of that name. -/
theorem DiffersAt.earlier_mem {i j : Nat} {earlier : α}
    (h : DiffersAt definitions i j earlier later) (hdefinitions : definitions = before ++ after)
    (hj : j < before.length) : earlier ∈ before ∧ later ∈ before := by
  have hlater := mem_of_getElem?_lt hdefinitions hj h.getElem?_later
  obtain ⟨k, hk⟩ : ∃ k, before.findIdx? (fun a => Definition.name a = Definition.name later) =
      some k := by
    cases hfind : before.findIdx? (fun a => Definition.name a = Definition.name later) with
    | none => simpa using List.findIdx?_eq_none_iff.1 hfind later hlater
    | some k => exact ⟨k, rfl⟩
  have hfirst := h.findIdx?
  rw [hdefinitions, List.findIdx?_append, hk, Option.some_or] at hfirst
  obtain rfl := Option.some.inj hfirst
  obtain ⟨hlt, -⟩ := List.findIdx?_eq_some_iff_getElem.1 hk
  exact ⟨mem_of_getElem?_lt hdefinitions hlt h.getElem?_earlier, hlater⟩

theorem differsAt_of_find? {first : α} (hdefinitions : definitions = before ++ later :: after)
    (hfirst : before.find? (fun a => Definition.name a = Definition.name later) = some first)
    (hdiffer : sameStructure (normalize first) (normalize later) = false) :
    ∃ i, DiffersAt definitions i before.length first later := by
  obtain ⟨hname, i, hi, rfl, hothers⟩ := List.find?_eq_some_iff_getElem.1 hfirst
  have hget (k : Nat) (hk : k < before.length) : definitions[k]? = some before[k] := by
    rw [hdefinitions, List.getElem?_append_left hk, List.getElem?_eq_getElem hk]
  refine ⟨i, List.findIdx?_eq_some_iff_getElem.2 ?_, hget i hi, getElem?_of_eq_append hdefinitions,
    hdiffer⟩
  subst hdefinitions
  refine ⟨Nat.lt_of_lt_of_le hi (by simp), ?_, fun k hk => ?_⟩
  · rwa [List.getElem_append_left hi]
  · rw [List.getElem_append_left (Nat.lt_trans hk hi)]
    simpa using hothers k hk

variable [LawfulDefinition α]

theorem agree_map_normalize_iff : Agree (definitions.map normalize) ↔
    ∀ a ∈ definitions, ∀ b ∈ definitions, Definition.name a = Definition.name b →
      sameStructure (normalize a) (normalize b) = true := by
  simp only [Agree, List.forall_mem_map, LawfulDefinition.name_normalize, sameStructure_iff]

/-- Where definitions can be merged, none differs from the first one of its name. -/
theorem DiffersAt.length_le {i j : Nat} {earlier : α}
    (h : DiffersAt definitions i j earlier later) (hdefinitions : definitions = before ++ after)
    (hbefore : Agree (before.map normalize)) : before.length ≤ j := by
  refine Nat.le_of_not_lt fun hj => ?_
  obtain ⟨hearlier, hlater⟩ := h.earlier_mem hdefinitions hj
  have hname : Definition.name earlier = Definition.name later := by
    obtain ⟨hlt, hname, -⟩ := List.findIdx?_eq_some_iff_getElem.1 h.findIdx?
    have hget := h.getElem?_earlier
    rw [List.getElem?_eq_getElem hlt] at hget
    rw [← Option.some.inj hget]
    simpa using hname
  have hsame := agree_map_normalize_iff.1 hbefore earlier hearlier later hlater hname
  rw [h.differ] at hsame
  cases hsame

variable [Inhabited α]

/-- Definitions that cannot be merged are merged up to one that differs from the first of its
name. -/
theorem exists_of_deduplicate_eq_error {e : Diagnostic}
    (h : deduplicate category definitions = .error e) : ∃ before later after first,
      definitions = before ++ later :: after ∧ Agree (before.map normalize) ∧
        before.find? (fun a => Definition.name a = Definition.name later) = some first ∧
        sameStructure (normalize first) (normalize later) = false ∧
        e = .duplicateDefinition category (Definition.name later) (Definition.span first)
          (Definition.span later) := by
  rw [deduplicate_eq_insertAll] at h
  obtain ⟨before, later, after, state, rfl, hstate, herror⟩ := exists_of_insertAll_map_eq_error h
  have hagree : Agree (before.map normalize) :=
    (insertAll_unifying_isOk_iff normalize_map_normalize).1 ⟨state, hstate⟩
  rcases of_insertKeyed_eq_error herror with ⟨-, hfresh⟩ | ⟨entry, hentry, hname, hunify⟩
  · cases hfresh
  · have hcombined := combined_of_mem_insertAll keepsKey_unifying hstate hentry
    rw [hname, LawfulDefinition.name_normalize] at hcombined
    obtain ⟨first, hfirst, hrepresents⟩ := represents_of_combined hcombined
    obtain ⟨hdiffer, rfl⟩ := hrepresents.of_unify_eq_error (represents_normalize later) hunify
    rw [hname, LawfulDefinition.name_normalize]
    exact ⟨before, later, after, first, rfl, hagree, hfirst, hdiffer, rfl⟩

/-- A merged definition has structure and place of the first one of its name. -/
theorem exists_first_of_mem_deduplicate {result : List α}
    (h : deduplicate category definitions = .ok result) {a : α} (ha : a ∈ result) :
    ∃ first, definitions.find? (fun b => Definition.name b = Definition.name a) = some first ∧
      sameStructure a (normalize first) = true ∧ Definition.span a = Definition.span first := by
  rw [deduplicate_eq_insertAll] at h
  obtain ⟨first, hfirst, hrepresents⟩ :=
    represents_of_combined (combined_of_mem_insertAll keepsKey_unifying h ha)
  exact ⟨first, hfirst, (sameStructure_iff _ _).2 hrepresents.skeleton_eq, hrepresents.span_eq⟩

theorem names_of_deduplicate {result : List α}
    (h : deduplicate category definitions = .ok result) :
    result.map Definition.name = uniteNames [] (definitions.map Definition.name) := by
  rw [deduplicate_eq_insertAll] at h
  rw [keys_of_insertAll keepsKey_unifying h, keysOf, List.map_map]
  simp only [Function.comp_def, LawfulDefinition.name_normalize]

theorem mergesByName (category : Category) (definitions : List α) :
    MergesByName category definitions where
  isOk_iff := deduplicate_isOk_iff.trans agree_map_normalize_iff
  ok _ h := ⟨names_of_deduplicate h, fun _ ha => exists_first_of_mem_deduplicate h ha⟩
  error e h := by
    obtain ⟨before, later, after, first, hdefinitions, hagree, hfirst, hdiffer, rfl⟩ :=
      exists_of_deduplicate_eq_error h
    obtain ⟨i, hat⟩ := differsAt_of_find? hdefinitions hfirst hdiffer
    exact ⟨i, before.length, first, later, hat,
      fun _ _ _ _ hother => hother.length_le hdefinitions hagree, rfl⟩

end Definitions

/-- **Definitions of every category are merged by name**: into the first of each name if all of one
name agree, and else with a report on the first one that differs from the first of its name. -/
theorem mergesByName_categories :
    (∀ definitions : List DirectiveDefinition, MergesByName .directive definitions) ∧
      (∀ definitions : List ScalarDefinition, MergesByName .scalar definitions) ∧
      (∀ definitions : List EnumDefinition, MergesByName .enum definitions) ∧
      (∀ definitions : List FieldsDefinition, MergesByName .interface definitions) ∧
      (∀ definitions : List UnionDefinition, MergesByName .union definitions) ∧
      (∀ definitions : List FieldsDefinition, MergesByName .input definitions) ∧
      ∀ definitions : List TypeDefinition, MergesByName .type definitions :=
  ⟨mergesByName _, mergesByName _, mergesByName _, mergesByName _, mergesByName _, mergesByName _,
    mergesByName _⟩

/-! ## Schema blocks -/

/-- The block at place `j` names another type for the operation than a block before it. -/
def NamesAnother (blocks : List SchemaBlock) (j : Nat) (operation : RootOperation) : Prop :=
  ∃ i earlier later first second, i < j ∧ blocks[i]? = some earlier ∧ blocks[j]? = some later ∧
    earlier.rootType? operation = some first ∧ later.rootType? operation = some second ∧
    first ≠ second

/-- What becomes of schema blocks: they are reduced if all that name a type for an operation name
the same. Then there is one, at the place of the first and with the descriptions of all, that names
what any of them names. Else the report is on the first block that names another type than a block
before it, on the first operation for which it does, and on the first block to name one for it. -/
structure ReducesToAgreement (blocks : List SchemaBlock) : Prop where
  isOk_iff : (∃ result, reduceSchemaBlocks blocks = .ok result) ↔ BlocksAgree blocks
  ok_nil : blocks = [] → reduceSchemaBlocks blocks = .ok none
  ok_cons : ∀ result first others, blocks = first :: others →
    reduceSchemaBlocks blocks = .ok result → ∃ united, result = some united ∧
      (∀ operation type, united.rootType? operation = some type ↔
        ∃ block ∈ blocks, block.rootType? operation = some type) ∧
      united.span = first.span ∧
      united.descriptions = blocks.flatMap SchemaBlock.descriptions
  error : ∀ e, reduceSchemaBlocks blocks = .error e →
    ∃ j operation earlier later first second, NamesAnother blocks j operation ∧
      (∀ j' operation', NamesAnother blocks j' operation' → j < j' ∨
        j = j' ∧ RootOperation.all.idxOf operation ≤ RootOperation.all.idxOf operation') ∧
      blocks.find? (fun block => (block.rootType? operation).isSome) = some earlier ∧
      earlier.rootType? operation = some first ∧
      blocks[j]? = some later ∧ later.rootType? operation = some second ∧
      e = .rootOperationMismatch operation first second earlier.span later.span

section SchemaBlocks

variable {blocks earlier before after : List SchemaBlock} {later : SchemaBlock}
  {operation : RootOperation} {e : Diagnostic}

/-- Blocks that agree do not name different types. -/
theorem NamesAnother.length_le {j : Nat} (h : NamesAnother blocks j operation)
    (hblocks : blocks = before ++ after) (hbefore : BlocksAgree before) : before.length ≤ j := by
  obtain ⟨i, first, second, _, _, hi, hfirst, hsecond, hnamed, hnamed', hdiffer⟩ := h
  refine Nat.le_of_not_lt fun hj => hdiffer ?_
  exact hbefore operation first (mem_of_getElem?_lt hblocks (Nat.lt_trans hi hj) hfirst) second
    (mem_of_getElem?_lt hblocks hj hsecond) _ _ hnamed hnamed'

theorem namesAnother_length_iff (hblocks : blocks = before ++ later :: after) :
    NamesAnother blocks before.length operation ↔ ¬AgreesWith before later operation := by
  constructor
  · rintro ⟨i, first, second, _, _, hi, hfirst, hsecond, hnamed, hnamed', hdiffer⟩ hagree
    obtain rfl := Option.some.inj ((getElem?_of_eq_append hblocks).symm.trans hsecond)
    exact hdiffer (hagree first (mem_of_getElem?_lt hblocks hi hfirst) _ _ hnamed hnamed')
  · intro hagree
    simp only [AgreesWith, not_forall] at hagree
    obtain ⟨first, hfirst, _, _, hnamed, hnamed', hdiffer⟩ := hagree
    obtain ⟨i, hi, rfl⟩ := List.getElem_of_mem hfirst
    refine ⟨i, before[i], later, _, _, hi, ?_, getElem?_of_eq_append hblocks, hnamed, hnamed',
      hdiffer⟩
    rw [hblocks, List.getElem?_append_left hi, List.getElem?_eq_getElem hi]

theorem find?_of_firstNaming {block : SchemaBlock} {type : String}
    (h : firstNaming operation blocks = some (block, type)) :
    blocks.find? (fun block => (block.rootType? operation).isSome) = some block := by
  induction blocks with
  | nil => cases h
  | cons first blocks ih =>
    rw [firstNaming] at h
    split at h
    · next hfirst =>
      cases h
      rw [List.find?_cons_of_pos (by rw [hfirst]; rfl)]
    · next hfirst =>
      rw [List.find?_cons_of_neg (by rw [hfirst]; decide), ih h]

/-- A block is in conflict with the first one to name a type for the operation. -/
theorem of_blockConflict?_eq_some (h : blockConflict? earlier later operation = some e) :
    ∃ origin first second,
      earlier.find? (fun block => (block.rootType? operation).isSome) = some origin ∧
        origin ∈ earlier ∧ origin.rootType? operation = some first ∧
        later.rootType? operation = some second ∧ first ≠ second ∧
        e = .rootOperationMismatch operation first second origin.span later.span := by
  simp only [blockConflict?, Option.bind_eq_bind, Option.bind_eq_some_iff] at h
  obtain ⟨second, hsecond, ⟨origin, first⟩, horigin, h⟩ := h
  obtain ⟨hmem, hfirst⟩ := of_firstNaming_eq_some horigin
  split at h
  · cases h
  · next hdiffer =>
    obtain rfl := Option.some.inj h
    exact ⟨origin, first, second, find?_of_firstNaming horigin, hmem, hfirst, hsecond, hdiffer, rfl⟩

/-- Blocks in conflict agree up to one of them, and that one agrees with them on the operations
before the one that is reported. -/
theorem exists_of_firstConflict? (hearlier : BlocksAgree earlier)
    (h : firstConflict? earlier blocks = some e) :
    ∃ before later after operations operation others, blocks = before ++ later :: after ∧
      RootOperation.all = operations ++ operation :: others ∧ BlocksAgree (earlier ++ before) ∧
      (∀ agreed ∈ operations, AgreesWith (earlier ++ before) later agreed) ∧
      blockConflict? (earlier ++ before) later operation = some e := by
  induction blocks generalizing earlier with
  | nil => cases h
  | cons block blocks ih =>
    rw [firstConflict?] at h
    split at h
    · next hconflict =>
      obtain rfl := Option.some.inj h
      obtain ⟨operations, operation, others, hall, hfound, hnone⟩ :=
        List.findSome?_eq_some_iff.1 hconflict
      refine ⟨[], block, blocks, operations, operation, others, rfl, hall, ?_⟩
      rw [List.append_nil]
      exact ⟨hearlier,
        fun agreed hmem => (blockConflict?_eq_none_iff hearlier).1 (hnone agreed hmem), hfound⟩
    · next hnone =>
      have hagree : BlocksAgree (earlier ++ [block]) := blocksAgree_concat.2 ⟨hearlier,
        fun agreed => (blockConflict?_eq_none_iff hearlier).1
          (List.findSome?_eq_none_iff.1 hnone agreed agreed.mem_all)⟩
      obtain ⟨before, later, after, operations, operation, others, rfl, hrest⟩ := ih hagree h
      refine ⟨block :: before, later, after, operations, operation, others, rfl, ?_⟩
      simpa using hrest

/-- What is not among the first operations comes at or after the one that follows them. -/
theorem idxOf_le_of_not_mem {operations others : List RootOperation} {other : RootOperation}
    (hall : RootOperation.all = operations ++ operation :: others) (hother : other ∉ operations) :
    RootOperation.all.idxOf operation ≤ RootOperation.all.idxOf other := by
  rw [hall, List.idxOf_append, List.idxOf_append, if_neg hother]
  split
  · next hmem =>
    exact Nat.le_trans (Nat.le_of_lt (List.idxOf_lt_length_of_mem hmem)) (Nat.le_add_left _ _)
  · rw [List.idxOf_cons_self]
    exact Nat.add_le_add_right (Nat.zero_le _) _

/-- **Schema blocks reduce to their agreement**, and the first block to break it is reported. -/
theorem reducesToAgreement (blocks : List SchemaBlock) : ReducesToAgreement blocks where
  isOk_iff := reduceSchemaBlocks_isOk_iff
  ok_nil h := h ▸ rfl
  ok_cons result first others hblocks h := by
    have hagree := reduceSchemaBlocks_isOk_iff.1 ⟨result, h⟩
    have hnamed := rootType?_of_reduceSchemaBlocks h
    subst hblocks
    rw [reduceSchemaBlocks_cons] at h
    split at h
    · cases h
    · obtain rfl := Except.ok.inj h
      refine ⟨_, rfl, fun operation type => ?_, rfl, rfl⟩
      rw [← firstNaming_of_agree hagree, ← hnamed, Option.bind_some]
  error e h := by
    obtain ⟨head, tail, hblocks, hconflict⟩ : ∃ head tail,
        blocks = head :: tail ∧ firstConflict? [head] tail = some e := by
      cases blocks with
      | nil => cases h
      | cons head tail =>
        rw [reduceSchemaBlocks_cons] at h
        split at h
        · next hconflict => exact ⟨head, tail, rfl, (Except.error.inj h) ▸ hconflict⟩
        · cases h
    obtain ⟨before, later, after, operations, operation, others, rfl, hall, hagree, hagreed,
      hreport⟩ := exists_of_firstConflict? (reduceSchemaBlocks_isOk_iff.1
        ⟨_, reduceSchemaBlocks_singleton head⟩) hconflict
    obtain ⟨origin, first, second, horigin, hmem, hfirst, hsecond, hdiffer, rfl⟩ :=
      of_blockConflict?_eq_some hreport
    have hsplit : blocks = ([head] ++ before) ++ later :: after := by simp [hblocks]
    have hiff (other : RootOperation) : NamesAnother blocks ([head] ++ before).length other ↔
        ¬AgreesWith ([head] ++ before) later other := namesAnother_length_iff hsplit
    refine ⟨([head] ++ before).length, operation, origin, later, first, second,
      (hiff operation).2 fun hsame => hdiffer (hsame origin hmem first second hfirst hsecond),
      fun j' other hother => ?_, ?_, hfirst, getElem?_of_eq_append hsplit, hsecond, rfl⟩
    · rcases Nat.eq_or_lt_of_le (hother.length_le hsplit hagree) with rfl | hlt
      · exact .inr ⟨rfl, idxOf_le_of_not_mem hall fun hmem => (hiff other).1 hother
          (hagreed other hmem)⟩
      · exact .inl hlt
    · rw [hsplit, List.find?_append, horigin, Option.some_or]

end SchemaBlocks

end SchemaMerge
