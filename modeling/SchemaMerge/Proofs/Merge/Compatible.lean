import SchemaMerge.Proofs.Merge.Documents

/-!
# Compatible documents

Merging compares a definition with what earlier ones have become. `Compatible` only speaks of the
documents as they are given: any two definitions that meet in a merge say the same, whatever stands
between them. The two come to the same (`merge_isOk_iff`), as long as no type repeats a field in
itself: a repeated field is compared when its type is folded, and kept when it is not.
-/

namespace SchemaMerge

/-- Any two definitions of one name have the same structure in normal form. -/
def Alike {α : Type} [Definition α] (definitions : List α) : Prop :=
  ∀ a ∈ definitions, ∀ b ∈ definitions, Definition.name a = Definition.name b →
    sameStructure (normalize a) (normalize b) = true

/-- No two definitions of several documents are in conflict. -/
structure Compatible (documents : List Document) : Prop where
  blocks : BlocksAgree (documents.flatMap Document.schemaBlocks)
  directiveDefinitions : Alike (documents.flatMap Document.directiveDefinitions)
  scalars : Alike (documents.flatMap Document.scalars)
  enums : Alike (documents.flatMap Document.enums)
  interfaces : Alike (documents.flatMap Document.interfaces)
  unions : Alike (documents.flatMap Document.unions)
  inputs : Alike (documents.flatMap Document.inputs)
  types : TypesFit (ServesRoot (documents.flatMap Document.schemaBlocks))
    (documents.flatMap Document.types)

theorem deduplicate_isOk_iff_alike {α : Type} [Definition α] [LawfulDefinition α] [Inhabited α]
    {category : Category} {definitions : List α} :
    (∃ result, deduplicate category definitions = .ok result) ↔ Alike definitions := by
  rw [deduplicate_isOk_iff]
  simp only [Agree, Alike, List.forall_mem_map, LawfulDefinition.name_normalize,
    sameStructure_iff]

/-- A merge succeeds when each of its parts does. -/
theorem merge_isOk_iff_parts {documents : List Document} :
    (∃ m, Document.merge documents = .ok m) ↔
      ∃ block, reduceSchemaBlocks (documents.flatMap Document.schemaBlocks) = .ok block ∧
        Alike (documents.flatMap Document.directiveDefinitions) ∧
        Alike (documents.flatMap Document.scalars) ∧
        Alike (documents.flatMap Document.enums) ∧
        Alike (documents.flatMap Document.interfaces) ∧
        Alike (documents.flatMap Document.unions) ∧
        Alike (documents.flatMap Document.inputs) ∧
        ∃ types, foldTypes (rootTypeNames block) (documents.flatMap Document.types) =
          .ok types := by
  simp only [merge_eq_ok_iff]
  constructor
  · rintro ⟨m, h⟩
    exact ⟨_, h.blocks, deduplicate_isOk_iff_alike.1 ⟨_, h.directiveDefinitions⟩,
      deduplicate_isOk_iff_alike.1 ⟨_, h.scalars⟩, deduplicate_isOk_iff_alike.1 ⟨_, h.enums⟩,
      deduplicate_isOk_iff_alike.1 ⟨_, h.interfaces⟩, deduplicate_isOk_iff_alike.1 ⟨_, h.unions⟩,
      deduplicate_isOk_iff_alike.1 ⟨_, h.inputs⟩, _, h.types⟩
  · rintro ⟨block, hb, hd, hs, he, hi, hu, hn, types, ht⟩
    obtain ⟨directiveDefinitions, hd⟩ := deduplicate_isOk_iff_alike.2 hd
    obtain ⟨scalars, hs⟩ := deduplicate_isOk_iff_alike.2 hs
    obtain ⟨enums, he⟩ := deduplicate_isOk_iff_alike.2 he
    obtain ⟨interfaces, hi⟩ := deduplicate_isOk_iff_alike.2 hi
    obtain ⟨unions, hu⟩ := deduplicate_isOk_iff_alike.2 hu
    obtain ⟨inputs, hn⟩ := deduplicate_isOk_iff_alike.2 hn
    have hhead : block.toList.head? = block := by cases block <;> rfl
    exact ⟨⟨block.toList, directiveDefinitions, scalars, enums, interfaces, unions, inputs, types⟩,
      { blocks := hb.trans (by rw [hhead])
        single := by rw [hhead]
        directiveDefinitions := hd
        scalars := hs
        enums := he
        interfaces := hi
        unions := hu
        inputs := hn
        types := by rwa [hhead] }⟩

/-- **Merging succeeds exactly when the documents are compatible.** -/
theorem merge_isOk_iff {documents : List Document}
    (hd : ∀ d ∈ documents, ∀ t ∈ d.types, (t.fields.map Field.name).Nodup) :
    (∃ m, Document.merge documents = .ok m) ↔ Compatible documents := by
  have hdistinct : ∀ t ∈ documents.flatMap Document.types, t.DistinctFields := by
    intro t ht
    obtain ⟨d, hmem, ht⟩ := List.mem_flatMap.1 ht
    exact hd d hmem t ht
  have htypes {block : Option SchemaBlock}
      (hb : reduceSchemaBlocks (documents.flatMap Document.schemaBlocks) = .ok block) :
      (∃ types, foldTypes (rootTypeNames block) (documents.flatMap Document.types) = .ok types) ↔
        TypesFit (ServesRoot (documents.flatMap Document.schemaBlocks))
          (documents.flatMap Document.types) := by
    rw [foldTypes_isOk_iff hdistinct, funext fun name => propext (mem_rootTypeNames_iff hb)]
  rw [merge_isOk_iff_parts]
  constructor
  · rintro ⟨block, hb, hdd, hs, he, hi, hu, hn, ht⟩
    exact ⟨reduceSchemaBlocks_isOk_iff.1 ⟨block, hb⟩, hdd, hs, he, hi, hu, hn, (htypes hb).1 ht⟩
  · intro h
    obtain ⟨block, hb⟩ := reduceSchemaBlocks_isOk_iff.2 h.blocks
    exact ⟨block, hb, h.directiveDefinitions, h.scalars, h.enums, h.interfaces, h.unions, h.inputs,
      (htypes hb).2 h.types⟩

/-- A root type in two parts, and an extension of a type that a later document defines. -/
theorem compatible_parts :
    let field := fun name =>
      (⟨name, [], .named "Int" true, none, [], [], [], default⟩ : Field)
    let type := fun name fields isExtension =>
      (⟨name, [], fields, [], [], [], isExtension, default⟩ : TypeDefinition)
    Compatible
      [{ Document.empty with
          types := [type "Query" [field "a"] false, type "T" [field "x"] true] },
        { Document.empty with
          types := [type "T" [field "x"] false, type "Query" [field "b"] false] }] :=
  (merge_isOk_iff (by simp)).1 ⟨_, rfl⟩

end SchemaMerge
