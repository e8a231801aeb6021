import SchemaMerge.Proofs.Merge.Erasure

/-!
# Merging sees no documentation

Descriptions and comments are kept and joined, spans are kept and reported, but nothing is decided
by them: not what has the same structure, nor which field or directive is met again, nor which
conflict is found first. Removing all of them is an erasure (`Erasure.documentation`), so documents
with one `Document.skeleton` are merged to documents with one skeleton, or fail for one cause
(`concur_merge_of_skeleton_eq`).
-/

namespace SchemaMerge

open Node

/-! ## Members -/

/-- Comparing skeletons is comparing nodes, once a skeleton is its own. -/
theorem sameStructure_skeleton {α : Type} [Node α] [LawfulNode α]
    (h : ∀ a : α, skeleton (skeleton a) = skeleton a) (a b : α) :
    sameStructure (skeleton a) (skeleton b) = sameStructure a b := by
  rw [Bool.eq_iff_iff, sameStructure_iff, sameStructure_iff, h, h]

instance : Unseen (α := Argument) skeleton where
  sameStructure_erase := sameStructure_skeleton fun a => by simp [skeleton]
  normalize_erase a := by simp [normalize, skeleton, combineRepeated_map_skeleton]
  absorb_erase a b := by simp [absorb, skeleton, mergeDirectives_map_skeleton]

instance : UnseenDefinition (α := Field) skeleton where
  name_erase _ := rfl
  sameStructure_erase := sameStructure_skeleton fun a => by simp [skeleton]
  normalize_erase a := by simp [normalize, skeleton, combineRepeated_map_skeleton]
  absorb_erase a b :=
    (Field.mk.injEq ..).mpr
      ⟨rfl, absorbPairwise_map_erase skeleton a.arguments b.arguments, rfl, rfl,
        mergeDirectives_map_skeleton a.directives b.directives, rfl, rfl, rfl⟩

instance : Unseen (α := EnumValue) skeleton where
  sameStructure_erase := sameStructure_skeleton fun a => by simp [skeleton]
  normalize_erase a := by simp [normalize, skeleton, combineRepeated_map_skeleton]
  absorb_erase a b := by simp [absorb, skeleton, mergeDirectives_map_skeleton]

/-! ## Definitions -/

instance : UnseenDefinition (α := DirectiveDefinition) skeleton where
  name_erase _ := rfl
  sameStructure_erase := sameStructure_skeleton fun a => by simp [skeleton]
  normalize_erase a := by simp [normalize, skeleton, combineRepeated_map_skeleton]
  absorb_erase a b :=
    (DirectiveDefinition.mk.injEq ..).mpr
      ⟨rfl, absorbPairwise_map_erase skeleton a.arguments b.arguments, rfl, rfl, rfl, rfl, rfl⟩

instance : UnseenDefinition (α := ScalarDefinition) skeleton where
  name_erase _ := rfl
  sameStructure_erase := sameStructure_skeleton fun a => by simp [skeleton]
  normalize_erase a := by simp [normalize, skeleton, combineRepeated_map_skeleton]
  absorb_erase a b := by simp [absorb, skeleton, mergeDirectives_map_skeleton]

instance : UnseenDefinition (α := EnumDefinition) skeleton where
  name_erase _ := rfl
  sameStructure_erase := sameStructure_skeleton fun a => by simp [skeleton]
  normalize_erase a := by simp [normalize, skeleton, combineRepeated_map_skeleton]
  absorb_erase a b :=
    (EnumDefinition.mk.injEq ..).mpr
      ⟨rfl, absorbPairwise_map_erase skeleton a.values b.values,
        mergeDirectives_map_skeleton a.directives b.directives, rfl, rfl, rfl⟩

instance : UnseenDefinition (α := FieldsDefinition) skeleton where
  name_erase _ := rfl
  sameStructure_erase := sameStructure_skeleton fun a => by simp [skeleton]
  normalize_erase a := by simp [normalize, skeleton, combineRepeated_map_skeleton]
  absorb_erase a b :=
    (FieldsDefinition.mk.injEq ..).mpr
      ⟨rfl, absorbPairwise_map_erase skeleton a.fields b.fields,
        mergeDirectives_map_skeleton a.directives b.directives, rfl, rfl, rfl⟩

instance : UnseenDefinition (α := UnionDefinition) skeleton where
  name_erase _ := rfl
  sameStructure_erase := sameStructure_skeleton fun a => by simp [skeleton]
  normalize_erase a := by simp [normalize, skeleton, combineRepeated_map_skeleton]
  absorb_erase a b := by simp [absorb, skeleton, mergeDirectives_map_skeleton]

instance : UnseenDefinition (α := TypeDefinition) skeleton where
  name_erase _ := rfl
  sameStructure_erase := sameStructure_skeleton fun a => by simp [skeleton]
  normalize_erase a := by simp [normalize, skeleton, combineRepeated_map_skeleton]
  absorb_erase a b :=
    (TypeDefinition.mk.injEq ..).mpr
      ⟨rfl, rfl, absorbPairwise_map_erase skeleton a.fields b.fields,
        mergeDirectives_map_skeleton a.directives b.directives, rfl, rfl, rfl, rfl⟩

/-! ## Schema blocks -/

/-- The block without its descriptions, and with one span for all. -/
def SchemaBlock.skeleton (block : SchemaBlock) : SchemaBlock :=
  { block with descriptions := [], span := default }

theorem keepsRootTypes_skeleton : KeepsRootTypes SchemaBlock.skeleton := by
  rintro block (_ | _ | _) <;> rfl

/-! ## Documents -/

/-- The document without descriptions and comments, and with one span for all. -/
def Document.skeleton (d : Document) : Document where
  schemaBlocks := d.schemaBlocks.map SchemaBlock.skeleton
  directiveDefinitions := d.directiveDefinitions.map LawfulNode.skeleton
  scalars := d.scalars.map LawfulNode.skeleton
  enums := d.enums.map LawfulNode.skeleton
  interfaces := d.interfaces.map LawfulNode.skeleton
  unions := d.unions.map LawfulNode.skeleton
  inputs := d.inputs.map LawfulNode.skeleton
  types := d.types.map LawfulNode.skeleton

/-- What definitions are documented with, and where they stand, decides nothing. -/
def Erasure.documentation : Erasure where
  block := SchemaBlock.skeleton
  field := skeleton
  directiveDefinition := skeleton
  scalar := skeleton
  enum := skeleton
  fieldsDefinition := skeleton
  union := skeleton
  type := skeleton
  block_keeps := keepsRootTypes_skeleton
  block_unite hb hbs := by
    simp only [SameUpTo, SchemaBlock.skeleton, uniteBlocks,
      type_firstNaming_eq keepsRootTypes_skeleton _ (.cons hb hbs)]
  field_unseen := inferInstance
  directiveDefinition_unseen := inferInstance
  scalar_unseen := inferInstance
  enum_unseen := inferInstance
  fieldsDefinition_unseen := inferInstance
  union_unseen := inferInstance
  type_unseen := inferInstance
  fields_type _ := rfl
  isExtension_type _ := rfl
  type_addFragment t u _ :=
    (TypeDefinition.mk.injEq ..).mpr
      ⟨rfl, rfl, rfl, (mergeDirectives_map_skeleton t.directives u.directives).symm, rfl, rfl, rfl,
        rfl⟩

/-- **Documentation and positions decide nothing**: documents that differ only in descriptions,
comments and spans are merged to documents that differ only in these, or fail for one cause. -/
theorem concur_merge_of_skeleton_eq {documents others : List Document}
    (h : documents.map Document.skeleton = others.map Document.skeleton) :
    Concur (fun merged merged' => merged.skeleton = merged'.skeleton)
      (Document.merge documents) (Document.merge others) := by
  have hconcat : (Document.concat documents).skeleton = (Document.concat others).skeleton :=
    calc (Document.concat documents).skeleton
        = Document.concat (documents.map Document.skeleton) :=
          Erasure.documentation.document_concat documents
      _ = Document.concat (others.map Document.skeleton) := by rw [h]
      _ = (Document.concat others).skeleton :=
          (Erasure.documentation.document_concat others).symm
  exact Erasure.documentation.concur_merge hconcat

/-- A scalar that is documented once or twice, and one in conflict with it. -/
theorem concur_merge_of_skeleton_eq_dates :
    let dates := fun directives descriptions comments =>
      { Document.empty with
        scalars := [(⟨"Date", directives, descriptions, comments, default⟩ : ScalarDefinition)] }
    let once := [dates [] ["\"A day.\""] [], dates [] [] []]
    let twice := [dates [] ["\"A day.\""] ["# 1"], dates [] ["\"The same.\""] ["# 2"]]
    let opposed := dates [⟨"old", [], []⟩] [] []
    Concur (fun merged merged' => merged.skeleton = merged'.skeleton)
        (Document.merge once) (Document.merge twice) ∧
      Concur (fun merged merged' => merged.skeleton = merged'.skeleton)
        (Document.merge (once ++ [opposed])) (Document.merge (twice ++ [opposed])) :=
  ⟨concur_merge_of_skeleton_eq rfl, concur_merge_of_skeleton_eq rfl⟩

end SchemaMerge
