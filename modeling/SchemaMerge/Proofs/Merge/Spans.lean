import SchemaMerge.Proofs.Merge.Erasure
import SchemaMerge.Proofs.RoundTrip.Canonical

/-!
# Merging sees no spans

Spans end up in merged documents and in diagnostics, but they decide nothing: forgetting them is an
erasure (`Erasure.spans`), so documents that differ only in their spans are merged to documents that
differ only in their spans, or fail for one cause (`concur_merge`).
-/

namespace SchemaMerge

open Node

/-- The nodes differ at most in their spans. -/
def SameButSpans {α : Type} [Spanned α] (a b : α) : Prop := withoutSpans a = withoutSpans b

/-! ## Definitions -/

instance : UnseenDefinition (α := Field) withoutSpans where
  name_erase _ := rfl
  sameStructure_erase _ _ := rfl
  normalize_erase _ := rfl
  absorb_erase _ _ := rfl

instance : UnseenDefinition (α := DirectiveDefinition) withoutSpans where
  name_erase _ := rfl
  sameStructure_erase _ _ := rfl
  normalize_erase _ := rfl
  absorb_erase _ _ := rfl

instance : UnseenDefinition (α := ScalarDefinition) withoutSpans where
  name_erase _ := rfl
  sameStructure_erase _ _ := rfl
  normalize_erase _ := rfl
  absorb_erase _ _ := rfl

instance : UnseenDefinition (α := EnumDefinition) withoutSpans where
  name_erase _ := rfl
  sameStructure_erase _ _ := rfl
  normalize_erase _ := rfl
  absorb_erase _ _ := rfl

instance : UnseenDefinition (α := UnionDefinition) withoutSpans where
  name_erase _ := rfl
  sameStructure_erase _ _ := rfl
  normalize_erase _ := rfl
  absorb_erase _ _ := rfl

instance : UnseenDefinition (α := FieldsDefinition) withoutSpans where
  name_erase _ := rfl
  sameStructure_erase a b :=
    congrArg (fun same => _ && same && _) (sameStructures_map_erase withoutSpans a.fields b.fields)
  normalize_erase a :=
    congrArg (fun fields => { normalize a with fields, span := default })
      (map_normalize_map_erase withoutSpans a.fields)
  absorb_erase a b :=
    congrArg (fun fields => { absorb a b with fields, span := default })
      (absorbPairwise_map_erase withoutSpans a.fields b.fields)

instance : UnseenDefinition (α := TypeDefinition) withoutSpans where
  name_erase _ := rfl
  sameStructure_erase a b :=
    congrArg (fun same => _ && same && _ && _)
      (sameStructures_map_erase withoutSpans a.fields b.fields)
  normalize_erase a :=
    congrArg (fun fields => { normalize a with fields, span := default })
      (map_normalize_map_erase withoutSpans a.fields)
  absorb_erase a b :=
    congrArg (fun fields => { absorb a b with fields, span := default })
      (absorbPairwise_map_erase withoutSpans a.fields b.fields)

/-! ## Schema blocks -/

theorem keepsRootTypes_withoutSpans : KeepsRootTypes withoutSpans := by
  rintro block (_ | _ | _) <;> rfl

theorem flatMap_descriptions_eq {bs bs' : List SchemaBlock}
    (h : List.Forall₂ (SameUpTo withoutSpans) bs bs') :
    bs.flatMap SchemaBlock.descriptions = bs'.flatMap SchemaBlock.descriptions := by
  have hmap (blocks : List SchemaBlock) : (blocks.map withoutSpans).flatMap
      SchemaBlock.descriptions = blocks.flatMap SchemaBlock.descriptions := List.flatMap_map ..
  rw [← hmap, forall₂_sameUpTo_iff.1 h, hmap]

/-! ## Documents -/

/-- Where definitions and fields stand decides nothing. -/
def Erasure.spans : Erasure where
  block := withoutSpans
  field := withoutSpans
  directiveDefinition := withoutSpans
  scalar := withoutSpans
  enum := withoutSpans
  fieldsDefinition := withoutSpans
  union := withoutSpans
  type := withoutSpans
  block_keeps := keepsRootTypes_withoutSpans
  block_unite hb hbs := by
    have hall := List.Forall₂.cons hb hbs
    simp only [SameUpTo, withoutSpans, uniteBlocks,
      type_firstNaming_eq keepsRootTypes_withoutSpans _ hall, flatMap_descriptions_eq hall]
  field_unseen := inferInstance
  directiveDefinition_unseen := inferInstance
  scalar_unseen := inferInstance
  enum_unseen := inferInstance
  fieldsDefinition_unseen := inferInstance
  union_unseen := inferInstance
  type_unseen := inferInstance
  fields_type _ := rfl
  isExtension_type _ := rfl
  type_addFragment _ _ _ := rfl

/-- **Merging sees no spans**: documents that differ in nothing else are merged to such
documents, or fail for one cause. -/
theorem concur_merge {documents others : List Document}
    (h : SameButSpans (Document.concat documents) (Document.concat others)) :
    Concur SameButSpans (Document.merge documents) (Document.merge others) :=
  Erasure.spans.concur_merge h

end SchemaMerge
