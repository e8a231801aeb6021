import SchemaMerge.Merge.Documents
import SchemaMerge.Proofs.Merge.SchemaBlocks
import SchemaMerge.Proofs.Merge.Types

/-!
# Merged documents

`Document.Merged` says what no document lacks that has come out of merging: one schema block at
most, one definition for each name, no extension, and no directive twice in a list. Merging such a
document alone changes nothing, since each of these is all that a step of merging would establish.

Results:
* `normalize_eq_self_iff`: a definition is in normal form when none of its directive lists applies a
  directive twice.
* `merged_of_merge`, `merge_of_merged`: merging gives merged documents, and leaves them as they are.
-/

namespace SchemaMerge

namespace Document

/-! ## Concatenation -/

section Concat

variable {α : Type} {part : Document → List α}

theorem foldl_append_eq_flatMap (happend : ∀ d e, part (append d e) = part d ++ part e)
    (start : Document) (documents : List Document) :
    part (documents.foldl append start) = part start ++ documents.flatMap part := by
  induction documents generalizing start with
  | nil => simp
  | cons d documents ih => simp [ih, happend]

/-- A part of documents that is appended is that of all documents in a row. -/
theorem concat_eq_flatMap (hempty : part empty = [])
    (happend : ∀ d e, part (append d e) = part d ++ part e) (documents : List Document) :
    part (concat documents) = documents.flatMap part := by
  rw [concat, foldl_append_eq_flatMap happend, hempty, List.nil_append]

end Concat

variable (documents : List Document)

@[simp] theorem schemaBlocks_concat :
    (concat documents).schemaBlocks = documents.flatMap schemaBlocks :=
  concat_eq_flatMap rfl (fun _ _ => rfl) documents

@[simp] theorem directiveDefinitions_concat :
    (concat documents).directiveDefinitions = documents.flatMap directiveDefinitions :=
  concat_eq_flatMap rfl (fun _ _ => rfl) documents

@[simp] theorem scalars_concat : (concat documents).scalars = documents.flatMap scalars :=
  concat_eq_flatMap rfl (fun _ _ => rfl) documents

@[simp] theorem enums_concat : (concat documents).enums = documents.flatMap enums :=
  concat_eq_flatMap rfl (fun _ _ => rfl) documents

@[simp] theorem interfaces_concat :
    (concat documents).interfaces = documents.flatMap interfaces :=
  concat_eq_flatMap rfl (fun _ _ => rfl) documents

@[simp] theorem unions_concat : (concat documents).unions = documents.flatMap unions :=
  concat_eq_flatMap rfl (fun _ _ => rfl) documents

@[simp] theorem inputs_concat : (concat documents).inputs = documents.flatMap inputs :=
  concat_eq_flatMap rfl (fun _ _ => rfl) documents

@[simp] theorem types_concat : (concat documents).types = documents.flatMap types :=
  concat_eq_flatMap rfl (fun _ _ => rfl) documents

end Document

/-! ## The parts of a merge -/

/-- A document whose parts are what the parts of several documents become. -/
structure MergesTo (documents : List Document) (m : Document) : Prop where
  blocks : reduceSchemaBlocks (documents.flatMap Document.schemaBlocks) = .ok m.schemaBlocks.head?
  single : m.schemaBlocks.head?.toList = m.schemaBlocks
  directiveDefinitions :
    deduplicate .directive (documents.flatMap Document.directiveDefinitions) =
      .ok m.directiveDefinitions
  scalars : deduplicate .scalar (documents.flatMap Document.scalars) = .ok m.scalars
  enums : deduplicate .enum (documents.flatMap Document.enums) = .ok m.enums
  interfaces : deduplicate .interface (documents.flatMap Document.interfaces) = .ok m.interfaces
  unions : deduplicate .union (documents.flatMap Document.unions) = .ok m.unions
  inputs : deduplicate .input (documents.flatMap Document.inputs) = .ok m.inputs
  types : foldTypes (rootTypeNames m.schemaBlocks.head?) (documents.flatMap Document.types) =
    .ok m.types

/-- A merge succeeds if each of its parts does, and its parts make up the result. -/
theorem merge_eq_ok_iff {documents : List Document} {m : Document} :
    Document.merge documents = .ok m ↔ MergesTo documents m := by
  simp only [Document.merge, except_bind_eq_ok_iff, Document.schemaBlocks_concat,
    Document.directiveDefinitions_concat, Document.scalars_concat, Document.enums_concat,
    Document.interfaces_concat, Document.unions_concat, Document.inputs_concat,
    Document.types_concat]
  constructor
  · rintro ⟨block, hb, dd, hdd, s, hs, e, he, i, hi, u, hu, n, hn, t, ht, hm⟩
    cases hm
    have hhead : block.toList.head? = block := by cases block <;> rfl
    exact ⟨hb.trans (by rw [hhead]), by rw [hhead], hdd, hs, he, hi, hu, hn, by rwa [hhead]⟩
  · intro h
    refine ⟨_, h.blocks, _, h.directiveDefinitions, _, h.scalars, _, h.enums, _, h.interfaces, _,
      h.unions, _, h.inputs, _, h.types, ?_⟩
    rw [h.single]
    rfl

/-! ## Directive lists -/

/-- The directive lists of a field and of its arguments. -/
def Field.directiveLists (field : Field) : List (List Directive) :=
  field.directives :: field.arguments.map Argument.directives

/-- The directive lists of the arguments of a directive. -/
def DirectiveDefinition.directiveLists (definition : DirectiveDefinition) :
    List (List Directive) := definition.arguments.map Argument.directives

/-- The directive lists of an enum and of its values. -/
def EnumDefinition.directiveLists (definition : EnumDefinition) : List (List Directive) :=
  definition.directives :: definition.values.map EnumValue.directives

/-- The directive lists of an interface or input and of all in it. -/
def FieldsDefinition.directiveLists (definition : FieldsDefinition) : List (List Directive) :=
  definition.directives :: definition.fields.flatMap Field.directiveLists

/-- The directive lists of a type and of all in it. -/
def TypeDefinition.directiveLists (definition : TypeDefinition) : List (List Directive) :=
  definition.directives :: definition.fields.flatMap Field.directiveLists

/-- All directive lists of a document. -/
def Document.directiveLists (d : Document) : List (List Directive) :=
  d.directiveDefinitions.flatMap DirectiveDefinition.directiveLists ++
    d.scalars.map ScalarDefinition.directives ++
    d.enums.flatMap EnumDefinition.directiveLists ++
    d.interfaces.flatMap FieldsDefinition.directiveLists ++
    d.unions.map UnionDefinition.directives ++
    d.inputs.flatMap FieldsDefinition.directiveLists ++
    d.types.flatMap TypeDefinition.directiveLists

/-- Directives with distinct names are normal, and no others are. -/
theorem combineRepeated_eq_self_iff {ds : List Directive} :
    combineRepeated ds = ds ↔ DistinctNames ds :=
  ⟨distinctNames_of_combineRepeated, combineRepeated_eq_self⟩

theorem Argument.normalize_eq_self_iff {a : Argument} :
    normalize a = a ↔ DistinctNames a.directives := by
  rw [← combineRepeated_eq_self_iff]
  cases a
  simp [normalize]

theorem EnumValue.normalize_eq_self_iff {v : EnumValue} :
    normalize v = v ↔ DistinctNames v.directives := by
  rw [← combineRepeated_eq_self_iff]
  cases v
  simp [normalize]

theorem ScalarDefinition.normalize_eq_self_iff {d : ScalarDefinition} :
    normalize d = d ↔ DistinctNames d.directives := by
  rw [← combineRepeated_eq_self_iff]
  cases d
  simp [normalize]

theorem UnionDefinition.normalize_eq_self_iff {d : UnionDefinition} :
    normalize d = d ↔ DistinctNames d.directives := by
  rw [← combineRepeated_eq_self_iff]
  cases d
  simp [normalize]

/-- A field is normal if its own directives and those of its arguments have distinct names. -/
theorem Field.normalize_eq_self_iff {f : Field} :
    normalize f = f ↔ ∀ l ∈ f.directiveLists, DistinctNames l := by
  have h : normalize f = f ↔
      f.arguments.map normalize = f.arguments ∧ combineRepeated f.directives = f.directives := by
    cases f
    simp [normalize]
  simp only [h, map_normalize_eq_self_iff, Argument.normalize_eq_self_iff,
    combineRepeated_eq_self_iff, Field.directiveLists, List.forall_mem_cons, List.forall_mem_map,
    and_comm]

theorem DirectiveDefinition.normalize_eq_self_iff {d : DirectiveDefinition} :
    normalize d = d ↔ ∀ l ∈ d.directiveLists, DistinctNames l := by
  have h : normalize d = d ↔ d.arguments.map normalize = d.arguments := by
    cases d
    simp [normalize]
  simp only [h, map_normalize_eq_self_iff, Argument.normalize_eq_self_iff,
    DirectiveDefinition.directiveLists, List.forall_mem_map]

theorem EnumDefinition.normalize_eq_self_iff {d : EnumDefinition} :
    normalize d = d ↔ ∀ l ∈ d.directiveLists, DistinctNames l := by
  have h : normalize d = d ↔
      d.values.map normalize = d.values ∧ combineRepeated d.directives = d.directives := by
    cases d
    simp [normalize]
  simp only [h, map_normalize_eq_self_iff, EnumValue.normalize_eq_self_iff,
    combineRepeated_eq_self_iff, EnumDefinition.directiveLists, List.forall_mem_cons,
    List.forall_mem_map, and_comm]

theorem FieldsDefinition.normalize_eq_self_iff {d : FieldsDefinition} :
    normalize d = d ↔ ∀ l ∈ d.directiveLists, DistinctNames l := by
  have h : normalize d = d ↔
      d.fields.map normalize = d.fields ∧ combineRepeated d.directives = d.directives := by
    cases d
    simp [normalize]
  simp only [h, map_normalize_eq_self_iff, Field.normalize_eq_self_iff,
    combineRepeated_eq_self_iff, FieldsDefinition.directiveLists, List.forall_mem_cons,
    List.forall_mem_flatMap, and_comm]

/-- A type is normal if its own directives and those of its fields have distinct names. -/
theorem TypeDefinition.normalize_eq_self_iff {d : TypeDefinition} :
    normalize d = d ↔ ∀ l ∈ d.directiveLists, DistinctNames l := by
  have h : normalize d = d ↔
      d.fields.map normalize = d.fields ∧ combineRepeated d.directives = d.directives := by
    cases d
    simp [normalize]
  simp only [h, map_normalize_eq_self_iff, Field.normalize_eq_self_iff,
    combineRepeated_eq_self_iff, TypeDefinition.directiveLists, List.forall_mem_cons,
    List.forall_mem_flatMap, and_comm]

/-! ## Merged documents -/

/-- A document that merging can do nothing for: it has one schema block at most, each name is
defined once, there are no extensions, and no list applies a directive twice. -/
structure Document.Merged (d : Document) : Prop where
  schemaBlocks : d.schemaBlocks.length ≤ 1
  directiveDefinitions : (d.directiveDefinitions.map DirectiveDefinition.name).Nodup
  scalars : (d.scalars.map ScalarDefinition.name).Nodup
  enums : (d.enums.map EnumDefinition.name).Nodup
  interfaces : (d.interfaces.map FieldsDefinition.name).Nodup
  unions : (d.unions.map UnionDefinition.name).Nodup
  inputs : (d.inputs.map FieldsDefinition.name).Nodup
  types : (d.types.map TypeDefinition.name).Nodup
  extensions : ∀ t ∈ d.types, t.isExtension = false
  directiveLists : ∀ l ∈ d.directiveLists, DistinctNames l

/-- Every definition of a document is in normal form. -/
structure Document.Normal (d : Document) : Prop where
  directiveDefinitions : ∀ a ∈ d.directiveDefinitions, normalize a = a
  scalars : ∀ a ∈ d.scalars, normalize a = a
  enums : ∀ a ∈ d.enums, normalize a = a
  interfaces : ∀ a ∈ d.interfaces, normalize a = a
  unions : ∀ a ∈ d.unions, normalize a = a
  inputs : ∀ a ∈ d.inputs, normalize a = a
  types : ∀ a ∈ d.types, normalize a = a

/-- Normal documents are those with distinct names in every list of directives. -/
theorem Document.normal_iff {d : Document} :
    d.Normal ↔ ∀ l ∈ d.directiveLists, DistinctNames l := by
  simp only [Document.directiveLists, List.forall_mem_append, List.forall_mem_flatMap,
    List.forall_mem_map, ← DirectiveDefinition.normalize_eq_self_iff,
    ← ScalarDefinition.normalize_eq_self_iff, ← EnumDefinition.normalize_eq_self_iff,
    ← FieldsDefinition.normalize_eq_self_iff, ← UnionDefinition.normalize_eq_self_iff,
    ← TypeDefinition.normalize_eq_self_iff]
  constructor
  · intro h
    exact ⟨⟨⟨⟨⟨⟨h.directiveDefinitions, h.scalars⟩, h.enums⟩, h.interfaces⟩, h.unions⟩, h.inputs⟩,
      h.types⟩
  · rintro ⟨⟨⟨⟨⟨⟨hd, hs⟩, he⟩, hi⟩, hu⟩, hn⟩, ht⟩
    exact ⟨hd, hs, he, hi, hu, hn, ht⟩

/-- A merge leaves nothing to be merged. -/
theorem merged_of_merge {documents : List Document} {m : Document}
    (h : Document.merge documents = .ok m) : m.Merged := by
  have hm := merge_eq_ok_iff.1 h
  have hnormal : m.Normal :=
    { directiveDefinitions := normalize_of_mem_deduplicate hm.directiveDefinitions
      scalars := normalize_of_mem_deduplicate hm.scalars
      enums := normalize_of_mem_deduplicate hm.enums
      interfaces := normalize_of_mem_deduplicate hm.interfaces
      unions := normalize_of_mem_deduplicate hm.unions
      inputs := normalize_of_mem_deduplicate hm.inputs
      types := normalize_of_mem_foldTypes hm.types }
  exact
    { schemaBlocks := by
        rw [← hm.single]
        cases m.schemaBlocks.head? <;> simp
      directiveDefinitions := names_nodup_of_deduplicate hm.directiveDefinitions
      scalars := names_nodup_of_deduplicate hm.scalars
      enums := names_nodup_of_deduplicate hm.enums
      interfaces := names_nodup_of_deduplicate hm.interfaces
      unions := names_nodup_of_deduplicate hm.unions
      inputs := names_nodup_of_deduplicate hm.inputs
      types := names_nodup_of_foldTypes hm.types
      extensions := isExtension_of_foldTypes hm.types
      directiveLists := Document.normal_iff.1 hnormal }

/-- Where nothing is left to be merged, merging changes nothing. -/
theorem merge_of_merged {d : Document} (h : d.Merged) : Document.merge [d] = .ok d := by
  have hnormal := Document.normal_iff.2 h.directiveLists
  have hblocks : reduceSchemaBlocks d.schemaBlocks = .ok d.schemaBlocks.head? ∧
      d.schemaBlocks.head?.toList = d.schemaBlocks := by
    match hb : d.schemaBlocks with
    | [] => exact ⟨rfl, rfl⟩
    | [block] => exact ⟨reduceSchemaBlocks_singleton block, rfl⟩
    | _ :: _ :: _ => simpa [hb] using h.schemaBlocks
  have hone {α : Type} (part : Document → List α) : [d].flatMap part = part d := by simp
  refine merge_eq_ok_iff.2
    { blocks := (hone _).symm ▸ hblocks.1
      single := hblocks.2
      directiveDefinitions := ?_
      scalars := ?_
      enums := ?_
      interfaces := ?_
      unions := ?_
      inputs := ?_
      types := ?_ } <;> rw [hone]
  · exact deduplicate_of_nodup h.directiveDefinitions hnormal.directiveDefinitions
  · exact deduplicate_of_nodup h.scalars hnormal.scalars
  · exact deduplicate_of_nodup h.enums hnormal.enums
  · exact deduplicate_of_nodup h.interfaces hnormal.interfaces
  · exact deduplicate_of_nodup h.unions hnormal.unions
  · exact deduplicate_of_nodup h.inputs hnormal.inputs
  · exact foldTypes_of_nodup h.types h.extensions hnormal.types

/-- **Merging is idempotent**: what comes out of it is merged, and merging that alone gives it
again, spans and order included. -/
theorem merge_idempotent {documents : List Document} {m : Document}
    (h : Document.merge documents = .ok m) : m.Merged ∧ Document.merge [m] = .ok m := by
  have hmerged := merged_of_merge h
  exact ⟨hmerged, merge_of_merged hmerged⟩

/-- Two definitions of a scalar, one of which applies a directive twice. -/
theorem merge_idempotent_dates :
    let date := fun descriptions =>
      { Document.empty with
        scalars := [⟨"Date", [⟨"cached", [], []⟩], descriptions, [], default⟩] }
    let merged := date ["\"A day\"", "\"A date\""]
    merged.Merged ∧ Document.merge [merged] = .ok merged :=
  @merge_idempotent
    [{ Document.empty with
        scalars :=
          [⟨"Date", [⟨"cached", [], []⟩, ⟨"cached", [], []⟩], ["\"A day\""], [], default⟩] },
      { Document.empty with
        scalars := [⟨"Date", [⟨"cached", [], []⟩], ["\"A date\""], [], default⟩] }]
    _ rfl

end SchemaMerge
