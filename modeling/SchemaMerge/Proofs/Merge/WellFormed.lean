import SchemaMerge.Proofs.Merge.Documents
import SchemaMerge.Proofs.RoundTrip.WellFormed

/-!
# Merging keeps documents well formed

Normalization and absorption only move texts from one node to another of its kind
(`KeptByMerging`), so what is merged from well-formed documents is well formed
(`Document.wellFormed_of_merge`).
-/

namespace SchemaMerge

/-! ## Directives -/

/-- The arguments of the other directive are taken over one by one. -/
theorem Directive.WellFormed.absorb {directive other : Directive} (h : directive.WellFormed)
    (ho : other.WellFormed) : (directive.absorb other).WellFormed := by
  refine ⟨h.name, ?_, List.forall_mem_append.2 ⟨h.descriptions, ho.descriptions⟩⟩
  have hadd {arguments : List DirectiveArgument} (ha : ∀ a ∈ arguments, a.WellFormed)
      {argument : DirectiveArgument} (hargument : argument.WellFormed) :
      ∀ a ∈ addArgument arguments argument, a.WellFormed := by
    unfold addArgument
    split
    · exact ha
    · exact List.forall_mem_append.2 ⟨ha, List.forall_mem_singleton.2 hargument⟩
  exact List.foldlRecOn (motive := fun arguments => ∀ a ∈ arguments, a.WellFormed)
    other.arguments addArgument h.arguments
    fun arguments ha argument hmem => hadd ha (ho.arguments argument hmem)

/-- A directive is absorbed by the first of its name, or added behind all others. -/
theorem wellFormed_addDirective {ds : List Directive} (hds : ∀ d ∈ ds, d.WellFormed)
    {directive : Directive} (h : directive.WellFormed) :
    ∀ d ∈ addDirective ds directive, d.WellFormed := by
  induction ds with
  | nil => exact List.forall_mem_singleton.2 h
  | cons first rest ih =>
    rw [List.forall_mem_cons] at hds
    unfold addDirective
    split
    · exact List.forall_mem_cons.2 ⟨hds.1.absorb h, hds.2⟩
    · exact List.forall_mem_cons.2 ⟨hds.1, ih hds.2⟩

theorem wellFormed_mergeDirectives {into incoming : List Directive}
    (hinto : ∀ d ∈ into, d.WellFormed) (hincoming : ∀ d ∈ incoming, d.WellFormed) :
    ∀ d ∈ mergeDirectives into incoming, d.WellFormed :=
  List.foldlRecOn (motive := fun ds => ∀ d ∈ ds, d.WellFormed) incoming addDirective hinto
    fun _ hds d hmem => wellFormed_addDirective hds (hincoming d hmem)

theorem wellFormed_combineRepeated {ds : List Directive} (h : ∀ d ∈ ds, d.WellFormed) :
    ∀ d ∈ combineRepeated ds, d.WellFormed :=
  wellFormed_mergeDirectives (List.forall_mem_nil _) h

/-! ## Nodes -/

/-- A property of nodes that merging them keeps. -/
structure KeptByMerging {α : Type} [Node α] (good : α → Prop) : Prop where
  normalize : ∀ {a}, good a → good (normalize a)
  absorb : ∀ {a b}, good a → good b → good (absorb a b)

section

variable {α : Type}

theorem KeptByMerging.map_normalize [Node α] {good : α → Prop} (h : KeptByMerging good)
    {as : List α} (has : ∀ a ∈ as, good a) : ∀ a ∈ as.map SchemaMerge.normalize, good a :=
  List.forall_mem_map.2 fun a ha => h.normalize (has a ha)

/-- Lists are absorbed position by position. Nodes of the first list with none beside them stay as
they are. -/
theorem KeptByMerging.absorbPairwise [Node α] {good : α → Prop} (h : KeptByMerging good)
    {as bs : List α} (has : ∀ a ∈ as, good a) (hbs : ∀ b ∈ bs, good b) :
    ∀ a ∈ SchemaMerge.absorbPairwise as bs, good a := by
  induction as generalizing bs with
  | nil =>
    cases bs <;> exact has
  | cons a as ih =>
    cases bs with
    | nil => exact has
    | cons b bs =>
      rw [List.forall_mem_cons] at has hbs
      exact List.forall_mem_cons.2 ⟨h.absorb has.1 hbs.1, ih has.2 hbs.2⟩

/-- What comes out is made of the normal forms of what the documents hold. -/
theorem KeptByMerging.deduplicate [Definition α] [LawfulDefinition α] {good : α → Prop}
    (h : KeptByMerging good) {category : Category} {documents : List Document}
    {part : Document → List α} {result : List α}
    (hresult : SchemaMerge.deduplicate category (documents.flatMap part) = .ok result)
    (hparts : ∀ d ∈ documents, ∀ a ∈ part d, good a) : ∀ a ∈ result, good a :=
  forall_mem_deduplicate hresult
    (fun _ ha => h.normalize (List.forall_mem_flatMap.2 hparts _ ha)) h.absorb

end

/-- Nodes without parts merge their directives and put their texts together. -/
theorem keptByMerging_argument : KeptByMerging Argument.WellFormed where
  normalize h := { h with directives := wellFormed_combineRepeated h.directives }
  absorb h ho :=
    { h with
      directives := wellFormed_mergeDirectives h.directives ho.directives
      descriptions := List.forall_mem_append.2 ⟨h.descriptions, ho.descriptions⟩ }

/-- Nodes with parts have those brought into normal form, and absorbed pairwise, as well. -/
theorem keptByMerging_field : KeptByMerging Field.WellFormed where
  normalize h :=
    { h with
      arguments := keptByMerging_argument.map_normalize h.arguments
      directives := wellFormed_combineRepeated h.directives }
  absorb h ho :=
    { h with
      arguments := keptByMerging_argument.absorbPairwise h.arguments ho.arguments
      directives := wellFormed_mergeDirectives h.directives ho.directives
      descriptions := List.forall_mem_append.2 ⟨h.descriptions, ho.descriptions⟩
      comments := List.forall_mem_append.2 ⟨h.comments, ho.comments⟩ }

theorem keptByMerging_enumValue : KeptByMerging EnumValue.WellFormed where
  normalize h := { h with directives := wellFormed_combineRepeated h.directives }
  absorb h ho :=
    { h with
      directives := wellFormed_mergeDirectives h.directives ho.directives
      descriptions := List.forall_mem_append.2 ⟨h.descriptions, ho.descriptions⟩
      comments := List.forall_mem_append.2 ⟨h.comments, ho.comments⟩ }

theorem keptByMerging_directiveDefinition : KeptByMerging DirectiveDefinition.WellFormed where
  normalize h := { h with arguments := keptByMerging_argument.map_normalize h.arguments }
  absorb h ho :=
    { h with
      arguments := keptByMerging_argument.absorbPairwise h.arguments ho.arguments
      descriptions := List.forall_mem_append.2 ⟨h.descriptions, ho.descriptions⟩
      comments := List.forall_mem_append.2 ⟨h.comments, ho.comments⟩ }

theorem keptByMerging_scalar : KeptByMerging ScalarDefinition.WellFormed where
  normalize h := { h with directives := wellFormed_combineRepeated h.directives }
  absorb h ho :=
    { h with
      directives := wellFormed_mergeDirectives h.directives ho.directives
      descriptions := List.forall_mem_append.2 ⟨h.descriptions, ho.descriptions⟩
      comments := List.forall_mem_append.2 ⟨h.comments, ho.comments⟩ }

theorem keptByMerging_enum : KeptByMerging EnumDefinition.WellFormed where
  normalize h :=
    { h with
      values := keptByMerging_enumValue.map_normalize h.values
      directives := wellFormed_combineRepeated h.directives }
  absorb h ho :=
    { h with
      values := keptByMerging_enumValue.absorbPairwise h.values ho.values
      directives := wellFormed_mergeDirectives h.directives ho.directives
      descriptions := List.forall_mem_append.2 ⟨h.descriptions, ho.descriptions⟩
      comments := List.forall_mem_append.2 ⟨h.comments, ho.comments⟩ }

theorem keptByMerging_fieldsDefinition : KeptByMerging FieldsDefinition.WellFormed where
  normalize h :=
    { h with
      fields := keptByMerging_field.map_normalize h.fields
      directives := wellFormed_combineRepeated h.directives }
  absorb h ho :=
    { h with
      fields := keptByMerging_field.absorbPairwise h.fields ho.fields
      directives := wellFormed_mergeDirectives h.directives ho.directives
      descriptions := List.forall_mem_append.2 ⟨h.descriptions, ho.descriptions⟩
      comments := List.forall_mem_append.2 ⟨h.comments, ho.comments⟩ }

theorem keptByMerging_union : KeptByMerging UnionDefinition.WellFormed where
  normalize h := { h with directives := wellFormed_combineRepeated h.directives }
  absorb h ho :=
    { h with
      directives := wellFormed_mergeDirectives h.directives ho.directives
      descriptions := List.forall_mem_append.2 ⟨h.descriptions, ho.descriptions⟩
      comments := List.forall_mem_append.2 ⟨h.comments, ho.comments⟩ }

/-- A type absorbs another with the fields in place; fragments are folded in by
`wellFormed_addFragment`. -/
theorem keptByMerging_type : KeptByMerging TypeDefinition.WellFormed where
  normalize h :=
    { h with
      fields := keptByMerging_field.map_normalize h.fields
      directives := wellFormed_combineRepeated h.directives }
  absorb h ho :=
    { h with
      fields := keptByMerging_field.absorbPairwise h.fields ho.fields
      directives := wellFormed_mergeDirectives h.directives ho.directives
      descriptions := List.forall_mem_append.2 ⟨h.descriptions, ho.descriptions⟩
      comments := List.forall_mem_append.2 ⟨h.comments, ho.comments⟩ }

/-! ## Folding types -/

/-- Each field is one of either list, or has absorbed another of its name. -/
theorem wellFormed_uniteFields {type : String} {fields incoming result : List Field}
    (h : uniteFields type fields incoming = .ok result) (hfields : ∀ f ∈ fields, f.WellFormed)
    (hincoming : ∀ f ∈ incoming, f.WellFormed) : ∀ f ∈ result, f.WellFormed := by
  refine forall_mem_insertAll h hincoming ?_ ?_ hfields
  · rintro a b ha hb
    exact Except.ok.inj hb ▸ ha
  · rintro a b c ha hb hc
    exact (unify_eq_ok_iff.1 hc).2 ▸ keptByMerging_field.absorb ha hb

/-- Interfaces that both name are named once, so the names stay distinct. -/
theorem wellFormed_addFragment {base fragment : TypeDefinition} {fields : List Field}
    (h : base.WellFormed) (hf : fragment.WellFormed) (hfields : ∀ f ∈ fields, f.WellFormed) :
    (base.addFragment fragment fields).WellFormed :=
  { name := h.name
    interfaces := fun name hname => (mem_uniteNames.1 hname).elim (h.interfaces name)
      (hf.interfaces name)
    interfaces_nodup := nodup_uniteNames h.interfaces_nodup fragment.interfaces
    fields := hfields
    directives := wellFormed_mergeDirectives h.directives hf.directives
    descriptions := List.forall_mem_append.2 ⟨h.descriptions, hf.descriptions⟩
    comments := List.forall_mem_append.2 ⟨h.comments, hf.comments⟩ }

/-! ## Documents -/

/-- A type that the block names was named by one of the blocks, and each description stood before
one of them. -/
theorem wellFormed_reduceSchemaBlocks {blocks : List SchemaBlock} {block : Option SchemaBlock}
    (h : reduceSchemaBlocks blocks = .ok block) (hblocks : ∀ b ∈ blocks, b.WellFormed) :
    ∀ b ∈ block, b.WellFormed := by
  have hroot := rootType?_of_reduceSchemaBlocks h
  cases blocks with
  | nil => exact Except.ok.inj h ▸ fun _ hb => nomatch hb
  | cons first blocks =>
    rw [reduceSchemaBlocks_cons] at h
    split at h
    · cases h
    · cases h
      rintro _ ⟨⟩
      refine ⟨fun operation type htype => ?_, ?_⟩
      · have hnaming := (hroot operation).symm.trans htype
        obtain ⟨⟨b, _⟩, hfound, rfl⟩ := Option.map_eq_some_iff.1 hnaming
        obtain ⟨hmem, hb⟩ := of_firstNaming_eq_some hfound
        exact (hblocks b hmem).rootTypes operation _ hb
      · exact List.forall_mem_flatMap.2 fun b hb => (hblocks b hb).descriptions

/-- **What is merged from well-formed documents is well formed.** -/
theorem Document.wellFormed_of_merge {documents : List Document} {m : Document}
    (h : Document.merge documents = .ok m) (hd : ∀ d ∈ documents, d.WellFormed) : m.WellFormed := by
  have hm := merge_eq_ok_iff.1 h
  have hblocks : ∀ b ∈ m.schemaBlocks.head?, b.WellFormed :=
    wellFormed_reduceSchemaBlocks hm.blocks
      (List.forall_mem_flatMap.2 fun d hmem => (hd d hmem).schemaBlocks)
  exact
    { schemaBlocks := by
        rw [← hm.single]
        exact fun b hb => hblocks b (Option.mem_toList.1 hb)
      directiveDefinitions := keptByMerging_directiveDefinition.deduplicate hm.directiveDefinitions
        fun d hmem => (hd d hmem).directiveDefinitions
      scalars := keptByMerging_scalar.deduplicate hm.scalars fun d hmem => (hd d hmem).scalars
      enums := keptByMerging_enum.deduplicate hm.enums fun d hmem => (hd d hmem).enums
      interfaces := keptByMerging_fieldsDefinition.deduplicate hm.interfaces
        fun d hmem => (hd d hmem).interfaces
      unions := keptByMerging_union.deduplicate hm.unions fun d hmem => (hd d hmem).unions
      inputs := keptByMerging_fieldsDefinition.deduplicate hm.inputs
        fun d hmem => (hd d hmem).inputs
      types := forall_mem_foldTypes hm.types
        (List.forall_mem_flatMap.2 fun d hmem t ht =>
          keptByMerging_type.normalize ((hd d hmem).types t ht))
        keptByMerging_type.absorb fun ht hu hfields =>
          wellFormed_addFragment ht hu (wellFormed_uniteFields hfields ht.fields hu.fields) }

end SchemaMerge
