import SchemaMerge.Proofs.Merge.Documents
import SchemaMerge.Proofs.RoundTrip.Document

/-!
# What printing does not see

Printing looks neither at spans nor at what the canonical form of a document leaves out, so a
document is printed as its canonical form is (`Document.print_canonical`,
`Document.print_withoutSpans`). A merged document stays merged in canonical form
(`Document.Merged.canonical`).
-/

namespace SchemaMerge

/-! ## Directives -/

theorem pairwise_canonicalDirectives (ds : List Directive) :
    (canonicalDirectives ds).Pairwise fun a b => decide (b.name ≤ a.name) = true := by
  refine List.pairwise_mergeSort (fun a b c hab hbc => ?_) (fun a b => ?_) _
  · simp only [decide_eq_true_eq] at hab hbc ⊢
    exact String.le_trans hbc hab
  · simpa using String.le_total b.name a.name

/-- Directives in canonical order are sorted already. -/
theorem sortedDirectives_canonicalDirectives (ds : List Directive) :
    Printing.sortedDirectives (canonicalDirectives ds) = canonicalDirectives ds :=
  List.mergeSort_of_pairwise (pairwise_canonicalDirectives ds)

theorem directives_canonicalDirectives (unit : String) (depth : Nat) (ds : List Directive) :
    Printing.directives unit depth (canonicalDirectives ds) =
      Printing.directives unit depth ds := by
  rw [Printing.directives, sortedDirectives_canonicalDirectives, Parser.canonicalDirectives_eq,
    List.map_map]
  rfl

theorem distinctNames_canonicalDirectives {ds : List Directive} (h : DistinctNames ds) :
    DistinctNames (canonicalDirectives ds) := by
  have hperm : ((canonicalDirectives ds).map Directive.name).Perm (ds.map Directive.name) := by
    simpa [canonicalDirectives, Function.comp_def] using
      (List.mergeSort_perm (ds.map Directive.skeleton) _).map Directive.name
  exact hperm.nodup_iff.2 h

/-! ## Documentation -/

namespace Printing

variable (unit : String) (depth : Nat)

@[simp] theorem description_take_one (descriptions : List String) :
    description unit depth (descriptions.take 1) = description unit depth descriptions := by
  cases descriptions <;> rfl

@[simp] theorem trailingComment_take_one (comments : List String) :
    trailingComment (comments.take 1) = trailingComment comments := by
  cases comments <;> rfl

/-! ## Members -/

@[simp] theorem argument_canonical (a : Argument) :
    argument unit depth a.canonical = argument unit depth a := by
  simp [argument, Argument.canonical, directives_canonicalDirectives]

theorem wrapsArguments_canonical (as : List Argument) :
    wrapsArguments (as.map Argument.canonical) = wrapsArguments as := by
  have hempty (texts : List String) : (texts.take 1).isEmpty = texts.isEmpty := by
    cases texts <;> rfl
  simp [wrapsArguments, Argument.canonical, Function.comp_def, hempty]

@[simp] theorem arguments_canonical (as : List Argument) :
    arguments unit depth (as.map Argument.canonical) = arguments unit depth as := by
  simp only [arguments, wrapsArguments_canonical, List.isEmpty_map, List.map_map,
    Function.comp_def, argument_canonical]
  simp [Argument.canonical]

@[simp] theorem field_canonical (f : Field) : field unit f.canonical = field unit f := by
  simp [field, Field.canonical, directives_canonicalDirectives]

@[simp] theorem enumValue_canonical (v : EnumValue) :
    enumValue unit v.canonical = enumValue unit v := by
  simp [enumValue, EnumValue.canonical, directives_canonicalDirectives]

end Printing

namespace Block

/-- A block is printed as its canonical form is. -/
theorem print_canonical (unit : String) (block : Block) :
    block.canonical.print unit = block.print unit := by
  cases block with
  | schema a =>
    have hentry : Printing.schemaEntry unit a.canonical = Printing.schemaEntry unit a := by
      ext1 operation
      cases operation <;> rfl
    simp only [canonical, print, Printing.schemaBlock, hentry]
    simp [SchemaBlock.canonical]
  | directive a =>
    simp [canonical, print, Printing.directiveDefinition, DirectiveDefinition.canonical]
  | scalar a =>
    simp [canonical, print, Printing.scalar, ScalarDefinition.canonical,
      directives_canonicalDirectives]
  | enum a =>
    simp [canonical, print, Printing.enum, EnumDefinition.canonical,
      directives_canonicalDirectives, Function.comp_def]
  | interface a | input a =>
    simp [canonical, print, Printing.fieldsDefinition, FieldsDefinition.canonical,
      directives_canonicalDirectives, Function.comp_def]
  | union a =>
    simp [canonical, print, Printing.union, UnionDefinition.canonical,
      directives_canonicalDirectives]
  | type a =>
    simp [canonical, print, Printing.type, TypeDefinition.canonical,
      directives_canonicalDirectives, Function.comp_def]

/-- Spans are not printed. -/
theorem print_withoutSpans (unit : String) (block : Block) :
    (withoutSpans block).print unit = block.print unit := by
  cases block with
  | interface a | input a | type a =>
    simp only [print, withoutSpans, Printing.fieldsDefinition, Printing.type, List.map_map]
    rfl
  | _ => rfl

end Block

/-! ## The types that serve operations -/

namespace Document

theorem servingName_withoutSpans (d : Document) (operation : RootOperation) :
    (withoutSpans d).servingName operation = d.servingName operation := by
  rcases d with ⟨blocks, _⟩
  cases blocks <;> cases operation <;> rfl

/-- A block that is left out names no root type. -/
theorem servingName_canonical {d : Document} (h : d.schemaBlocks.length ≤ 1)
    (operation : RootOperation) : d.canonical.servingName operation = d.servingName operation := by
  match hblocks : d.schemaBlocks with
  | [] => simp [servingName, canonical, hblocks]
  | [block] =>
    by_cases hroot : block.hasRootTypes = true
    · simp only [servingName, canonical, hblocks, List.filter_cons_of_pos hroot]
      cases operation <;> rfl
    · have hnone : block.rootType? operation = none := by
        simp only [SchemaBlock.hasRootTypes, List.any_eq_true, not_exists, not_and,
          Bool.not_eq_true, Option.isSome_eq_false_iff, Option.isNone_iff_eq_none] at hroot
        exact hroot operation operation.mem_all
      simp [servingName, canonical, hblocks, List.filter_cons_of_neg hroot, hnone]
  | _ :: _ :: _ => simp [hblocks] at h

/-! ## Printing -/

theorem definitions_withoutSpans (d : Document) :
    (withoutSpans d).printed.definitions = d.printed.definitions.map withoutSpans := by
  have htypes : (withoutSpans d).typesInOrder = d.typesInOrder.map withoutSpans :=
    typesInOrder_map (fun _ => rfl) rfl (servingName_withoutSpans d)
  have hblocks : ((withoutSpans d).schemaBlocks.take 1).filter SchemaBlock.hasRootTypes =
      ((d.schemaBlocks.take 1).filter SchemaBlock.hasRootTypes).map withoutSpans := by
    show ((d.schemaBlocks.map withoutSpans).take 1).filter _ = _
    rw [← List.map_take, List.filter_map]
    rfl
  simp only [definitions, printed, htypes, hblocks, List.map_append, List.map_map]
  simp only [withoutSpans, List.map_map, Function.comp_def]

/-- **Spans are not printed.** -/
theorem print_withoutSpans (unit : String) (d : Document) :
    (withoutSpans d).print unit = d.print unit := by
  rw [print, print, blocks_eq, blocks_eq, definitions_withoutSpans, List.map_map]
  simp only [Function.comp_def, Block.print_withoutSpans]

theorem definitions_printed_canonical {d : Document} (h : d.schemaBlocks.length ≤ 1) :
    d.canonical.printed.definitions = d.printed.definitions.map Block.canonical := by
  have htypes : d.canonical.typesInOrder = d.typesInOrder.map TypeDefinition.canonical := by
    have hmap := @typesInOrder_map { d with types := d.typesInOrder } d.canonical
      TypeDefinition.canonical (fun _ => rfl) rfl (servingName_canonical h)
    rwa [typesInOrder_typesInOrder] at hmap
  have hblocks : (d.canonical.schemaBlocks.take 1).filter SchemaBlock.hasRootTypes =
      ((d.schemaBlocks.take 1).filter SchemaBlock.hasRootTypes).map SchemaBlock.canonical := by
    have hfilter := Nat.le_trans (List.length_filter_le SchemaBlock.hasRootTypes _) h
    rw [List.take_of_length_le h, canonical, List.take_of_length_le (by simpa using hfilter),
      List.filter_map]
    congr 1
    exact List.filter_eq_self.2 fun block hblock => (List.mem_filter.1 hblock).2
  simp only [definitions, printed, htypes, hblocks, List.map_append, List.map_map]
  simp only [canonical, Block.canonical, List.map_map, Function.comp_def]

/-- **A document is printed as its canonical form is.** -/
theorem print_canonical (unit : String) {d : Document} (h : d.schemaBlocks.length ≤ 1) :
    d.canonical.print unit = d.print unit := by
  rw [print, print, blocks_eq, blocks_eq, definitions_printed_canonical h, List.map_map]
  simp only [Function.comp_def, Block.print_canonical]

end Document

/-! ## Merged documents -/

theorem Field.directiveLists_canonical (f : Field) :
    f.canonical.directiveLists = f.directiveLists.map canonicalDirectives := by
  simp [directiveLists, canonical, Argument.canonical, Function.comp_def]

theorem DirectiveDefinition.directiveLists_canonical (d : DirectiveDefinition) :
    d.canonical.directiveLists = d.directiveLists.map canonicalDirectives := by
  simp [directiveLists, canonical, Argument.canonical, Function.comp_def]

theorem EnumDefinition.directiveLists_canonical (d : EnumDefinition) :
    d.canonical.directiveLists = d.directiveLists.map canonicalDirectives := by
  simp [directiveLists, canonical, EnumValue.canonical, Function.comp_def]

theorem FieldsDefinition.directiveLists_canonical (d : FieldsDefinition) :
    d.canonical.directiveLists = d.directiveLists.map canonicalDirectives := by
  simp [directiveLists, canonical, List.flatMap_map, List.map_flatMap,
    Field.directiveLists_canonical]

theorem TypeDefinition.directiveLists_canonical (d : TypeDefinition) :
    d.canonical.directiveLists = d.directiveLists.map canonicalDirectives := by
  simp [directiveLists, canonical, List.flatMap_map, List.map_flatMap,
    Field.directiveLists_canonical]

namespace Document

theorem directiveLists_withoutSpans (d : Document) :
    (withoutSpans d).directiveLists = d.directiveLists := by
  have hfields (fields : List Field) : (fields.map withoutSpans).flatMap Field.directiveLists =
      fields.flatMap Field.directiveLists := List.flatMap_map ..
  have hdefinition (a : FieldsDefinition) : (withoutSpans a).directiveLists = a.directiveLists :=
    congrArg (a.directives :: ·) (hfields a.fields)
  have htype (a : TypeDefinition) : (withoutSpans a).directiveLists = a.directiveLists :=
    congrArg (a.directives :: ·) (hfields a.fields)
  simp only [directiveLists]
  show (d.directiveDefinitions.map withoutSpans).flatMap DirectiveDefinition.directiveLists ++
    (d.scalars.map withoutSpans).map ScalarDefinition.directives ++
    (d.enums.map withoutSpans).flatMap EnumDefinition.directiveLists ++
    (d.interfaces.map withoutSpans).flatMap FieldsDefinition.directiveLists ++
    (d.unions.map withoutSpans).map UnionDefinition.directives ++
    (d.inputs.map withoutSpans).flatMap FieldsDefinition.directiveLists ++
    (d.types.map withoutSpans).flatMap TypeDefinition.directiveLists = _
  simp only [List.flatMap_map, List.map_map, hdefinition, htype]
  rfl

/-- Forgetting spans neither makes a document merged nor unmerged. -/
theorem merged_withoutSpans {d : Document} : (withoutSpans d).Merged ↔ d.Merged := by
  have hnames {α : Type} [Spanned α] {name : α → String}
      (h : ∀ a, name (withoutSpans a) = name a) (as : List α) :
      ((as.map withoutSpans).map name).Nodup ↔ (as.map name).Nodup := by
    simp only [List.map_map, Function.comp_def, h]
  have hextensions : (∀ t ∈ (withoutSpans d).types, t.isExtension = false) ↔
      ∀ t ∈ d.types, t.isExtension = false := List.forall_mem_map
  have hlists := directiveLists_withoutSpans d
  constructor
  · rintro ⟨hb, hd, hs, he, hi, hu, hn, ht, hx, hl⟩
    exact ⟨by simpa [withoutSpans] using hb, (hnames (fun _ => rfl) _).1 hd,
      (hnames (fun _ => rfl) _).1 hs, (hnames (fun _ => rfl) _).1 he,
      (hnames (fun _ => rfl) _).1 hi, (hnames (fun _ => rfl) _).1 hu,
      (hnames (fun _ => rfl) _).1 hn, (hnames (fun _ => rfl) _).1 ht, hextensions.1 hx, hlists ▸ hl⟩
  · rintro ⟨hb, hd, hs, he, hi, hu, hn, ht, hx, hl⟩
    exact ⟨by simpa [withoutSpans] using hb, (hnames (fun _ => rfl) _).2 hd,
      (hnames (fun _ => rfl) _).2 hs, (hnames (fun _ => rfl) _).2 he,
      (hnames (fun _ => rfl) _).2 hi, (hnames (fun _ => rfl) _).2 hu,
      (hnames (fun _ => rfl) _).2 hn, (hnames (fun _ => rfl) _).2 ht, hextensions.2 hx, hlists ▸ hl⟩

theorem forall_mem_directiveLists_canonical {d : Document} {good : List Directive → Prop}
    (h : ∀ l ∈ d.directiveLists, good (canonicalDirectives l)) :
    ∀ l ∈ d.canonical.directiveLists, good l := by
  simp only [directiveLists, List.forall_mem_append, List.forall_mem_flatMap, List.forall_mem_map,
    canonical, DirectiveDefinition.directiveLists_canonical,
    EnumDefinition.directiveLists_canonical, FieldsDefinition.directiveLists_canonical,
    TypeDefinition.directiveLists_canonical, mem_typesInOrder] at h ⊢
  exact h

/-- **A merged document stays merged in canonical form.** -/
theorem Merged.canonical {d : Document} (h : d.Merged) : d.canonical.Merged := by
  have hnames {α : Type} {name : α → String} (f : α → α) (hf : ∀ a, name (f a) = name a)
      {as : List α} (has : (as.map name).Nodup) : ((as.map f).map name).Nodup := by
    simpa only [List.map_map, Function.comp_def, hf] using has
  have htypes : (d.typesInOrder.map TypeDefinition.name).Nodup :=
    (d.perm_typesInOrder.map TypeDefinition.name).nodup_iff.2 h.types
  exact
    { schemaBlocks := by
        simpa [Document.canonical] using
          Nat.le_trans (List.length_filter_le SchemaBlock.hasRootTypes _) h.schemaBlocks
      directiveDefinitions :=
        hnames DirectiveDefinition.canonical (fun _ => rfl) h.directiveDefinitions
      scalars := hnames ScalarDefinition.canonical (fun _ => rfl) h.scalars
      enums := hnames EnumDefinition.canonical (fun _ => rfl) h.enums
      interfaces := hnames FieldsDefinition.canonical (fun _ => rfl) h.interfaces
      unions := hnames UnionDefinition.canonical (fun _ => rfl) h.unions
      inputs := hnames FieldsDefinition.canonical (fun _ => rfl) h.inputs
      types := hnames TypeDefinition.canonical (fun _ => rfl) htypes
      extensions := List.forall_mem_map.2 fun t ht => h.extensions t (mem_typesInOrder.1 ht)
      directiveLists := forall_mem_directiveLists_canonical fun l hl =>
        distinctNames_canonicalDirectives (h.directiveLists l hl) }

end Document

end SchemaMerge
