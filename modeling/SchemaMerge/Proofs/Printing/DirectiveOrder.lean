import Mathlib.Data.List.Forall2
import Mathlib.Data.List.Nodup
import SchemaMerge.Proofs.RoundTrip.Invariance

/-!
# The order of directives is not printed

Directives are printed from the last name to the first. Two documents that differ only in the order
in which their nodes apply directives (`Document.Reorders`) are therefore printed alike, as long as
no node applies a directive twice. Nothing else in the layout looks at the order: the documents have
one canonical form, node by node, and a node is printed as its canonical form is.

## Results

* `canonicalDirectives_of_perm`: directives of distinct names have one canonical order.
* `Document.print_eq_of_reorders`: documents that differ in the order of directives are printed
  alike.
-/

namespace SchemaMerge

/-! ## One list -/

/-- Sorting by name leaves no choice where each name occurs once. -/
theorem canonicalDirectives_of_perm {ds es : List Directive} (h : ds.Perm es)
    (hds : DistinctNames ds) : canonicalDirectives ds = canonicalDirectives es := by
  have hperm : (canonicalDirectives ds).Perm (canonicalDirectives es) :=
    (List.mergeSort_perm _ _).trans
      ((h.map Directive.skeleton).trans (List.mergeSort_perm _ _).symm)
  refine List.Perm.eq_of_pairwise (fun a b ha hb hab hba => ?_) (pairwise_canonicalDirectives ds)
    (pairwise_canonicalDirectives es) hperm
  -- Two directives that may stand in either order have one name, so they are one application.
  have hname : a.name = b.name :=
    String.le_antisymm (of_decide_eq_true hba) (of_decide_eq_true hab)
  exact List.inj_on_of_nodup_map (distinctNames_canonicalDirectives hds) ha
    (hperm.mem_iff.2 hb) hname

/-! ## Nodes with their directives in another order -/

/-- The second argument is the first with its directives in some order. -/
structure Argument.Reorders (a b : Argument) : Prop where
  directives : a.directives.Perm b.directives
  rest : b = { a with directives := b.directives }

/-- The second field is the first with its directives and those of its arguments in some order. -/
structure Field.Reorders (a b : Field) : Prop where
  arguments : List.Forall₂ Argument.Reorders a.arguments b.arguments
  directives : a.directives.Perm b.directives
  rest : b = { a with arguments := b.arguments, directives := b.directives }

/-- The second enum value is the first with its directives in some order. -/
structure EnumValue.Reorders (a b : EnumValue) : Prop where
  directives : a.directives.Perm b.directives
  rest : b = { a with directives := b.directives }

/-- The second definition is the first with the directives of its arguments in some order. -/
structure DirectiveDefinition.Reorders (a b : DirectiveDefinition) : Prop where
  arguments : List.Forall₂ Argument.Reorders a.arguments b.arguments
  rest : b = { a with arguments := b.arguments }

/-- The second scalar is the first with its directives in some order. -/
structure ScalarDefinition.Reorders (a b : ScalarDefinition) : Prop where
  directives : a.directives.Perm b.directives
  rest : b = { a with directives := b.directives }

/-- The second enum is the first with its directives and those of its values in some order. -/
structure EnumDefinition.Reorders (a b : EnumDefinition) : Prop where
  values : List.Forall₂ EnumValue.Reorders a.values b.values
  directives : a.directives.Perm b.directives
  rest : b = { a with values := b.values, directives := b.directives }

/-- The second interface or input is the first with its directives and those of all in it in some
order. -/
structure FieldsDefinition.Reorders (a b : FieldsDefinition) : Prop where
  fields : List.Forall₂ Field.Reorders a.fields b.fields
  directives : a.directives.Perm b.directives
  rest : b = { a with fields := b.fields, directives := b.directives }

/-- The second union is the first with its directives in some order. -/
structure UnionDefinition.Reorders (a b : UnionDefinition) : Prop where
  directives : a.directives.Perm b.directives
  rest : b = { a with directives := b.directives }

/-- The second type is the first with its directives and those of all in it in some order. -/
structure TypeDefinition.Reorders (a b : TypeDefinition) : Prop where
  fields : List.Forall₂ Field.Reorders a.fields b.fields
  directives : a.directives.Perm b.directives
  rest : b = { a with fields := b.fields, directives := b.directives }

/-- The second document is the first with the directives of each node in some order. -/
structure Document.Reorders (d e : Document) : Prop where
  schemaBlocks : d.schemaBlocks = e.schemaBlocks
  directiveDefinitions :
    List.Forall₂ DirectiveDefinition.Reorders d.directiveDefinitions e.directiveDefinitions
  scalars : List.Forall₂ ScalarDefinition.Reorders d.scalars e.scalars
  enums : List.Forall₂ EnumDefinition.Reorders d.enums e.enums
  interfaces : List.Forall₂ FieldsDefinition.Reorders d.interfaces e.interfaces
  unions : List.Forall₂ UnionDefinition.Reorders d.unions e.unions
  inputs : List.Forall₂ FieldsDefinition.Reorders d.inputs e.inputs
  types : List.Forall₂ TypeDefinition.Reorders d.types e.types

/-! ## One canonical form -/

/-- Lists have one image under a function that does not tell related members apart. -/
theorem map_eq_of_forall₂ {α β : Type} {related : α → α → Prop} {f : α → β} {as bs : List α}
    (h : List.Forall₂ related as bs) (hf : ∀ a ∈ as, ∀ b, related a b → f a = f b) :
    as.map f = bs.map f := by
  induction h with
  | nil => rfl
  | @cons a b as bs hab _ ih =>
    rw [List.map_cons, List.map_cons, hf a List.mem_cons_self b hab,
      ih fun c hc => hf c (List.mem_cons_of_mem _ hc)]

theorem Argument.Reorders.canonical_eq {a b : Argument} (h : a.Reorders b)
    (ha : DistinctNames a.directives) : a.canonical = b.canonical := by
  rw [h.rest]
  simp only [canonical, canonicalDirectives_of_perm h.directives ha]

theorem EnumValue.Reorders.canonical_eq {a b : EnumValue} (h : a.Reorders b)
    (ha : DistinctNames a.directives) : a.canonical = b.canonical := by
  rw [h.rest]
  simp only [canonical, canonicalDirectives_of_perm h.directives ha]

theorem map_canonical_arguments {as bs : List Argument}
    (h : List.Forall₂ Argument.Reorders as bs)
    (has : ∀ l ∈ as.map Argument.directives, DistinctNames l) :
    as.map Argument.canonical = bs.map Argument.canonical :=
  map_eq_of_forall₂ h fun _ ha _ hab => hab.canonical_eq (has _ (List.mem_map_of_mem ha))

theorem Field.Reorders.canonical_eq {a b : Field} (h : a.Reorders b)
    (ha : ∀ l ∈ a.directiveLists, DistinctNames l) : a.canonical = b.canonical := by
  obtain ⟨hdirectives, harguments⟩ := List.forall_mem_cons.1 ha
  rw [h.rest]
  simp only [canonical, canonicalDirectives_of_perm h.directives hdirectives,
    map_canonical_arguments h.arguments harguments]

theorem map_canonical_fields {as bs : List Field} (h : List.Forall₂ Field.Reorders as bs)
    (has : ∀ l ∈ as.flatMap Field.directiveLists, DistinctNames l) :
    as.map Field.canonical = bs.map Field.canonical :=
  map_eq_of_forall₂ h fun _ ha _ hab =>
    hab.canonical_eq fun l hl => has l (List.mem_flatMap_of_mem ha hl)

theorem DirectiveDefinition.Reorders.canonical_eq {a b : DirectiveDefinition} (h : a.Reorders b)
    (ha : ∀ l ∈ a.directiveLists, DistinctNames l) : a.canonical = b.canonical := by
  rw [h.rest]
  simp only [canonical, map_canonical_arguments h.arguments ha]

theorem ScalarDefinition.Reorders.canonical_eq {a b : ScalarDefinition} (h : a.Reorders b)
    (ha : DistinctNames a.directives) : a.canonical = b.canonical := by
  rw [h.rest]
  simp only [canonical, canonicalDirectives_of_perm h.directives ha]

theorem EnumDefinition.Reorders.canonical_eq {a b : EnumDefinition} (h : a.Reorders b)
    (ha : ∀ l ∈ a.directiveLists, DistinctNames l) : a.canonical = b.canonical := by
  obtain ⟨hdirectives, hlists⟩ := List.forall_mem_cons.1 ha
  have hvalues : a.values.map EnumValue.canonical = b.values.map EnumValue.canonical :=
    map_eq_of_forall₂ h.values fun v hv _ hvw =>
      hvw.canonical_eq (hlists _ (List.mem_map_of_mem hv))
  rw [h.rest]
  simp only [canonical, canonicalDirectives_of_perm h.directives hdirectives, hvalues]

theorem FieldsDefinition.Reorders.canonical_eq {a b : FieldsDefinition} (h : a.Reorders b)
    (ha : ∀ l ∈ a.directiveLists, DistinctNames l) : a.canonical = b.canonical := by
  obtain ⟨hdirectives, hlists⟩ := List.forall_mem_cons.1 ha
  rw [h.rest]
  simp only [canonical, canonicalDirectives_of_perm h.directives hdirectives,
    map_canonical_fields h.fields hlists]

theorem UnionDefinition.Reorders.canonical_eq {a b : UnionDefinition} (h : a.Reorders b)
    (ha : DistinctNames a.directives) : a.canonical = b.canonical := by
  rw [h.rest]
  simp only [canonical, canonicalDirectives_of_perm h.directives ha]

theorem TypeDefinition.Reorders.canonical_eq {a b : TypeDefinition} (h : a.Reorders b)
    (ha : ∀ l ∈ a.directiveLists, DistinctNames l) : a.canonical = b.canonical := by
  obtain ⟨hdirectives, hlists⟩ := List.forall_mem_cons.1 ha
  rw [h.rest]
  simp only [canonical, canonicalDirectives_of_perm h.directives hdirectives,
    map_canonical_fields h.fields hlists]

/-! ## Documents -/

namespace Document

/-- Types that have one canonical form have it in one order, if the same types serve the root
operations. -/
theorem map_canonical_typesInOrder {d e : Document}
    (hblocks : d.schemaBlocks = e.schemaBlocks)
    (htypes : d.types.map TypeDefinition.canonical = e.types.map TypeDefinition.canonical) :
    d.typesInOrder.map TypeDefinition.canonical = e.typesInOrder.map TypeDefinition.canonical :=
  map_typesInOrder_congr (fun _ => rfl) htypes fun operation => by
    rw [servingName, hblocks, ← servingName]

/-- **The order of directives is not seen in print**, if no list applies a directive twice. -/
theorem print_eq_of_reorders {d e : Document} (h : d.Reorders e)
    (hd : ∀ l ∈ d.directiveLists, DistinctNames l) (unit : String) :
    d.print unit = e.print unit := by
  simp only [directiveLists, List.forall_mem_append, List.forall_mem_flatMap,
    List.forall_mem_map] at hd
  obtain ⟨⟨⟨⟨⟨⟨hdirectives, hscalars⟩, henums⟩, hinterfaces⟩, hunions⟩, hinputs⟩, htypes⟩ := hd
  have hdirectives := map_eq_of_forall₂ h.directiveDefinitions fun a ha _ hab =>
    hab.canonical_eq (hdirectives a ha)
  have hscalars := map_eq_of_forall₂ h.scalars fun a ha _ hab => hab.canonical_eq (hscalars a ha)
  have henums := map_eq_of_forall₂ h.enums fun a ha _ hab => hab.canonical_eq (henums a ha)
  have hinterfaces := map_eq_of_forall₂ h.interfaces fun a ha _ hab =>
    hab.canonical_eq (hinterfaces a ha)
  have hunions := map_eq_of_forall₂ h.unions fun a ha _ hab => hab.canonical_eq (hunions a ha)
  have hinputs := map_eq_of_forall₂ h.inputs fun a ha _ hab => hab.canonical_eq (hinputs a ha)
  have htypes := map_canonical_typesInOrder h.schemaBlocks
    (map_eq_of_forall₂ h.types fun a ha _ hab => hab.canonical_eq (htypes a ha))
  have hblocks : d.printed.definitions.map Block.canonical =
      e.printed.definitions.map Block.canonical := by
    have hlift {α β : Type} {f : α → α} {as bs : List α} (g : α → β)
        (hmap : as.map f = bs.map f) : as.map (fun a => g (f a)) = bs.map fun a => g (f a) := by
      simpa only [List.map_map, Function.comp_def] using congrArg (List.map g) hmap
    simp only [definitions, printed, h.schemaBlocks, List.map_append, List.map_map,
      Function.comp_def, Block.canonical, hlift Block.directive hdirectives,
      hlift Block.scalar hscalars, hlift Block.enum henums, hlift Block.interface hinterfaces,
      hlift Block.union hunions, hlift Block.input hinputs, hlift Block.type htypes]
  have hprint (c : Document) : c.blocks unit =
      (c.printed.definitions.map Block.canonical).map (Block.print unit) := by
    rw [blocks_eq, List.map_map]
    exact List.map_congr_left fun block _ => (block.print_canonical unit).symm
  rw [print, print, hprint, hprint, hblocks]

/-- A type whose field, and the argument of it, apply two directives each, and an enum. -/
theorem print_eq_of_reorders_node :
    let key : Directive := ⟨"key", [⟨"fields", ["\"id\""], false⟩], []⟩
    let old : Directive := ⟨"old", [], ["# why"]⟩
    let document := fun (directives : List Directive) (others : List Directive) =>
      { Document.empty with
        types := [⟨"Node", [], [⟨"id", [⟨"raw", .named "Boolean" true, none, directives, []⟩],
          .named "ID" false, none, others, [], [], default⟩], directives, [], [], false, default⟩]
        enums := [⟨"Kind", [⟨"LEAF", others, [], []⟩], directives, [], [], default⟩] }
    (document [key, old] [old, key]).Reorders (document [old, key] [key, old]) ∧
      (∀ l ∈ (document [key, old] [old, key]).directiveLists, DistinctNames l) ∧
      (document [key, old] [old, key]).print "  " =
        (document [old, key] [key, old]).print "  " := by
  intro key old document
  have hswap : ([key, old] : List Directive).Perm [old, key] := .swap old key []
  have harguments : List.Forall₂ Argument.Reorders
      [⟨"raw", .named "Boolean" true, none, [key, old], []⟩]
      [⟨"raw", .named "Boolean" true, none, [old, key], []⟩] := .cons ⟨hswap, rfl⟩ .nil
  have hreorders : (document [key, old] [old, key]).Reorders (document [old, key] [key, old]) :=
    { schemaBlocks := rfl
      directiveDefinitions := .nil
      scalars := .nil
      enums := .cons ⟨.cons ⟨hswap.symm, rfl⟩ .nil, hswap, rfl⟩ .nil
      interfaces := .nil
      unions := .nil
      inputs := .nil
      types := .cons ⟨.cons ⟨harguments, hswap.symm, rfl⟩ .nil, hswap, rfl⟩ .nil }
  have hdistinct : ∀ l ∈ (document [key, old] [old, key]).directiveLists, DistinctNames l := by
    unfold DistinctNames
    decide
  exact ⟨hreorders, hdistinct, print_eq_of_reorders hreorders hdistinct "  "⟩

end Document

end SchemaMerge
