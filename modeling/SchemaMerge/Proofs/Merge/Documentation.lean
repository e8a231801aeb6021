import Mathlib.Algebra.BigOperators.Group.Multiset.Basic
import Mathlib.Algebra.Order.Group.Multiset
import Mathlib.Tactic.Abel
import SchemaMerge.Proofs.Merge.Documents

/-!
# Merging keeps all documentation

`texts` counts the descriptions, or the comments, of a node and of all in it. Normal forms keep the
count, and absorption adds the counts of both nodes: the lists that it pairs are equally long, since
the nodes have the same skeleton. So whatever is combined while items are put into a list, the count
of the list grows by that of the item (`textsOf_insertAll`). What a definition itself is documented
with keeps its order too: it is what the definitions of its name are documented with, one after the
other (`own_of_combined`).

Results:
* `documentation_of_merge`: a merged document has the documentation of all documents, and each
  definition that of all definitions of its name.
-/

namespace SchemaMerge

/-! ## Texts -/

/-- The two kinds of texts that document a node. -/
inductive TextKind
  | description | comment
deriving DecidableEq, Inhabited

/-- A kind of node that is documented, and may have documented nodes in it. -/
class Documented (α : Type) where
  /-- The texts of the node itself, in order. -/
  own : TextKind → α → List String
  /-- The texts of the node and of all in it. -/
  texts : TextKind → α → Multiset String

export Documented (own texts)

/-- The texts of all nodes of a list. -/
def textsOf {α : Type} [Documented α] (kind : TextKind) (as : List α) : Multiset String :=
  (as.map (texts kind)).sum

/-- Of the descriptions and the comments of a node those of one kind. -/
def TextKind.pick (descriptions comments : List String) : TextKind → List String
  | .description => descriptions
  | .comment => comments

theorem TextKind.pick_append (kind : TextKind) (ds cs es fs : List String) :
    kind.pick (ds ++ es) (cs ++ fs) = kind.pick ds cs ++ kind.pick es fs := by
  cases kind <;> rfl

instance : Documented Directive where
  own kind d := kind.pick d.descriptions []
  texts kind d := kind.pick d.descriptions []

instance : Documented Argument where
  own kind a := kind.pick a.descriptions []
  texts kind a := kind.pick a.descriptions [] + textsOf kind a.directives

instance : Documented Field where
  own kind f := kind.pick f.descriptions f.comments
  texts kind f :=
    kind.pick f.descriptions f.comments + textsOf kind f.arguments + textsOf kind f.directives

instance : Documented EnumValue where
  own kind v := kind.pick v.descriptions v.comments
  texts kind v := kind.pick v.descriptions v.comments + textsOf kind v.directives

instance : Documented SchemaBlock where
  own kind b := kind.pick b.descriptions []
  texts kind b := kind.pick b.descriptions []

instance : Documented DirectiveDefinition where
  own kind d := kind.pick d.descriptions d.comments
  texts kind d := kind.pick d.descriptions d.comments + textsOf kind d.arguments

instance : Documented ScalarDefinition where
  own kind d := kind.pick d.descriptions d.comments
  texts kind d := kind.pick d.descriptions d.comments + textsOf kind d.directives

instance : Documented EnumDefinition where
  own kind d := kind.pick d.descriptions d.comments
  texts kind d :=
    kind.pick d.descriptions d.comments + textsOf kind d.values + textsOf kind d.directives

instance : Documented FieldsDefinition where
  own kind d := kind.pick d.descriptions d.comments
  texts kind d :=
    kind.pick d.descriptions d.comments + textsOf kind d.fields + textsOf kind d.directives

instance : Documented UnionDefinition where
  own kind d := kind.pick d.descriptions d.comments
  texts kind d := kind.pick d.descriptions d.comments + textsOf kind d.directives

instance : Documented TypeDefinition where
  own kind d := kind.pick d.descriptions d.comments
  texts kind d :=
    kind.pick d.descriptions d.comments + textsOf kind d.fields + textsOf kind d.directives

instance : Documented Document where
  own _ _ := []
  texts kind d :=
    textsOf kind d.schemaBlocks + textsOf kind d.directiveDefinitions + textsOf kind d.scalars +
      textsOf kind d.enums + textsOf kind d.interfaces + textsOf kind d.unions +
      textsOf kind d.inputs + textsOf kind d.types

section TextsOf

variable {α : Type} [Documented α] {kind : TextKind}

@[simp] theorem textsOf_nil : textsOf kind ([] : List α) = 0 := rfl

@[simp] theorem textsOf_cons (a : α) (as : List α) :
    textsOf kind (a :: as) = texts kind a + textsOf kind as := by
  simp [textsOf]

@[simp] theorem textsOf_append (as bs : List α) :
    textsOf kind (as ++ bs) = textsOf kind as + textsOf kind bs := by
  simp [textsOf]

/-- The order of nodes makes no difference to their texts. -/
theorem textsOf_perm {as bs : List α} (h : as.Perm bs) : textsOf kind as = textsOf kind bs :=
  (h.map _).sum_eq

theorem textsOf_flatMap {β : Type} (part : β → List α) (bs : List β) :
    textsOf kind (bs.flatMap part) = (bs.map fun b => textsOf kind (part b)).sum := by
  induction bs with
  | nil => rfl
  | cons b bs ih => simp [ih]

end TextsOf

/-! ## Directives -/

section Directives

variable {kind : TextKind}

/-- A directive takes over the texts of the one that it absorbs. -/
theorem texts_absorb_directive (d e : Directive) :
    texts kind (d.absorb e) = texts kind d + texts kind e := by
  cases kind <;> rfl

theorem textsOf_addDirective (ds : List Directive) (d : Directive) :
    textsOf kind (addDirective ds d) = textsOf kind ds + texts kind d := by
  induction ds with
  | nil => simp [addDirective]
  | cons first rest ih =>
    unfold addDirective
    split
    · rw [textsOf_cons, textsOf_cons, texts_absorb_directive]
      abel
    · rw [textsOf_cons, textsOf_cons, ih, add_assoc]

theorem textsOf_mergeDirectives (into incoming : List Directive) :
    textsOf kind (mergeDirectives into incoming) = textsOf kind into + textsOf kind incoming := by
  unfold mergeDirectives
  induction incoming generalizing into with
  | nil => simp
  | cons d ds ih => rw [List.foldl_cons, ih, textsOf_addDirective, textsOf_cons, add_assoc]

/-- Combining repeated directives loses no text. -/
theorem textsOf_combineRepeated (ds : List Directive) :
    textsOf kind (combineRepeated ds) = textsOf kind ds := by
  rw [combineRepeated, textsOf_mergeDirectives, textsOf_nil, zero_add]

end Directives

/-! ## Normal form and absorption -/

/-- A kind of node whose normal form and absorption neither lose nor invent texts. -/
class LawfulDocumented (α : Type) [Node α] [LawfulNode α] [Documented α] : Prop where
  own_normalize (kind : TextKind) (a : α) : own kind (normalize a) = own kind a
  own_absorb (kind : TextKind) (a b : α) : own kind (absorb a b) = own kind a ++ own kind b
  texts_normalize (kind : TextKind) (a : α) : texts kind (normalize a) = texts kind a
  texts_absorb (kind : TextKind) {a b : α} (h : skeleton a = skeleton b) :
    texts kind (absorb a b) = texts kind a + texts kind b

section Lists

variable {α : Type} [Node α] [LawfulNode α] [Documented α] [LawfulDocumented α] (kind : TextKind)

/-- Neither does normalizing. -/
theorem textsOf_map_normalize (as : List α) :
    textsOf kind (as.map normalize) = textsOf kind as := by
  simp only [textsOf, List.map_map, Function.comp_def, LawfulDocumented.texts_normalize]

/-- Lists that are paired lose nothing, being equally long. -/
theorem textsOf_absorbPairwise {as bs : List α} (h : as.map skeleton = bs.map skeleton) :
    textsOf kind (absorbPairwise as bs) = textsOf kind as + textsOf kind bs := by
  induction as generalizing bs with
  | nil =>
    cases bs with
    | nil => rfl
    | cons b bs => simp at h
  | cons a as ih =>
    cases bs with
    | nil => simp at h
    | cons b bs =>
      simp only [List.map_cons, List.cons.injEq] at h
      simp only [absorbPairwise, textsOf_cons, LawfulDocumented.texts_absorb kind h.1, ih h.2]
      abel

end Lists

instance : LawfulDocumented Argument where
  own_normalize _ _ := rfl
  own_absorb kind _ _ := by cases kind <;> rfl
  texts_normalize _ a := by simp [texts, normalize, textsOf_combineRepeated]
  texts_absorb kind a b _ := by
    have hown := kind.pick_append a.descriptions [] b.descriptions []
    rw [List.append_nil] at hown
    simp only [texts, absorb, hown, textsOf_mergeDirectives, ← Multiset.coe_add]
    abel

instance : LawfulDocumented Field where
  own_normalize _ _ := rfl
  own_absorb kind _ _ := by cases kind <;> rfl
  texts_normalize kind a := by
    show (kind.pick a.descriptions a.comments : Multiset String) +
      textsOf kind (a.arguments.map normalize) + textsOf kind (combineRepeated a.directives) = _
    rw [textsOf_map_normalize, textsOf_combineRepeated]
    rfl
  texts_absorb kind a b h := by
    have hargs : a.arguments.map skeleton = b.arguments.map skeleton := congrArg Field.arguments h
    simp only [texts, absorb, kind.pick_append, textsOf_mergeDirectives,
      textsOf_absorbPairwise kind hargs, ← Multiset.coe_add]
    abel

instance : LawfulDocumented EnumValue where
  own_normalize _ _ := rfl
  own_absorb kind _ _ := by cases kind <;> rfl
  texts_normalize _ a := by simp [texts, normalize, textsOf_combineRepeated]
  texts_absorb kind a b _ := by
    simp only [texts, absorb, kind.pick_append, textsOf_mergeDirectives, ← Multiset.coe_add]
    abel

instance : LawfulDocumented DirectiveDefinition where
  own_normalize _ _ := rfl
  own_absorb kind _ _ := by cases kind <;> rfl
  texts_normalize kind a := by
    show (kind.pick a.descriptions a.comments : Multiset String) +
      textsOf kind (a.arguments.map normalize) = _
    rw [textsOf_map_normalize]
    rfl
  texts_absorb kind a b h := by
    have hargs : a.arguments.map skeleton = b.arguments.map skeleton :=
      congrArg DirectiveDefinition.arguments h
    simp only [texts, absorb, kind.pick_append, textsOf_absorbPairwise kind hargs,
      ← Multiset.coe_add]
    abel

instance : LawfulDocumented ScalarDefinition where
  own_normalize _ _ := rfl
  own_absorb kind _ _ := by cases kind <;> rfl
  texts_normalize _ a := by simp [texts, normalize, textsOf_combineRepeated]
  texts_absorb kind a b _ := by
    simp only [texts, absorb, kind.pick_append, textsOf_mergeDirectives, ← Multiset.coe_add]
    abel

instance : LawfulDocumented EnumDefinition where
  own_normalize _ _ := rfl
  own_absorb kind _ _ := by cases kind <;> rfl
  texts_normalize kind a := by
    show (kind.pick a.descriptions a.comments : Multiset String) +
      textsOf kind (a.values.map normalize) + textsOf kind (combineRepeated a.directives) = _
    rw [textsOf_map_normalize, textsOf_combineRepeated]
    rfl
  texts_absorb kind a b h := by
    have hvalues : a.values.map skeleton = b.values.map skeleton :=
      congrArg EnumDefinition.values h
    simp only [texts, absorb, kind.pick_append, textsOf_mergeDirectives,
      textsOf_absorbPairwise kind hvalues, ← Multiset.coe_add]
    abel

instance : LawfulDocumented FieldsDefinition where
  own_normalize _ _ := rfl
  own_absorb kind _ _ := by cases kind <;> rfl
  texts_normalize kind a := by
    show (kind.pick a.descriptions a.comments : Multiset String) +
      textsOf kind (a.fields.map normalize) + textsOf kind (combineRepeated a.directives) = _
    rw [textsOf_map_normalize, textsOf_combineRepeated]
    rfl
  texts_absorb kind a b h := by
    have hfields : a.fields.map skeleton = b.fields.map skeleton :=
      congrArg FieldsDefinition.fields h
    simp only [texts, absorb, kind.pick_append, textsOf_mergeDirectives,
      textsOf_absorbPairwise kind hfields, ← Multiset.coe_add]
    abel

instance : LawfulDocumented UnionDefinition where
  own_normalize _ _ := rfl
  own_absorb kind _ _ := by cases kind <;> rfl
  texts_normalize _ a := by simp [texts, normalize, textsOf_combineRepeated]
  texts_absorb kind a b _ := by
    simp only [texts, absorb, kind.pick_append, textsOf_mergeDirectives, ← Multiset.coe_add]
    abel

instance : LawfulDocumented TypeDefinition where
  own_normalize _ _ := rfl
  own_absorb kind _ _ := by cases kind <;> rfl
  texts_normalize kind a := by
    show (kind.pick a.descriptions a.comments : Multiset String) +
      textsOf kind (a.fields.map normalize) + textsOf kind (combineRepeated a.directives) = _
    rw [textsOf_map_normalize, textsOf_combineRepeated]
    rfl
  texts_absorb kind a b h := by
    simp only [texts, absorb, kind.pick_append, textsOf_mergeDirectives,
      textsOf_absorbPairwise kind (skeletons_fields h), ← Multiset.coe_add]
    abel

/-! ## Items put into a list -/

section Keyed

variable {α : Type} {key : α → String} {combine : α → α → Except Diagnostic α}
  {fresh : α → Except Diagnostic α}

/-- Letting an item in keeps its texts, and combining two puts the texts of both together. -/
structure KeepsTexts [Documented α] (combine : α → α → Except Diagnostic α)
    (fresh : α → Except Diagnostic α) : Prop where
  own_fresh : ∀ {kind a b}, fresh a = .ok b → own kind b = own kind a
  own_combine : ∀ {kind a b c}, combine a b = .ok c → own kind c = own kind a ++ own kind b
  texts_fresh : ∀ {kind a b}, fresh a = .ok b → texts kind b = texts kind a
  texts_combine : ∀ {kind a b c}, combine a b = .ok c → texts kind c = texts kind a + texts kind b

variable [Documented α] {kind : TextKind}

/-- An item that is put into a list brings its texts. -/
theorem textsOf_insertKeyed (hk : KeepsTexts combine fresh) {merged result : List α} {item : α}
    (h : insertKeyed key combine fresh merged item = .ok result) :
    textsOf kind result = textsOf kind merged + texts kind item := by
  induction merged generalizing result with
  | nil =>
    obtain ⟨new, hnew, hr⟩ := except_bind_eq_ok_iff.1 h
    obtain rfl := Except.ok.inj hr
    simp [hk.texts_fresh hnew]
  | cons first rest ih =>
    rw [insertKeyed] at h
    split at h
    · obtain ⟨new, hnew, hr⟩ := except_bind_eq_ok_iff.1 h
      obtain rfl := Except.ok.inj hr
      rw [textsOf_cons, textsOf_cons, hk.texts_combine hnew]
      abel
    · obtain ⟨others, ho, hr⟩ := except_bind_eq_ok_iff.1 h
      obtain rfl := Except.ok.inj hr
      rw [textsOf_cons, textsOf_cons, ih ho, add_assoc]

/-- **A list grows by the texts of all items put into it.** -/
theorem textsOf_insertAll (hk : KeepsTexts combine fresh) {merged items result : List α}
    (h : insertAll key combine fresh merged items = .ok result) :
    textsOf kind result = textsOf kind merged + textsOf kind items := by
  unfold insertAll at h
  induction items generalizing merged with
  | nil =>
    obtain rfl := Except.ok.inj h
    simp
  | cons item items ih =>
    rw [List.foldlM_cons, except_bind_eq_ok_iff] at h
    obtain ⟨middle, hm, hr⟩ := h
    rw [ih hr, textsOf_insertKeyed hk hm, textsOf_cons, add_assoc]

/-- An item's own texts stand before those of the items that are combined with it. -/
theorem own_foldlM (hk : KeepsTexts combine fresh) {items : List α} {start result : α}
    (h : items.foldlM combine start = .ok result) :
    own kind result = own kind start ++ items.flatMap (own kind) := by
  induction items generalizing start with
  | nil =>
    obtain rfl := Except.ok.inj h
    simp
  | cons item items ih =>
    rw [List.foldlM_cons, except_bind_eq_ok_iff] at h
    obtain ⟨middle, hm, hr⟩ := h
    rw [ih hr, hk.own_combine hm, List.flatMap_cons, List.append_assoc]

/-- What items become is documented with their own texts, one after the other. -/
theorem own_of_combined (hk : KeepsTexts combine fresh) {items : List α} {result : α}
    (h : Combined combine fresh items result) : own kind result = items.flatMap (own kind) := by
  cases items with
  | nil => exact h.elim
  | cons first others =>
    obtain ⟨start, hs, hr⟩ := h
    rw [own_foldlM hk hr, hk.own_fresh hs, List.flatMap_cons]

/-- Each of the outputs is documented with the own texts of all inputs of its name, in order. -/
def Gathers [Definition α] (inputs outputs : List α) : Prop :=
  ∀ (kind : TextKind), ∀ a ∈ outputs,
    own kind a = (inputs.filter fun b => Definition.name b = Definition.name a).flatMap (own kind)

end Keyed

section Definitions

variable {α : Type} [Definition α] [LawfulDefinition α] [Documented α] [LawfulDocumented α]

theorem keepsTexts_unifying {category : Category} {label : α → String} :
    KeepsTexts (unifying category label) Except.ok where
  own_fresh h := by rw [Except.ok.inj h]
  own_combine h := by rw [← (unify_eq_ok_iff.1 h).2, LawfulDocumented.own_absorb]
  texts_fresh h := by rw [Except.ok.inj h]
  texts_combine h := by
    obtain ⟨hsame, rfl⟩ := unify_eq_ok_iff.1 h
    exact LawfulDocumented.texts_absorb _ hsame

/-- Definitions in normal form put together gather what the definitions themselves have. -/
theorem gathers_insertAll [Inhabited α] {combine : α → α → Except Diagnostic α}
    {fresh : α → Except Diagnostic α} (hk : KeepsKey Definition.name combine fresh)
    (ht : KeepsTexts combine fresh) {definitions result : List α}
    (h : insertAll Definition.name combine fresh [] (definitions.map normalize) = .ok result) :
    Gathers definitions result := by
  intro kind a ha
  have hown := @own_of_combined _ _ _ _ kind ht _ _ (combined_of_mem_insertAll hk h ha)
  rw [itemsOf_map_normalize, List.flatMap_map] at hown
  simp only [LawfulDocumented.own_normalize] at hown
  exact hown

variable {category : Category} {definitions result : List α}

/-- Uniting definitions of one name loses no text. -/
theorem textsOf_deduplicate {kind : TextKind}
    (h : deduplicate category definitions = .ok result) :
    textsOf kind result = textsOf kind definitions := by
  rw [deduplicate_eq_insertAll] at h
  rw [textsOf_insertAll keepsTexts_unifying h, textsOf_nil, zero_add, textsOf_map_normalize]

theorem gathers_deduplicate [Inhabited α] (h : deduplicate category definitions = .ok result) :
    Gathers definitions result := by
  rw [deduplicate_eq_insertAll] at h
  exact gathers_insertAll keepsKey_unifying keepsTexts_unifying h

end Definitions

/-! ## Types -/

section Types

variable {roots : List String} {types result : List TypeDefinition}

theorem own_addFragment {kind : TextKind} {base fragment : TypeDefinition} {fields : List Field} :
    own kind (base.addFragment fragment fields) = own kind base ++ own kind fragment :=
  kind.pick_append _ _ _ _

/-- A type takes over the texts of its extension. -/
theorem texts_addFragment {kind : TextKind} {base fragment : TypeDefinition} {fields : List Field}
    (h : uniteFields base.name base.fields fragment.fields = .ok fields) :
    texts kind (base.addFragment fragment fields) = texts kind base + texts kind fragment := by
  have hfields : textsOf kind fields = textsOf kind base.fields + textsOf kind fragment.fields :=
    textsOf_insertAll keepsTexts_unifying h
  simp only [texts, TypeDefinition.addFragment, kind.pick_append, textsOf_mergeDirectives, hfields,
    ← Multiset.coe_add]
  abel

theorem keepsTexts_unite : KeepsTexts (TypeDefinition.unite roots) TypeDefinition.asBase where
  own_fresh h := by rw [(asBase_eq_ok_iff.1 h).2]
  own_combine {kind a b c} h := by
    unfold TypeDefinition.unite at h
    split at h
    · obtain ⟨fields, -, rfl⟩ := fold_eq_ok_iff.1 h
      exact own_addFragment
    · exact (@keepsTexts_unifying TypeDefinition _ _ _ _ .type TypeDefinition.name).own_combine h
  texts_fresh h := by rw [(asBase_eq_ok_iff.1 h).2]
  texts_combine {kind a b c} h := by
    unfold TypeDefinition.unite at h
    split at h
    · obtain ⟨fields, hf, rfl⟩ := fold_eq_ok_iff.1 h
      exact texts_addFragment hf
    · exact (@keepsTexts_unifying TypeDefinition _ _ _ _ .type TypeDefinition.name).texts_combine h

/-- The types with all definitions before all extensions, as they are folded. -/
def basesFirst (types : List TypeDefinition) : List TypeDefinition :=
  types.filter (fun type => !type.isExtension) ++ types.filter TypeDefinition.isExtension

theorem foldTypes_eq_insertAll_basesFirst :
    foldTypes roots types = insertAll Definition.name (TypeDefinition.unite roots)
      TypeDefinition.asBase [] ((basesFirst types).map normalize) := by
  rw [foldTypes_eq_insertAll, basesFirst, List.map_append]
  rfl

/-- Taking bases first moves types and loses none. -/
theorem perm_basesFirst (types : List TypeDefinition) : (basesFirst types).Perm types := by
  refine List.perm_append_comm.trans ?_
  exact List.filter_append_perm TypeDefinition.isExtension types

/-- Folding types loses no text. -/
theorem textsOf_foldTypes {kind : TextKind} (h : foldTypes roots types = .ok result) :
    textsOf kind result = textsOf kind types := by
  rw [foldTypes_eq_insertAll_basesFirst] at h
  rw [textsOf_insertAll keepsTexts_unite h, textsOf_nil, zero_add, textsOf_map_normalize,
    textsOf_perm (perm_basesFirst types)]

theorem gathers_foldTypes (h : foldTypes roots types = .ok result) :
    Gathers (basesFirst types) result := by
  rw [foldTypes_eq_insertAll_basesFirst] at h
  exact gathers_insertAll keepsKey_unite keepsTexts_unite h

end Types

/-! ## Schema blocks -/

/-- The one block has the descriptions of all. -/
theorem descriptions_of_reduceSchemaBlocks {blocks : List SchemaBlock} {block : Option SchemaBlock}
    (h : reduceSchemaBlocks blocks = .ok block) :
    block.toList.flatMap SchemaBlock.descriptions = blocks.flatMap SchemaBlock.descriptions := by
  cases blocks with
  | nil =>
    obtain rfl := Except.ok.inj h
    rfl
  | cons first blocks =>
    rw [reduceSchemaBlocks_cons] at h
    split at h
    · cases h
    · obtain rfl := Except.ok.inj h
      simp [uniteBlocks]

theorem textsOf_schemaBlocks (kind : TextKind) (blocks : List SchemaBlock) :
    textsOf kind blocks = kind.pick (blocks.flatMap SchemaBlock.descriptions) [] := by
  induction blocks with
  | nil => cases kind <;> rfl
  | cons block blocks ih =>
    rw [textsOf_cons, ih]
    cases kind <;> rfl

/-! ## Documents -/

/-- A document with the documentation of several documents. -/
structure KeepsDocumentation (documents : List Document) (m : Document) : Prop where
  texts : ∀ kind, texts kind m = textsOf kind documents
  schemaBlocks : ∀ b ∈ m.schemaBlocks, b.descriptions =
    (documents.flatMap Document.schemaBlocks).flatMap SchemaBlock.descriptions
  directiveDefinitions :
    Gathers (documents.flatMap Document.directiveDefinitions) m.directiveDefinitions
  scalars : Gathers (documents.flatMap Document.scalars) m.scalars
  enums : Gathers (documents.flatMap Document.enums) m.enums
  interfaces : Gathers (documents.flatMap Document.interfaces) m.interfaces
  unions : Gathers (documents.flatMap Document.unions) m.unions
  inputs : Gathers (documents.flatMap Document.inputs) m.inputs
  types : Gathers (basesFirst (documents.flatMap Document.types)) m.types

theorem textsOf_documents (kind : TextKind) (documents : List Document) :
    textsOf kind documents =
      textsOf kind (documents.flatMap Document.schemaBlocks) +
        textsOf kind (documents.flatMap Document.directiveDefinitions) +
        textsOf kind (documents.flatMap Document.scalars) +
        textsOf kind (documents.flatMap Document.enums) +
        textsOf kind (documents.flatMap Document.interfaces) +
        textsOf kind (documents.flatMap Document.unions) +
        textsOf kind (documents.flatMap Document.inputs) +
        textsOf kind (documents.flatMap Document.types) := by
  simp only [textsOf_flatMap, ← List.sum_map_add]
  rfl

/-- So a merge has the texts of all documents. -/
theorem texts_of_mergesTo {documents : List Document} {m : Document} (h : MergesTo documents m)
    (kind : TextKind) : texts kind m = textsOf kind documents := by
  have hblocks : textsOf kind m.schemaBlocks =
      textsOf kind (documents.flatMap Document.schemaBlocks) := by
    rw [textsOf_schemaBlocks, textsOf_schemaBlocks, ← descriptions_of_reduceSchemaBlocks h.blocks,
      h.single]
  rw [textsOf_documents, ← hblocks, ← textsOf_deduplicate h.directiveDefinitions,
    ← textsOf_deduplicate h.scalars, ← textsOf_deduplicate h.enums,
    ← textsOf_deduplicate h.interfaces, ← textsOf_deduplicate h.unions,
    ← textsOf_deduplicate h.inputs, ← textsOf_foldTypes h.types]
  rfl

/-- **Merging loses and invents no documentation.** -/
theorem documentation_of_merge {documents : List Document} {m : Document}
    (h : Document.merge documents = .ok m) : KeepsDocumentation documents m := by
  have hm := merge_eq_ok_iff.1 h
  refine
    { texts := texts_of_mergesTo hm
      schemaBlocks := fun b hb => ?_
      directiveDefinitions := gathers_deduplicate hm.directiveDefinitions
      scalars := gathers_deduplicate hm.scalars
      enums := gathers_deduplicate hm.enums
      interfaces := gathers_deduplicate hm.interfaces
      unions := gathers_deduplicate hm.unions
      inputs := gathers_deduplicate hm.inputs
      types := gathers_foldTypes hm.types }
  have hblocks := descriptions_of_reduceSchemaBlocks hm.blocks
  rw [← hm.single, Option.mem_toList] at hb
  rwa [hb, Option.toList_some, List.flatMap_singleton] at hblocks

/-- A described type, and an extension with a comment that stands before it. -/
theorem documentation_of_merge_user :
    let user := fun descriptions comments isExtension =>
      (⟨"User", [], [], [], descriptions, comments, isExtension, default⟩ : TypeDefinition)
    KeepsDocumentation
      [{ Document.empty with types := [user [] ["# more"] true] },
        { Document.empty with types := [user ["\"A user\""] [] false] }]
      { Document.empty with types := [user ["\"A user\""] ["# more"] false] } :=
  documentation_of_merge rfl

end SchemaMerge
