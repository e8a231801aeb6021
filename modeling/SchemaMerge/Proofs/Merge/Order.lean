import Mathlib.Data.List.Perm.Basic
import SchemaMerge.Proofs.Merge.Compatible
import SchemaMerge.Proofs.Merge.Statements

/-!
# The order of documents

The first definition of a name gives a merged document its place and its span, and what is folded
into it comes after what it has itself. Everything else that a merge decides, it decides by what is
among the definitions: whether they fit together, which types serve the root operations, and what a
type says once it is folded. None of that changes when the documents change
places.

Results:
* `merge_perm`: documents in another order can be merged too, and become a document of the same
  content.
-/

namespace SchemaMerge

/-! ## Lists that agree up to order -/

/-- Two lists have items of the same names, and items of one name are the same in some sense. -/
structure Matches {α : Type} (name : α → String) (same : α → α → Prop) (as bs : List α) : Prop where
  names : (as.map name).Perm (bs.map name)
  same : ∀ a ∈ as, ∀ b ∈ bs, name a = name b → same a b

/-- Lists without repeated names that have the same images under a function that knows the name. -/
theorem matches_of_images {α β : Type} {name : α → String} {image : α → β}
    (hname : ∀ {a b}, image a = image b → name a = name b) {as bs : List α}
    (has : (as.map name).Nodup) (hbs : (bs.map name).Nodup)
    (h : ∀ s, s ∈ as.map image ↔ s ∈ bs.map image) :
    Matches name (fun a b => image a = image b) as bs := by
  have hpartner : ∀ {as bs : List α}, (∀ s, s ∈ as.map image ↔ s ∈ bs.map image) →
      ∀ a ∈ as, ∃ b ∈ bs, image b = image a := fun h a ha =>
    List.mem_map.1 ((h _).1 (List.mem_map_of_mem ha))
  constructor
  · refine (List.perm_ext_iff_of_nodup has hbs).2 fun n => ?_
    simp only [List.mem_map]
    constructor
    · rintro ⟨a, ha, rfl⟩
      obtain ⟨b, hb, hab⟩ := hpartner h a ha
      exact ⟨b, hb, hname hab⟩
    · rintro ⟨b, hb, rfl⟩
      obtain ⟨a, ha, hab⟩ := hpartner (fun s => (h s).symm) b hb
      exact ⟨a, ha, hname hab⟩
  · intro a ha b hb hab
    obtain ⟨c, hc, hca⟩ := hpartner h a ha
    rw [← hca, List.inj_on_of_nodup_map hbs hc hb ((hname hca).trans hab)]

/-! ## Definitions of one structure -/

section Definitions

variable {α : Type} [Definition α] [LawfulDefinition α] [Inhabited α] {category : Category}
  {definitions others result otherResult : List α}

omit [LawfulDefinition α] [Inhabited α] in
theorem Alike.perm (hp : definitions.Perm others) (h : Alike definitions) : Alike others :=
  fun a ha b hb => h a (hp.mem_iff.2 ha) b (hp.mem_iff.2 hb)

theorem mem_names_deduplicate_iff (h : deduplicate category definitions = .ok result)
    {name : String} :
    name ∈ result.map Definition.name ↔ ∃ d ∈ definitions, Definition.name d = name := by
  rw [deduplicate_eq_insertAll] at h
  rw [keys_of_insertAll keepsKey_unifying h, mem_keysOf]
  simp

/-- A merged definition has the structure of a definition of its name. -/
theorem exists_skeleton_of_mem_deduplicate (h : deduplicate category definitions = .ok result)
    {a : α} (ha : a ∈ result) :
    ∃ d ∈ definitions,
      Definition.name d = Definition.name a ∧ skeleton (normalize d) = skeleton a := by
  rw [deduplicate_eq_insertAll] at h
  have hc := combined_of_mem_insertAll keepsKey_unifying h ha
  rw [itemsOf_map_normalize] at hc
  cases hi : itemsOf Definition.name (Definition.name a) definitions with
  | nil =>
    rw [hi] at hc
    exact hc.elim
  | cons first rest =>
    rw [hi, List.map_cons] at hc
    obtain ⟨start, hs, hr⟩ := hc
    obtain rfl := Except.ok.inj hs
    have hfirst : first ∈ itemsOf Definition.name (Definition.name a) definitions := by simp [hi]
    obtain ⟨hmem, hname⟩ := mem_itemsOf.1 hfirst
    exact ⟨first, hmem, hname, (skeleton_foldlM_unifying (LawfulNode.normalize_normalize first)
      normalize_map_normalize hr).1.symm⟩

theorem matches_deduplicate (hp : definitions.Perm others)
    (h : deduplicate category definitions = .ok result)
    (h' : deduplicate category others = .ok otherResult) :
    Matches Definition.name (fun a b => sameStructure a b = true) result otherResult := by
  constructor
  · refine (List.perm_ext_iff_of_nodup (names_nodup_of_deduplicate h)
      (names_nodup_of_deduplicate h')).2 fun name => ?_
    simp only [mem_names_deduplicate_iff h, mem_names_deduplicate_iff h', hp.mem_iff]
  · intro a ha b hb hab
    obtain ⟨d, hd, hda, hsd⟩ := exists_skeleton_of_mem_deduplicate h ha
    obtain ⟨e, he, heb, hse⟩ := exists_skeleton_of_mem_deduplicate h' hb
    have halike : Alike definitions := deduplicate_isOk_iff_alike.1 ⟨result, h⟩
    have hsame := halike d hd e (hp.mem_iff.2 he) (hda.trans (hab.trans heb.symm))
    rwa [sameStructure_iff, hsd, hse, ← sameStructure_iff] at hsame

end Definitions

/-! ## The content of types -/

/-- Two types have the same interfaces, the same fields and the same directives, up to order and
documentation. -/
structure TypeDefinition.SameContent (t u : TypeDefinition) : Prop where
  interfaces : ∀ name, name ∈ t.interfaces ↔ name ∈ u.interfaces
  fields : Matches Field.name (fun f g => sameStructure f g = true) t.fields u.fields
  directives :
    Matches Directive.name (fun d e => ∀ a, a ∈ d.arguments ↔ a ∈ e.arguments)
      t.directives u.directives

theorem matches_directives {ds es : List Directive} (hds : DistinctNames ds)
    (hes : DistinctNames es)
    (h : ∀ statement, DirectivesSay ds statement ↔ DirectivesSay es statement) :
    Matches Directive.name (fun d e => ∀ a, a ∈ d.arguments ↔ a ∈ e.arguments) ds es := by
  constructor
  · refine (List.perm_ext_iff_of_nodup hds hes).2 fun name => ?_
    simpa only [DirectivesSay, List.mem_map] using h (.applies name)
  · intro d hd e he hname a
    rw [← directivesSay_passes_iff hds hd, h, hname, directivesSay_passes_iff hes he]

/-- Types in normal form that say the same and repeat no field have the same content. -/
theorem sameContent_of_says {t u : TypeDefinition} (ht : normalize t = t) (hu : normalize u = u)
    (hdt : t.DistinctFields) (hdu : u.DistinctFields)
    (h : ∀ statement, t.Says statement ↔ u.Says statement) : t.SameContent u where
  interfaces name := by simpa [TypeDefinition.Says, DirectivesSay] using h (.implements name)
  fields := by
    have hfields (s : Field) : s ∈ t.fields.map skeleton ↔ s ∈ u.fields.map skeleton := by
      simpa [TypeDefinition.Says, DirectivesSay] using h (.declares s)
    simp only [sameStructure_iff]
    refine matches_of_images (fun {f g} hfg => ?_) hdt hdu hfields
    exact show (skeleton f).name = (skeleton g).name by rw [hfg]
  directives := by
    have hdt := distinctNames_of_combineRepeated (congrArg TypeDefinition.directives ht)
    have hdu := distinctNames_of_combineRepeated (congrArg TypeDefinition.directives hu)
    refine matches_directives hdt hdu fun statement => ?_
    cases statement with
    | implements name => rfl
    | declares field => rfl
    | applies name => simpa [TypeDefinition.Says, DirectivesSay] using h (.applies name)
    | passes name a => simpa [TypeDefinition.Says, DirectivesSay] using h (.passes name a)

section Types

variable {roots : List String} {types others result otherResult : List TypeDefinition}

theorem distinct_uniteFields {type : String} {fields incoming result : List Field}
    (hd : (fields.map Field.name).Nodup) (h : uniteFields type fields incoming = .ok result) :
    (result.map Field.name).Nodup := by
  have hfields : insertAll Definition.name (unifying .field (fieldLabel type)) .ok [] fields =
      .ok fields := insertAll_of_nodup hd fun _ _ => rfl
  have hall : insertAll Definition.name (unifying .field (fieldLabel type)) .ok []
      (fields ++ incoming) = .ok result := by
    rw [insertAll_append, hfields]
    exact h
  have hkeys : result.map Field.name = keysOf Field.name (fields ++ incoming) :=
    keys_of_insertAll keepsKey_unifying hall
  rw [hkeys]
  exact nodup_keysOf _

theorem names_absorbPairwise {α : Type} [Definition α] [LawfulDefinition α] (as bs : List α) :
    (absorbPairwise as bs).map Definition.name = as.map Definition.name := by
  induction as generalizing bs with
  | nil => rfl
  | cons a as ih =>
    cases bs with
    | nil => rfl
    | cons b bs => simp [absorbPairwise, ih]

theorem distinctFields_of_mem_foldTypes (h : foldTypes roots types = .ok result)
    (hd : ∀ t ∈ types, t.DistinctFields) : ∀ t ∈ result, t.DistinctFields := by
  refine forall_mem_foldTypes h (fun t ht => (hd t ht).normalize) (fun {t u} ht _ => ?_)
    fun ht _ hf => distinct_uniteFields ht hf
  show ((absorbPairwise t.fields u.fields).map Definition.name).Nodup
  rw [names_absorbPairwise]
  exact ht

theorem mem_names_foldTypes_iff (h : foldTypes roots types = .ok result) {name : String} :
    name ∈ result.map TypeDefinition.name ↔ ∃ d ∈ types, d.name = name := by
  rw [foldTypes_eq_insertAll] at h
  rw [keys_of_insertAll keepsKey_unite h, mem_keysOf_types]

theorem TypesFit.perm {root : String → Prop} (hp : types.Perm others) (h : TypesFit root types) :
    TypesFit root others where
  extensions e he hext := by
    obtain ⟨t, ht, hbase, hname⟩ := h.extensions e (hp.mem_iff.2 he) hext
    exact ⟨t, hp.mem_iff.1 ht, hbase, hname⟩
  definitions t ht u hu := h.definitions t (hp.mem_iff.2 ht) u (hp.mem_iff.2 hu)
  fields t ht u hu := h.fields t (hp.mem_iff.2 ht) u (hp.mem_iff.2 hu)

theorem matches_foldTypes (hp : types.Perm others) (hd : ∀ t ∈ types, t.DistinctFields)
    (h : foldTypes roots types = .ok result) (h' : foldTypes roots others = .ok otherResult) :
    Matches TypeDefinition.name TypeDefinition.SameContent result otherResult := by
  have hd' : ∀ t ∈ others, t.DistinctFields := fun t ht => hd t (hp.mem_iff.2 ht)
  constructor
  · refine (List.perm_ext_iff_of_nodup (names_nodup_of_foldTypes h)
      (names_nodup_of_foldTypes h')).2 fun name => ?_
    simp only [mem_names_foldTypes_iff h, mem_names_foldTypes_iff h', hp.mem_iff]
  · intro t ht u hu hname
    refine sameContent_of_says (normalize_of_mem_foldTypes h t ht)
      (normalize_of_mem_foldTypes h' u hu) (distinctFields_of_mem_foldTypes h hd t ht)
      (distinctFields_of_mem_foldTypes h' hd' u hu) fun statement => ?_
    rw [says_of_mem_foldTypes h ht, says_of_mem_foldTypes h' hu, hname]
    simp only [hp.mem_iff]

end Types

/-! ## Documents -/

/-- Two documents have the same root types, for each name a definition of the same content, and the
same documentation. -/
structure Document.SameContent (m n : Document) : Prop where
  rootTypes : ∀ operation : RootOperation,
    (m.schemaBlocks.head?.bind fun b => b.rootType? operation) =
      n.schemaBlocks.head?.bind fun b => b.rootType? operation
  rootTypeNames : rootTypeNames m.schemaBlocks.head? = rootTypeNames n.schemaBlocks.head?
  directiveDefinitions : Matches DirectiveDefinition.name (fun a b => sameStructure a b = true)
    m.directiveDefinitions n.directiveDefinitions
  scalars : Matches ScalarDefinition.name (fun a b => sameStructure a b = true) m.scalars n.scalars
  enums : Matches EnumDefinition.name (fun a b => sameStructure a b = true) m.enums n.enums
  interfaces : Matches FieldsDefinition.name (fun a b => sameStructure a b = true)
    m.interfaces n.interfaces
  unions : Matches UnionDefinition.name (fun a b => sameStructure a b = true) m.unions n.unions
  inputs : Matches FieldsDefinition.name (fun a b => sameStructure a b = true) m.inputs n.inputs
  types : Matches TypeDefinition.name TypeDefinition.SameContent m.types n.types
  texts : ∀ kind, texts kind m = texts kind n

section Documents

variable {documents others : List Document}

theorem distinctFields_of_documents
    (hd : ∀ d ∈ documents, ∀ t ∈ d.types, (t.fields.map Field.name).Nodup) :
    ∀ t ∈ documents.flatMap Document.types, t.DistinctFields := by
  intro t ht
  obtain ⟨d, hmem, ht⟩ := List.mem_flatMap.1 ht
  exact hd d hmem t ht

/-- Documents that can be merged can be merged in any order. -/
theorem exists_merge_of_perm (hp : documents.Perm others)
    (hd : ∀ d ∈ documents, ∀ t ∈ d.types, (t.fields.map Field.name).Nodup)
    (h : ∃ m, Document.merge documents = .ok m) : ∃ n, Document.merge others = .ok n := by
  have hpart {α : Type} (part : Document → List α) :
      (documents.flatMap part).Perm (others.flatMap part) := hp.flatMap_right part
  obtain ⟨block, hb, hdd, hs, he, hi, hu, hn, ht⟩ := merge_isOk_iff_parts.1 h
  have hagree := reduceSchemaBlocks_isOk_iff.1 ⟨block, hb⟩
  obtain ⟨other, hother⟩ := reduceSchemaBlocks_isOk_iff.2 (hagree.mono (hpart _).symm.subset)
  have hroots := rootTypeNames_congr (rootType?_of_mem_iff (fun _ => (hpart _).mem_iff) hb hother)
  have hdistinct := distinctFields_of_documents hd
  have hfit := (foldTypes_isOk_iff hdistinct).1 ht
  refine merge_isOk_iff_parts.2 ⟨other, hother, hdd.perm (hpart _), hs.perm (hpart _),
    he.perm (hpart _), hi.perm (hpart _), hu.perm (hpart _), hn.perm (hpart _), ?_⟩
  rw [← hroots]
  exact (foldTypes_isOk_iff fun t ht => hdistinct t ((hpart _).mem_iff.2 ht)).2
    (hfit.perm (hpart _))

theorem sameContent_of_perm {m n : Document} (hp : documents.Perm others)
    (hd : ∀ d ∈ documents, ∀ t ∈ d.types, (t.fields.map Field.name).Nodup)
    (h : MergesTo documents m) (h' : MergesTo others n) : m.SameContent n := by
  have hpart {α : Type} (part : Document → List α) :
      (documents.flatMap part).Perm (others.flatMap part) := hp.flatMap_right part
  have hrootTypes := rootType?_of_mem_iff (fun _ => (hpart _).mem_iff) h.blocks h'.blocks
  have hroots := rootTypeNames_congr hrootTypes
  have htypes := h.types
  rw [hroots] at htypes
  exact
    { rootTypes := hrootTypes
      rootTypeNames := hroots
      directiveDefinitions :=
        matches_deduplicate (hpart _) h.directiveDefinitions h'.directiveDefinitions
      scalars := matches_deduplicate (hpart _) h.scalars h'.scalars
      enums := matches_deduplicate (hpart _) h.enums h'.enums
      interfaces := matches_deduplicate (hpart _) h.interfaces h'.interfaces
      unions := matches_deduplicate (hpart _) h.unions h'.unions
      inputs := matches_deduplicate (hpart _) h.inputs h'.inputs
      types := matches_foldTypes (hpart _) (distinctFields_of_documents hd) htypes h'.types
      texts := fun kind => by
        rw [texts_of_mergesTo h, texts_of_mergesTo h', textsOf_perm hp] }

/-- **The order of documents never decides what is merged.** -/
theorem merge_perm (hp : documents.Perm others)
    (hd : ∀ d ∈ documents, ∀ t ∈ d.types, (t.fields.map Field.name).Nodup) :
    ((∃ m, Document.merge documents = .ok m) ↔ ∃ n, Document.merge others = .ok n) ∧
      ∀ m n, Document.merge documents = .ok m → Document.merge others = .ok n →
        m.SameContent n := by
  have hd' : ∀ d ∈ others, ∀ t ∈ d.types, (t.fields.map Field.name).Nodup :=
    fun d hmem => hd d (hp.mem_iff.2 hmem)
  refine ⟨⟨exists_merge_of_perm hp hd, exists_merge_of_perm hp.symm hd'⟩, fun m n hm hn => ?_⟩
  exact sameContent_of_perm hp hd (merge_eq_ok_iff.1 hm) (merge_eq_ok_iff.1 hn)

/-- A root type in two parts, each with a directive of its own. -/
theorem merge_perm_query :
    let part := fun directive =>
      { Document.empty with
        types := [⟨"Query", [], [], [⟨directive, [], []⟩], [], [], false, default⟩] }
    let whole := fun first second =>
      { Document.empty with
        types :=
          [⟨"Query", [], [], [⟨first, [], []⟩, ⟨second, [], []⟩], [], [], false, default⟩] }
    Document.merge [part "a", part "b"] = .ok (whole "a" "b") ∧
      Document.merge [part "b", part "a"] = .ok (whole "b" "a") ∧
      (whole "a" "b").SameContent (whole "b" "a") := by
  intro part whole
  have hd : ∀ d ∈ [part "a", part "b"], ∀ t ∈ d.types, (t.fields.map Field.name).Nodup := by
    simp [part]
  exact ⟨rfl, rfl, (merge_perm (List.Perm.swap _ _ _) hd).2 _ _ rfl rfl⟩

end Documents

end SchemaMerge
