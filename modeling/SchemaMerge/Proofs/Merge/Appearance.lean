import SchemaMerge.Proofs.Merge.Documents
import SchemaMerge.Proofs.RoundTrip.Invariance

/-!
# What a node looks like

Of the texts of a node printing shows the first description and the first comment. `titles` lists
them for a node and all members in it, and `appearance` is the skeleton with the titles. Nodes of
one appearance are printed alike. Absorption only fills gaps in the titles (`titles_absorb`), so
what has been absorbed once changes nothing when it is absorbed again.
-/

namespace SchemaMerge

open Node

/-! ## Titles -/

/-- The first titles, with gaps filled from the second. -/
def overlay (ss ts : List (Option String)) : List (Option String) := List.zipWith Option.or ss ts

@[simp] theorem overlay_self (ss : List (Option String)) : overlay ss ss = ss := by
  induction ss with
  | nil => rfl
  | cons s ss ih => simp [overlay] at ih ⊢

@[simp] theorem overlay_cons (s t : Option String) (ss ts : List (Option String)) :
    overlay (s :: ss) (t :: ts) = s.or t :: overlay ss ts := rfl

/-- Titles are laid over one another piece by piece. -/
theorem overlay_append {ss ss' ts ts' : List (Option String)} (h : ss.length = ts.length) :
    overlay (ss ++ ss') (ts ++ ts') = overlay ss ts ++ overlay ss' ts' := List.zipWith_append h

/-- Gaps that have been filled are not filled again. -/
theorem overlay_overlay_right (ss ts : List (Option String)) :
    overlay (overlay ss ts) ts = overlay ss ts := by
  induction ss generalizing ts with
  | nil => rfl
  | cons s ss ih =>
    cases ts with
    | nil => rfl
    | cons t ts => simp [ih, Option.or_assoc]

/-- Titles without gaps to fill have none either once others have been filled in. -/
theorem overlay_overlay_of_eq {ss ts us : List (Option String)} (hl : ss.length = ts.length)
    (h : overlay ss us = ss) : overlay (overlay ss ts) us = overlay ss ts := by
  induction ss generalizing ts us with
  | nil => rfl
  | cons s ss ih =>
    cases ts with
    | nil => simp at hl
    | cons t ts =>
      cases us with
      | nil => simp [overlay] at h
      | cons u us =>
        simp only [overlay_cons, List.cons.injEq, List.length_cons, Nat.add_right_cancel_iff]
          at h hl ⊢
        refine ⟨?_, ih hl h.2⟩
        cases s with
        | none =>
          obtain rfl : u = none := by simpa using h.1
          simp
        | some s => simp

/-- A kind of node of which the first texts are printed. -/
class Titled (α : Type) where
  /-- The first description and the first comment of the node and of all members in it. -/
  titles : α → List (Option String)

export Titled (titles)

/-- The titles of all nodes of a list. -/
def titlesOf {α : Type} [Titled α] (as : List α) : List (Option String) := as.flatMap titles

/-- A kind of node whose absorption fills gaps in the titles, and no more. -/
class LawfulTitled (α : Type) [Node α] [LawfulNode α] [Titled α] : Prop where
  length_titles {a b : α} (h : skeleton a = skeleton b) : (titles a).length = (titles b).length
  titles_absorb {a b : α} (h : skeleton a = skeleton b) :
    titles (absorb a b) = overlay (titles a) (titles b)

section Lists

variable {α : Type} [Node α] [LawfulNode α] [Titled α] [LawfulTitled α]

/-- Nodes of the same structure have as many titles. -/
theorem length_titlesOf {as bs : List α} (h : as.map skeleton = bs.map skeleton) :
    (titlesOf as).length = (titlesOf bs).length := by
  induction as generalizing bs with
  | nil =>
    obtain rfl := List.map_eq_nil_iff.1 h.symm
    rfl
  | cons a as ih =>
    obtain ⟨b, bs, rfl, hb, hbs⟩ := List.map_eq_cons_iff.1 h.symm
    simp only [titlesOf, List.flatMap_cons, List.length_append] at ih ⊢
    rw [LawfulTitled.length_titles hb, ih hbs.symm]

/-- A node that absorbs another keeps its titles and takes over those that it lacks. -/
theorem titlesOf_absorbPairwise {as bs : List α} (h : as.map skeleton = bs.map skeleton) :
    titlesOf (absorbPairwise as bs) = overlay (titlesOf as) (titlesOf bs) := by
  induction as generalizing bs with
  | nil => rfl
  | cons a as ih =>
    obtain ⟨b, bs, rfl, hb, hbs⟩ := List.map_eq_cons_iff.1 h.symm
    simp only [titlesOf, absorbPairwise, List.flatMap_cons] at ih ⊢
    rw [overlay_append (LawfulTitled.length_titles hb.symm), ih hbs.symm,
      LawfulTitled.titles_absorb hb.symm]

/-! ## Appearances -/

/-- The node without documentation, and its titles. -/
def appearance (a : α) : α × List (Option String) := (skeleton a, titles a)

omit [LawfulTitled α] in
theorem appearance_eq_iff {a b : α} :
    appearance a = appearance b ↔ skeleton a = skeleton b ∧ titles a = titles b :=
  Prod.ext_iff

/-- Lists look alike if their structures and their titles are the same. -/
theorem map_appearance_eq_iff {as bs : List α} :
    as.map appearance = bs.map appearance ↔
      as.map skeleton = bs.map skeleton ∧ titlesOf as = titlesOf bs := by
  induction as generalizing bs with
  | nil => cases bs <;> simp [titlesOf]
  | cons a as ih =>
    cases bs with
    | nil => simp
    | cons b bs =>
      simp only [List.map_cons, List.cons.injEq, appearance_eq_iff, ih, titlesOf,
        List.flatMap_cons]
      constructor
      · rintro ⟨⟨hs, ht⟩, hss, hts⟩
        exact ⟨⟨hs, hss⟩, by rw [ht, hts]⟩
      · rintro ⟨⟨hs, hss⟩, ht⟩
        obtain ⟨ht, hts⟩ := List.append_inj ht (LawfulTitled.length_titles hs)
        exact ⟨⟨hs, ht⟩, hss, hts⟩

omit [LawfulTitled α] in
/-- What the appearance of a node decides, the appearances of a list decide for all nodes of it. -/
theorem map_congr_of_appearance {β : Type} {f : α → β}
    (hf : ∀ {a b : α}, appearance a = appearance b → f a = f b) {as bs : List α}
    (h : as.map appearance = bs.map appearance) : as.map f = bs.map f := by
  induction as generalizing bs with
  | nil =>
    obtain rfl := List.map_eq_nil_iff.1 h.symm
    rfl
  | cons a as ih =>
    obtain ⟨b, bs, rfl, hb, hbs⟩ := List.map_eq_cons_iff.1 h.symm
    rw [List.map_cons, List.map_cons, hf hb.symm, ih hbs.symm]

end Lists

/-! ## Kinds of nodes -/

instance : Titled Argument where
  titles a := [a.descriptions.head?]

instance : Titled Field where
  titles f := f.descriptions.head? :: f.comments.head? :: titlesOf f.arguments

instance : Titled EnumValue where
  titles v := [v.descriptions.head?, v.comments.head?]

instance : Titled DirectiveDefinition where
  titles d := d.descriptions.head? :: d.comments.head? :: titlesOf d.arguments

instance : Titled ScalarDefinition where
  titles d := [d.descriptions.head?, d.comments.head?]

instance : Titled EnumDefinition where
  titles d := d.descriptions.head? :: d.comments.head? :: titlesOf d.values

instance : Titled FieldsDefinition where
  titles d := d.descriptions.head? :: d.comments.head? :: titlesOf d.fields

instance : Titled UnionDefinition where
  titles d := [d.descriptions.head?, d.comments.head?]

instance : Titled TypeDefinition where
  titles d := d.descriptions.head? :: d.comments.head? :: titlesOf d.fields

instance : LawfulTitled Argument where
  length_titles _ := rfl
  titles_absorb _ := by simp [titles, absorb, overlay]

instance : LawfulTitled Field where
  length_titles {a b} h := by
    have hargs : a.arguments.map skeleton = b.arguments.map skeleton := congrArg Field.arguments h
    simp [titles, length_titlesOf hargs]
  titles_absorb {a b} h := by
    have hargs : a.arguments.map skeleton = b.arguments.map skeleton := congrArg Field.arguments h
    simp [titles, absorb, titlesOf_absorbPairwise hargs]

instance : LawfulTitled EnumValue where
  length_titles _ := rfl
  titles_absorb _ := by simp [titles, absorb, overlay]

instance : LawfulTitled DirectiveDefinition where
  length_titles {a b} h := by
    have hargs : a.arguments.map skeleton = b.arguments.map skeleton :=
      congrArg DirectiveDefinition.arguments h
    simp [titles, length_titlesOf hargs]
  titles_absorb {a b} h := by
    have hargs : a.arguments.map skeleton = b.arguments.map skeleton :=
      congrArg DirectiveDefinition.arguments h
    simp [titles, absorb, titlesOf_absorbPairwise hargs]

instance : LawfulTitled ScalarDefinition where
  length_titles _ := rfl
  titles_absorb _ := by simp [titles, absorb, overlay]

instance : LawfulTitled EnumDefinition where
  length_titles {a b} h := by
    have hvalues : a.values.map skeleton = b.values.map skeleton :=
      congrArg EnumDefinition.values h
    simp [titles, length_titlesOf hvalues]
  titles_absorb {a b} h := by
    have hvalues : a.values.map skeleton = b.values.map skeleton :=
      congrArg EnumDefinition.values h
    simp [titles, absorb, titlesOf_absorbPairwise hvalues]

instance : LawfulTitled FieldsDefinition where
  length_titles {a b} h := by
    have hfields : a.fields.map skeleton = b.fields.map skeleton :=
      congrArg FieldsDefinition.fields h
    simp [titles, length_titlesOf hfields]
  titles_absorb {a b} h := by
    have hfields : a.fields.map skeleton = b.fields.map skeleton :=
      congrArg FieldsDefinition.fields h
    simp [titles, absorb, titlesOf_absorbPairwise hfields]

instance : LawfulTitled UnionDefinition where
  length_titles _ := rfl
  titles_absorb _ := by simp [titles, absorb, overlay]

instance : LawfulTitled TypeDefinition where
  length_titles {a b} h := by
    have hfields : a.fields.map skeleton = b.fields.map skeleton :=
      congrArg TypeDefinition.fields h
    simp [titles, length_titlesOf hfields]
  titles_absorb {a b} h := by
    have hfields : a.fields.map skeleton = b.fields.map skeleton :=
      congrArg TypeDefinition.fields h
    simp [titles, absorb, titlesOf_absorbPairwise hfields]

/-! ## Printing -/

/-- Of several texts only the first is printed. -/
theorem take_one_congr {texts others : List String} (h : texts.head? = others.head?) :
    texts.take 1 = others.take 1 := by
  rw [List.take_one, List.take_one, h]

/-- Directives are printed without their texts. -/
theorem canonicalDirectives_congr {ds es : List Directive}
    (h : ds.map Directive.skeleton = es.map Directive.skeleton) :
    canonicalDirectives ds = canonicalDirectives es := by
  rw [canonicalDirectives, h, ← canonicalDirectives]

theorem Argument.canonical_congr {a b : Argument} (h : appearance a = appearance b) :
    a.canonical = b.canonical := by
  obtain ⟨hs, ht⟩ := appearance_eq_iff.1 h
  simp only [skeleton, Argument.mk.injEq, titles, List.cons.injEq] at hs ht
  simp [canonical, hs.1, hs.2.1, hs.2.2.1, canonicalDirectives_congr hs.2.2.2.1,
    take_one_congr ht.1]

/-- Fields that look alike are printed alike. -/
theorem Field.canonical_congr {a b : Field} (h : appearance a = appearance b) :
    withoutSpans a.canonical = withoutSpans b.canonical := by
  obtain ⟨hs, ht⟩ := appearance_eq_iff.1 h
  simp only [skeleton, Field.mk.injEq, titles, List.cons.injEq] at hs ht
  have hargs := map_congr_of_appearance Argument.canonical_congr
    (map_appearance_eq_iff.2 ⟨hs.2.1, ht.2.2⟩)
  simp [withoutSpans, canonical, hs.1, hargs, hs.2.2.1, hs.2.2.2.1,
    canonicalDirectives_congr hs.2.2.2.2.1, take_one_congr ht.1, take_one_congr ht.2.1]

theorem EnumValue.canonical_congr {a b : EnumValue} (h : appearance a = appearance b) :
    a.canonical = b.canonical := by
  obtain ⟨hs, ht⟩ := appearance_eq_iff.1 h
  simp only [skeleton, EnumValue.mk.injEq, titles, List.cons.injEq] at hs ht
  simp [canonical, hs.1, canonicalDirectives_congr hs.2.1, take_one_congr ht.1,
    take_one_congr ht.2.1]

theorem DirectiveDefinition.canonical_congr {a b : DirectiveDefinition}
    (h : appearance a = appearance b) : withoutSpans a.canonical = withoutSpans b.canonical := by
  obtain ⟨hs, ht⟩ := appearance_eq_iff.1 h
  simp only [skeleton, DirectiveDefinition.mk.injEq, titles, List.cons.injEq] at hs ht
  have hargs := map_congr_of_appearance Argument.canonical_congr
    (map_appearance_eq_iff.2 ⟨hs.2.1, ht.2.2⟩)
  simp [withoutSpans, canonical, hs.1, hargs, hs.2.2.1, hs.2.2.2.1, take_one_congr ht.1,
    take_one_congr ht.2.1]

theorem ScalarDefinition.canonical_congr {a b : ScalarDefinition}
    (h : appearance a = appearance b) : withoutSpans a.canonical = withoutSpans b.canonical := by
  obtain ⟨hs, ht⟩ := appearance_eq_iff.1 h
  simp only [skeleton, ScalarDefinition.mk.injEq, titles, List.cons.injEq] at hs ht
  simp [withoutSpans, canonical, hs.1, canonicalDirectives_congr hs.2.1, take_one_congr ht.1,
    take_one_congr ht.2.1]

theorem EnumDefinition.canonical_congr {a b : EnumDefinition}
    (h : appearance a = appearance b) : withoutSpans a.canonical = withoutSpans b.canonical := by
  obtain ⟨hs, ht⟩ := appearance_eq_iff.1 h
  simp only [skeleton, EnumDefinition.mk.injEq, titles, List.cons.injEq] at hs ht
  have hvalues := map_congr_of_appearance EnumValue.canonical_congr
    (map_appearance_eq_iff.2 ⟨hs.2.1, ht.2.2⟩)
  simp [withoutSpans, canonical, hs.1, hvalues, canonicalDirectives_congr hs.2.2.1,
    take_one_congr ht.1, take_one_congr ht.2.1]

theorem FieldsDefinition.canonical_congr {a b : FieldsDefinition}
    (h : appearance a = appearance b) : withoutSpans a.canonical = withoutSpans b.canonical := by
  obtain ⟨hs, ht⟩ := appearance_eq_iff.1 h
  simp only [skeleton, FieldsDefinition.mk.injEq, titles, List.cons.injEq] at hs ht
  have hfields := map_congr_of_appearance Field.canonical_congr
    (map_appearance_eq_iff.2 ⟨hs.2.1, ht.2.2⟩)
  simp only [withoutSpans, canonical, List.map_map, Function.comp_def] at hfields ⊢
  simp [hs.1, hfields, canonicalDirectives_congr hs.2.2.1, take_one_congr ht.1,
    take_one_congr ht.2.1]

theorem UnionDefinition.canonical_congr {a b : UnionDefinition}
    (h : appearance a = appearance b) : withoutSpans a.canonical = withoutSpans b.canonical := by
  obtain ⟨hs, ht⟩ := appearance_eq_iff.1 h
  simp only [skeleton, UnionDefinition.mk.injEq, titles, List.cons.injEq] at hs ht
  simp [withoutSpans, canonical, hs.1, hs.2.1, canonicalDirectives_congr hs.2.2.1,
    take_one_congr ht.1, take_one_congr ht.2.1]

/-- Types that look alike are printed alike. -/
theorem TypeDefinition.canonical_congr {a b : TypeDefinition}
    (h : appearance a = appearance b) : withoutSpans a.canonical = withoutSpans b.canonical := by
  obtain ⟨hs, ht⟩ := appearance_eq_iff.1 h
  simp only [skeleton, TypeDefinition.mk.injEq, titles, List.cons.injEq] at hs ht
  have hfields := map_congr_of_appearance Field.canonical_congr
    (map_appearance_eq_iff.2 ⟨hs.2.2.1, ht.2.2⟩)
  simp only [withoutSpans, canonical, List.map_map, Function.comp_def] at hfields ⊢
  simp [hs.1, hs.2.1, hfields, canonicalDirectives_congr hs.2.2.2.1, hs.2.2.2.2.2.2.1,
    take_one_congr ht.1, take_one_congr ht.2.1]

/-! ## Documents -/

/-- Two documents whose definitions have the same appearances, category by category. -/
structure Document.LooksLike (d e : Document) : Prop where
  schemaBlocks : d.schemaBlocks.map (fun b => withoutSpans b.canonical) =
    e.schemaBlocks.map fun b => withoutSpans b.canonical
  directiveDefinitions :
    d.directiveDefinitions.map appearance = e.directiveDefinitions.map appearance
  scalars : d.scalars.map appearance = e.scalars.map appearance
  enums : d.enums.map appearance = e.enums.map appearance
  interfaces : d.interfaces.map appearance = e.interfaces.map appearance
  unions : d.unions.map appearance = e.unions.map appearance
  inputs : d.inputs.map appearance = e.inputs.map appearance
  types : d.types.map appearance = e.types.map appearance

namespace Document.LooksLike

variable {d e : Document}

theorem servingName (h : d.LooksLike e) (operation : RootOperation) :
    d.servingName operation = e.servingName operation := by
  have hroot (b : SchemaBlock) :
      (withoutSpans b.canonical).rootType? operation = b.rootType? operation := by
    cases operation <;> rfl
  have hhead := congrArg List.head? h.schemaBlocks
  rw [List.head?_map, List.head?_map] at hhead
  have hbind := congrArg (Option.bind · fun b => b.rootType? operation) hhead
  simp only [Option.bind_map, Function.comp_def, hroot] at hbind
  rw [Document.servingName, hbind, ← Document.servingName]

/-- The order of types is decided by their names, so it is the same in documents that look alike. -/
theorem typesInOrder (h : d.LooksLike e) :
    d.typesInOrder.map (fun t => withoutSpans t.canonical) =
      e.typesInOrder.map fun t => withoutSpans t.canonical :=
  map_typesInOrder_congr (fun _ => rfl)
    (map_congr_of_appearance TypeDefinition.canonical_congr h.types) h.servingName

/-- Documents that look alike have the same canonical form but for spans. -/
theorem canonical_eq (h : d.LooksLike e) : withoutSpans d.canonical = withoutSpans e.canonical := by
  have hblocks :
      ((d.schemaBlocks.filter SchemaBlock.hasRootTypes).map SchemaBlock.canonical).map
          withoutSpans =
        ((e.schemaBlocks.filter SchemaBlock.hasRootTypes).map SchemaBlock.canonical).map
          withoutSpans := by
    have hfilter := congrArg (List.filter SchemaBlock.hasRootTypes) h.schemaBlocks
    rw [List.filter_map, List.filter_map] at hfilter
    rw [List.map_map, List.map_map]
    exact hfilter
  have hdirectives :=
    map_congr_of_appearance DirectiveDefinition.canonical_congr h.directiveDefinitions
  have hscalars := map_congr_of_appearance ScalarDefinition.canonical_congr h.scalars
  have henums := map_congr_of_appearance EnumDefinition.canonical_congr h.enums
  have hinterfaces := map_congr_of_appearance FieldsDefinition.canonical_congr h.interfaces
  have hunions := map_congr_of_appearance UnionDefinition.canonical_congr h.unions
  have hinputs := map_congr_of_appearance FieldsDefinition.canonical_congr h.inputs
  have htypes := h.typesInOrder
  simp only [withoutSpans, Document.canonical, Document.mk.injEq, List.map_map, Function.comp_def]
    at hblocks hdirectives hscalars henums hinterfaces hunions hinputs htypes ⊢
  exact ⟨hblocks, hdirectives, hscalars, henums, hinterfaces, hunions, hinputs, htypes⟩

/-- **Documents that look alike are printed alike.** -/
theorem print_eq (h : d.LooksLike e) (hd : d.schemaBlocks.length ≤ 1) (unit : String) :
    d.print unit = e.print unit := by
  have hlength : d.schemaBlocks.length = e.schemaBlocks.length := by
    simpa using congrArg List.length h.schemaBlocks
  have he : e.schemaBlocks.length ≤ 1 := hlength ▸ hd
  rw [← print_canonical unit hd, ← print_canonical unit he, ← print_withoutSpans, h.canonical_eq,
    print_withoutSpans]

end Document.LooksLike

end SchemaMerge
