import SchemaMerge.Proofs.Merge.Directives

/-!
# Structure, normal form and absorption

Every node has a `skeleton`: the node with all descriptions and comments in it removed and all
spans replaced by one. Two nodes have the same structure exactly when they have one skeleton, so
having the same structure is an equivalence. A node is in normal form when `normalize` leaves it as
it is, and a node in normal form that absorbs another of its skeleton keeps skeleton and normal
form. `LawfulNode` and `LawfulDefinition` collect these laws; what is proved of merging rests on
them and not on the kinds of nodes.
-/

namespace SchemaMerge

open Node

/-- A kind of node whose structure, normal form and absorption fit together. -/
class LawfulNode (α : Type) [Node α] where
  /-- The node without documentation, and with one span for all. -/
  skeleton : α → α
  sameStructure_iff (a b : α) : sameStructure a b = true ↔ skeleton a = skeleton b
  normalize_normalize (a : α) : normalize (normalize a) = normalize a
  skeleton_absorb {a b : α} (ha : normalize a = a) (h : skeleton a = skeleton b) :
    skeleton (absorb a b) = skeleton a
  normalize_absorb {a b : α} (ha : normalize a = a) (hb : normalize b = b) :
    normalize (absorb a b) = absorb a b

/-- A kind of definition whose name and span stand outside of all that. -/
class LawfulDefinition (α : Type) [Definition α] extends LawfulNode α where
  name_skeleton (a : α) : Definition.name (skeleton a) = Definition.name a
  name_normalize (a : α) : Definition.name (normalize a) = Definition.name a
  span_normalize (a : α) : Definition.span (normalize a) = Definition.span a
  name_absorb (a b : α) : Definition.name (absorb a b) = Definition.name a
  span_absorb (a b : α) : Definition.span (absorb a b) = Definition.span a

export LawfulNode (skeleton sameStructure_iff)

attribute [simp] LawfulNode.normalize_normalize LawfulDefinition.name_skeleton
  LawfulDefinition.name_normalize LawfulDefinition.span_normalize LawfulDefinition.name_absorb
  LawfulDefinition.span_absorb

/-! ## Lists of nodes -/

section Lists

variable {α : Type} [Node α] [LawfulNode α]

/-- Lists of nodes are compared member by member, so they have the same structure if they have the
same skeletons. -/
theorem sameStructures_iff (as bs : List α) :
    sameStructures as bs = true ↔ as.map skeleton = bs.map skeleton :=
  pairwise_iff_map_eq sameStructure_iff as bs

omit [LawfulNode α] in
theorem map_normalize_eq_self_iff {as : List α} :
    as.map normalize = as ↔ ∀ a ∈ as, normalize a = a :=
  ⟨fun h => List.map_inj_left.1 (h.trans (List.map_id as).symm),
    fun h => (List.map_congr_left h).trans (List.map_id as)⟩

/-- Absorbing members of the same structure leaves the structure of a list as it was. -/
theorem map_skeleton_absorbPairwise {as bs : List α} (has : as.map normalize = as)
    (h : as.map skeleton = bs.map skeleton) :
    (absorbPairwise as bs).map skeleton = as.map skeleton := by
  induction as generalizing bs with
  | nil => rfl
  | cons a as ih =>
    cases bs with
    | nil => rfl
    | cons b bs =>
      simp only [List.map_cons, List.cons.injEq] at has h
      simp only [absorbPairwise, List.map_cons, LawfulNode.skeleton_absorb has.1 h.1, ih has.2 h.2]

/-- Normal members stay normal when they absorb others. -/
theorem map_normalize_absorbPairwise {as bs : List α} (has : as.map normalize = as)
    (hbs : bs.map normalize = bs) :
    (absorbPairwise as bs).map normalize = absorbPairwise as bs := by
  induction as generalizing bs with
  | nil => rfl
  | cons a as ih =>
    cases bs with
    | nil => exact has
    | cons b bs =>
      simp only [List.map_cons, List.cons.injEq] at has hbs
      simp only [absorbPairwise, List.map_cons, LawfulNode.normalize_absorb has.1 hbs.1,
        ih has.2 hbs.2]

end Lists

/-! ## Directives -/

theorem distinctNames_of_combineRepeated {ds : List Directive} (h : combineRepeated ds = ds) :
    DistinctNames ds := h ▸ distinctNames_combineRepeated ds

@[simp] theorem combineRepeated_combineRepeated (ds : List Directive) :
    combineRepeated (combineRepeated ds) = combineRepeated ds :=
  combineRepeated_eq_self (distinctNames_combineRepeated ds)

/-- Directives without repeated names stay so when others are merged into them. -/
theorem combineRepeated_mergeDirectives {ds : List Directive} (h : combineRepeated ds = ds)
    (es : List Directive) : combineRepeated (mergeDirectives ds es) = mergeDirectives ds es :=
  combineRepeated_eq_self (distinctNames_mergeDirectives (distinctNames_of_combineRepeated h) es)

/-- Directives of the same structure in the same order are absorbed one by one, and none is added.
-/
theorem map_skeleton_mergeDirectives {ds es : List Directive} (hds : combineRepeated ds = ds)
    (h : ds.map Directive.skeleton = es.map Directive.skeleton) :
    (mergeDirectives ds es).map Directive.skeleton = ds.map Directive.skeleton :=
  skeletons_mergeDirectives (distinctNames_of_combineRepeated hds) h

/-! ## Members -/

instance : LawfulNode Argument where
  skeleton a := { a with directives := a.directives.map Directive.skeleton, descriptions := [] }
  sameStructure_iff a b := by simp [sameStructure, sameDirectives_iff, and_assoc]
  normalize_normalize a := by simp [normalize]
  skeleton_absorb {a b} ha h := by
    have hd := congrArg Argument.directives ha
    simp only [Argument.mk.injEq] at h
    simp [absorb, map_skeleton_mergeDirectives hd h.2.2.2.1]
  normalize_absorb {a b} ha hb := by
    have hd := congrArg Argument.directives ha
    simp [normalize, absorb, combineRepeated_mergeDirectives hd]

instance : LawfulDefinition Field where
  skeleton a :=
    { a with
      arguments := a.arguments.map skeleton
      directives := a.directives.map Directive.skeleton
      descriptions := []
      comments := []
      span := default }
  sameStructure_iff a b := by
    simp [sameStructure, sameStructures_iff, sameDirectives_iff, and_assoc]
  normalize_normalize a := by simp [normalize]
  skeleton_absorb {a b} ha h := by
    have hargs : a.arguments.map normalize = a.arguments := congrArg Field.arguments ha
    have hd := congrArg Field.directives ha
    simp only [Field.mk.injEq] at h
    simp [absorb, map_skeleton_absorbPairwise hargs h.2.1,
      map_skeleton_mergeDirectives hd h.2.2.2.2.1]
  normalize_absorb {a b} ha hb := by
    have hargs := map_normalize_absorbPairwise (congrArg Field.arguments ha)
      (congrArg Field.arguments hb)
    have hd := combineRepeated_mergeDirectives (congrArg Field.directives ha) b.directives
    show { absorb a b with
      arguments := (absorbPairwise a.arguments b.arguments).map normalize
      directives := combineRepeated (mergeDirectives a.directives b.directives) } = _
    rw [hargs, hd]
    rfl
  name_skeleton _ := rfl
  name_normalize _ := rfl
  span_normalize _ := rfl
  name_absorb _ _ := rfl
  span_absorb _ _ := rfl

instance : LawfulNode EnumValue where
  skeleton a :=
    { a with
      directives := a.directives.map Directive.skeleton
      descriptions := []
      comments := [] }
  sameStructure_iff a b := by simp [sameStructure, sameDirectives_iff]
  normalize_normalize a := by simp [normalize]
  skeleton_absorb {a b} ha h := by
    have hd := congrArg EnumValue.directives ha
    simp only [EnumValue.mk.injEq] at h
    simp [absorb, map_skeleton_mergeDirectives hd h.2.1]
  normalize_absorb {a b} ha hb := by
    have hd := congrArg EnumValue.directives ha
    simp [normalize, absorb, combineRepeated_mergeDirectives hd]

/-! ## Definitions -/

instance : LawfulDefinition DirectiveDefinition where
  skeleton a :=
    { a with
      arguments := a.arguments.map skeleton
      descriptions := []
      comments := []
      span := default }
  sameStructure_iff a b := by simp [sameStructure, sameStructures_iff, and_assoc]
  normalize_normalize a := by simp [normalize]
  skeleton_absorb {a b} ha h := by
    have hargs : a.arguments.map normalize = a.arguments :=
      congrArg DirectiveDefinition.arguments ha
    simp only [DirectiveDefinition.mk.injEq] at h
    simp [absorb, map_skeleton_absorbPairwise hargs h.2.1]
  normalize_absorb {a b} ha hb := by
    have hargs := map_normalize_absorbPairwise (congrArg DirectiveDefinition.arguments ha)
      (congrArg DirectiveDefinition.arguments hb)
    show { absorb a b with
      arguments := (absorbPairwise a.arguments b.arguments).map normalize } = _
    rw [hargs]
    rfl
  name_skeleton _ := rfl
  name_normalize _ := rfl
  span_normalize _ := rfl
  name_absorb _ _ := rfl
  span_absorb _ _ := rfl

instance : LawfulDefinition ScalarDefinition where
  skeleton a :=
    { a with
      directives := a.directives.map Directive.skeleton
      descriptions := []
      comments := []
      span := default }
  sameStructure_iff a b := by simp [sameStructure, sameDirectives_iff]
  normalize_normalize a := by simp [normalize]
  skeleton_absorb {a b} ha h := by
    have hd := congrArg ScalarDefinition.directives ha
    simp only [ScalarDefinition.mk.injEq] at h
    simp [absorb, map_skeleton_mergeDirectives hd h.2.1]
  normalize_absorb {a b} ha hb := by
    have hd := congrArg ScalarDefinition.directives ha
    simp [normalize, absorb, combineRepeated_mergeDirectives hd]
  name_skeleton _ := rfl
  name_normalize _ := rfl
  span_normalize _ := rfl
  name_absorb _ _ := rfl
  span_absorb _ _ := rfl

instance : LawfulDefinition EnumDefinition where
  skeleton a :=
    { a with
      values := a.values.map skeleton
      directives := a.directives.map Directive.skeleton
      descriptions := []
      comments := []
      span := default }
  sameStructure_iff a b := by
    simp [sameStructure, sameStructures_iff, sameDirectives_iff, and_assoc]
  normalize_normalize a := by simp [normalize]
  skeleton_absorb {a b} ha h := by
    have hvalues : a.values.map normalize = a.values := congrArg EnumDefinition.values ha
    have hd := congrArg EnumDefinition.directives ha
    simp only [EnumDefinition.mk.injEq] at h
    simp [absorb, map_skeleton_absorbPairwise hvalues h.2.1,
      map_skeleton_mergeDirectives hd h.2.2.1]
  normalize_absorb {a b} ha hb := by
    have hvalues := map_normalize_absorbPairwise (congrArg EnumDefinition.values ha)
      (congrArg EnumDefinition.values hb)
    have hd := combineRepeated_mergeDirectives (congrArg EnumDefinition.directives ha) b.directives
    show { absorb a b with
      values := (absorbPairwise a.values b.values).map normalize
      directives := combineRepeated (mergeDirectives a.directives b.directives) } = _
    rw [hvalues, hd]
    rfl
  name_skeleton _ := rfl
  name_normalize _ := rfl
  span_normalize _ := rfl
  name_absorb _ _ := rfl
  span_absorb _ _ := rfl

instance : LawfulDefinition FieldsDefinition where
  skeleton a :=
    { a with
      fields := a.fields.map skeleton
      directives := a.directives.map Directive.skeleton
      descriptions := []
      comments := []
      span := default }
  sameStructure_iff a b := by
    simp [sameStructure, sameStructures_iff, sameDirectives_iff, and_assoc]
  normalize_normalize a := by simp [normalize]
  skeleton_absorb {a b} ha h := by
    have hfields : a.fields.map normalize = a.fields := congrArg FieldsDefinition.fields ha
    have hd := congrArg FieldsDefinition.directives ha
    simp only [FieldsDefinition.mk.injEq] at h
    simp [absorb, map_skeleton_absorbPairwise hfields h.2.1,
      map_skeleton_mergeDirectives hd h.2.2.1]
  normalize_absorb {a b} ha hb := by
    have hfields := map_normalize_absorbPairwise (congrArg FieldsDefinition.fields ha)
      (congrArg FieldsDefinition.fields hb)
    have hd := combineRepeated_mergeDirectives (congrArg FieldsDefinition.directives ha)
      b.directives
    show { absorb a b with
      fields := (absorbPairwise a.fields b.fields).map normalize
      directives := combineRepeated (mergeDirectives a.directives b.directives) } = _
    rw [hfields, hd]
    rfl
  name_skeleton _ := rfl
  name_normalize _ := rfl
  span_normalize _ := rfl
  name_absorb _ _ := rfl
  span_absorb _ _ := rfl

instance : LawfulDefinition UnionDefinition where
  skeleton a :=
    { a with
      directives := a.directives.map Directive.skeleton
      descriptions := []
      comments := []
      span := default }
  sameStructure_iff a b := by simp [sameStructure, sameDirectives_iff, and_assoc]
  normalize_normalize a := by simp [normalize]
  skeleton_absorb {a b} ha h := by
    have hd := congrArg UnionDefinition.directives ha
    simp only [UnionDefinition.mk.injEq] at h
    simp [absorb, map_skeleton_mergeDirectives hd h.2.2.1]
  normalize_absorb {a b} ha hb := by
    have hd := congrArg UnionDefinition.directives ha
    simp [normalize, absorb, combineRepeated_mergeDirectives hd]
  name_skeleton _ := rfl
  name_normalize _ := rfl
  span_normalize _ := rfl
  name_absorb _ _ := rfl
  span_absorb _ _ := rfl

instance : LawfulDefinition TypeDefinition where
  skeleton a :=
    { a with
      fields := a.fields.map skeleton
      directives := a.directives.map Directive.skeleton
      descriptions := []
      comments := []
      span := default }
  sameStructure_iff a b := by
    simp [sameStructure, sameStructures_iff, sameDirectives_iff, and_assoc]
  normalize_normalize a := by simp [normalize]
  skeleton_absorb {a b} ha h := by
    have hfields : a.fields.map normalize = a.fields := congrArg TypeDefinition.fields ha
    have hd := congrArg TypeDefinition.directives ha
    simp only [TypeDefinition.mk.injEq] at h
    simp [absorb, map_skeleton_absorbPairwise hfields h.2.2.1,
      map_skeleton_mergeDirectives hd h.2.2.2.1]
  normalize_absorb {a b} ha hb := by
    have hfields := map_normalize_absorbPairwise (congrArg TypeDefinition.fields ha)
      (congrArg TypeDefinition.fields hb)
    have hd := combineRepeated_mergeDirectives (congrArg TypeDefinition.directives ha)
      b.directives
    show { absorb a b with
      fields := (absorbPairwise a.fields b.fields).map normalize
      directives := combineRepeated (mergeDirectives a.directives b.directives) } = _
    rw [hfields, hd]
    rfl
  name_skeleton _ := rfl
  name_normalize _ := rfl
  span_normalize _ := rfl
  name_absorb _ _ := rfl
  span_absorb _ _ := rfl

end SchemaMerge
