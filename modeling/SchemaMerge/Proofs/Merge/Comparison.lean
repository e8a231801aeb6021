import SchemaMerge.Proofs.Merge.Documentation

/-!
# Equal structure is equality without documentation

A skeleton has no description and no comment in it, nor in what it is made of (`texts_skeleton_type`
and the lemmas before it), and all its spans are one. Comparing the structure of two nodes is
comparing their skeletons, for a node and for a list of nodes, so it is an equivalence. `ComparesBy`
says so of one comparison, and `comparesUndocumented_skeleton` of that of every kind of node.
-/

namespace SchemaMerge

open Node

/-- A test that compares what a function leaves of two values. -/
structure ComparesBy {α : Type} (erase : α → α) (same : α → α → Bool) : Prop where
  iff_erase (a b : α) : same a b = true ↔ erase a = erase b
  equivalence : Equivalence fun a b => same a b = true

/-- A test for equality of what a function leaves is an equivalence, as equality is. -/
theorem comparesBy_of_iff {α : Type} {erase : α → α} {same : α → α → Bool}
    (h : ∀ a b, same a b = true ↔ erase a = erase b) : ComparesBy erase same where
  iff_erase := h
  equivalence := by
    constructor
    · intro a
      exact (h a a).2 rfl
    · intro a b hab
      exact (h b a).2 ((h a b).1 hab).symm
    · intro a b c hab hbc
      exact (h a c).2 (((h a b).1 hab).trans ((h b c).1 hbc))

/-- A comparison of nodes up to their documentation, and that of lists of them position by
position. What is compared has no documentation. -/
structure ComparesUndocumented {α : Type} [Documented α] (erase : α → α) (same : α → α → Bool) :
    Prop where
  nodes : ComparesBy erase same
  lists : ComparesBy (List.map erase) (pairwise same)
  texts_erase (kind : TextKind) (a : α) : texts kind (erase a) = 0

/-- It is enough to look at single nodes: lists are compared position by position. -/
theorem comparesUndocumented_of_iff {α : Type} [Documented α] {erase : α → α} {same : α → α → Bool}
    (h : ∀ a b, same a b = true ↔ erase a = erase b)
    (htexts : ∀ kind a, texts kind (erase a) = 0) : ComparesUndocumented erase same where
  nodes := comparesBy_of_iff h
  lists := comparesBy_of_iff (pairwise_iff_map_eq h)
  texts_erase := htexts

/-! ## Skeletons have no documentation -/

theorem TextKind.pick_nil (kind : TextKind) : kind.pick [] [] = [] := by cases kind <;> rfl

section

variable (kind : TextKind)

/-- A list of nodes has no texts if none of them has. -/
theorem textsOf_map_eq_zero {α : Type} [Documented α] {erase : α → α}
    (h : ∀ a, texts kind (erase a) = 0) (as : List α) : textsOf kind (as.map erase) = 0 := by
  induction as with
  | nil => rfl
  | cons a as ih => rw [List.map_cons, textsOf_cons, h, ih, add_zero]

/-- Of a directive its name and its arguments are left, which have no texts. -/
theorem texts_skeleton_directive (d : Directive) : texts kind d.skeleton = 0 := by
  simp [texts, Directive.skeleton, TextKind.pick_nil]

theorem textsOf_skeletons (ds : List Directive) : textsOf kind (ds.map Directive.skeleton) = 0 :=
  textsOf_map_eq_zero kind (texts_skeleton_directive kind) ds

theorem texts_skeleton_argument (a : Argument) : texts kind (skeleton a) = 0 := by
  simp [texts, skeleton, TextKind.pick_nil, textsOf_skeletons]

theorem texts_skeleton_field (a : Field) : texts kind (skeleton a) = 0 := by
  have harguments := textsOf_map_eq_zero kind (texts_skeleton_argument kind) a.arguments
  simp only [texts, skeleton, TextKind.pick_nil, textsOf_skeletons] at harguments ⊢
  rw [harguments]
  rfl

theorem texts_skeleton_enumValue (a : EnumValue) : texts kind (skeleton a) = 0 := by
  simp [texts, skeleton, TextKind.pick_nil, textsOf_skeletons]

/-- What has parts has no texts left because its parts have none. -/
theorem texts_skeleton_directiveDefinition (a : DirectiveDefinition) :
    texts kind (skeleton a) = 0 := by
  have harguments := textsOf_map_eq_zero kind (texts_skeleton_argument kind) a.arguments
  simp only [texts, skeleton, TextKind.pick_nil] at harguments ⊢
  rw [harguments]
  rfl

theorem texts_skeleton_scalar (a : ScalarDefinition) : texts kind (skeleton a) = 0 := by
  simp [texts, skeleton, TextKind.pick_nil, textsOf_skeletons]

theorem texts_skeleton_enum (a : EnumDefinition) : texts kind (skeleton a) = 0 := by
  have hvalues := textsOf_map_eq_zero kind (texts_skeleton_enumValue kind) a.values
  simp only [texts, skeleton, TextKind.pick_nil, textsOf_skeletons] at hvalues ⊢
  rw [hvalues]
  rfl

/-- Interfaces and inputs, part by part as well. -/
theorem texts_skeleton_fieldsDefinition (a : FieldsDefinition) : texts kind (skeleton a) = 0 := by
  have hfields := textsOf_map_eq_zero kind (texts_skeleton_field kind) a.fields
  simp only [texts, skeleton, TextKind.pick_nil, textsOf_skeletons] at hfields ⊢
  rw [hfields]
  rfl

theorem texts_skeleton_union (a : UnionDefinition) : texts kind (skeleton a) = 0 := by
  simp [texts, skeleton, TextKind.pick_nil, textsOf_skeletons]

/-- Object types differ from these in the names of interfaces alone, which are no texts. -/
theorem texts_skeleton_type (a : TypeDefinition) : texts kind (skeleton a) = 0 := by
  have hfields := textsOf_map_eq_zero kind (texts_skeleton_field kind) a.fields
  simp only [texts, skeleton, TextKind.pick_nil, textsOf_skeletons] at hfields ⊢
  rw [hfields]
  rfl

end

/-! ## Every kind of node -/

/-- **Equal structure is equality of skeletons**, of directives and of every kind of node, one by
one and in lists. Interfaces and inputs are one kind. -/
theorem comparesUndocumented_skeleton :
    ComparesUndocumented Directive.skeleton Directive.sameStructure ∧
      ComparesUndocumented (α := Argument) skeleton sameStructure ∧
      ComparesUndocumented (α := Field) skeleton sameStructure ∧
      ComparesUndocumented (α := EnumValue) skeleton sameStructure ∧
      ComparesUndocumented (α := DirectiveDefinition) skeleton sameStructure ∧
      ComparesUndocumented (α := ScalarDefinition) skeleton sameStructure ∧
      ComparesUndocumented (α := EnumDefinition) skeleton sameStructure ∧
      ComparesUndocumented (α := FieldsDefinition) skeleton sameStructure ∧
      ComparesUndocumented (α := UnionDefinition) skeleton sameStructure ∧
      ComparesUndocumented (α := TypeDefinition) skeleton sameStructure := by
  refine ⟨?_, ?_, ?_, ?_, ?_, ?_, ?_, ?_, ?_, ?_⟩
  · exact comparesUndocumented_of_iff Directive.sameStructure_iff texts_skeleton_directive
  · exact comparesUndocumented_of_iff sameStructure_iff texts_skeleton_argument
  · exact comparesUndocumented_of_iff sameStructure_iff texts_skeleton_field
  · exact comparesUndocumented_of_iff sameStructure_iff texts_skeleton_enumValue
  · exact comparesUndocumented_of_iff sameStructure_iff texts_skeleton_directiveDefinition
  · exact comparesUndocumented_of_iff sameStructure_iff texts_skeleton_scalar
  · exact comparesUndocumented_of_iff sameStructure_iff texts_skeleton_enum
  · exact comparesUndocumented_of_iff sameStructure_iff texts_skeleton_fieldsDefinition
  · exact comparesUndocumented_of_iff sameStructure_iff texts_skeleton_union
  · exact comparesUndocumented_of_iff sameStructure_iff texts_skeleton_type

end SchemaMerge
