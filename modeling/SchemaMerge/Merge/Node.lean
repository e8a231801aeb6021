import SchemaMerge.Merge.Directives

/-!
# Equal structure, normal form and absorption

Two nodes of a document have the same structure when they differ at most in descriptions, trailing
comments and spans (`structurally_eq`). Such nodes say the same, and one can absorb the other: it
takes over its documentation (`absorb`). Before nodes are compared, every list of directives in them
is brought into normal form (`normalize_directives`).
-/

namespace SchemaMerge

/-- A part of a document that is compared and merged as a whole. -/
class Node (α : Type) where
  /-- Whether two nodes differ at most in descriptions, comments and spans. -/
  sameStructure : α → α → Bool
  /-- The node with the repeated directives in it combined. -/
  normalize : α → α
  /-- The node with the documentation of another of the same structure. -/
  absorb : α → α → α

/-- A node that has a name and a place of its own. -/
class Definition (α : Type) extends Node α where
  name : α → String
  span : α → Span

export Node (sameStructure normalize absorb)

/-! ## Lists of nodes -/

/-- Whether two lists are equally long and agree position by position. -/
def pairwise {α : Type} (same : α → α → Bool) : List α → List α → Bool
  | [], [] => true
  | a :: as, b :: bs => same a b && pairwise same as bs
  | _, _ => false

/-- Whether two lists of nodes have the same structure, position by position. -/
def sameStructures {α : Type} [Node α] : List α → List α → Bool := pairwise sameStructure

/-- The nodes of one list, each with the documentation of its partner in the other. -/
def absorbPairwise {α : Type} [Node α] : List α → List α → List α
  | a :: as, b :: bs => absorb a b :: absorbPairwise as bs
  | as, _ => as

/-! ## Directives -/

/-- Whether two applications differ at most in descriptions. -/
def Directive.sameStructure (d e : Directive) : Bool := d.name = e.name && d.arguments = e.arguments

/-- Whether two lists of directives differ at most in descriptions. -/
def sameDirectives : List Directive → List Directive → Bool := pairwise Directive.sameStructure

/-! ## Members -/

instance : Node Argument where
  sameStructure a b :=
    a.name = b.name && a.type = b.type && a.default = b.default &&
      sameDirectives a.directives b.directives
  normalize a := { a with directives := combineRepeated a.directives }
  absorb a b :=
    { a with
      descriptions := a.descriptions ++ b.descriptions
      directives := mergeDirectives a.directives b.directives }

instance : Definition Field where
  sameStructure a b :=
    a.name = b.name && sameStructures a.arguments b.arguments && a.type = b.type &&
      a.default = b.default && sameDirectives a.directives b.directives
  normalize a :=
    { a with
      arguments := a.arguments.map normalize
      directives := combineRepeated a.directives }
  absorb a b :=
    { a with
      descriptions := a.descriptions ++ b.descriptions
      comments := a.comments ++ b.comments
      arguments := absorbPairwise a.arguments b.arguments
      directives := mergeDirectives a.directives b.directives }
  name := Field.name
  span := Field.span

instance : Node EnumValue where
  sameStructure a b := a.name = b.name && sameDirectives a.directives b.directives
  normalize a := { a with directives := combineRepeated a.directives }
  absorb a b :=
    { a with
      descriptions := a.descriptions ++ b.descriptions
      comments := a.comments ++ b.comments
      directives := mergeDirectives a.directives b.directives }

/-! ## Definitions -/

instance : Definition DirectiveDefinition where
  sameStructure a b :=
    a.name = b.name && sameStructures a.arguments b.arguments && a.repeatable = b.repeatable &&
      a.locations = b.locations
  normalize a := { a with arguments := a.arguments.map normalize }
  absorb a b :=
    { a with
      descriptions := a.descriptions ++ b.descriptions
      comments := a.comments ++ b.comments
      arguments := absorbPairwise a.arguments b.arguments }
  name := DirectiveDefinition.name
  span := DirectiveDefinition.span

instance : Definition ScalarDefinition where
  sameStructure a b := a.name = b.name && sameDirectives a.directives b.directives
  normalize a := { a with directives := combineRepeated a.directives }
  absorb a b :=
    { a with
      descriptions := a.descriptions ++ b.descriptions
      comments := a.comments ++ b.comments
      directives := mergeDirectives a.directives b.directives }
  name := ScalarDefinition.name
  span := ScalarDefinition.span

instance : Definition EnumDefinition where
  sameStructure a b :=
    a.name = b.name && sameStructures a.values b.values && sameDirectives a.directives b.directives
  normalize a :=
    { a with
      values := a.values.map normalize
      directives := combineRepeated a.directives }
  absorb a b :=
    { a with
      descriptions := a.descriptions ++ b.descriptions
      comments := a.comments ++ b.comments
      values := absorbPairwise a.values b.values
      directives := mergeDirectives a.directives b.directives }
  name := EnumDefinition.name
  span := EnumDefinition.span

instance : Definition FieldsDefinition where
  sameStructure a b :=
    a.name = b.name && sameStructures a.fields b.fields && sameDirectives a.directives b.directives
  normalize a :=
    { a with
      fields := a.fields.map normalize
      directives := combineRepeated a.directives }
  absorb a b :=
    { a with
      descriptions := a.descriptions ++ b.descriptions
      comments := a.comments ++ b.comments
      fields := absorbPairwise a.fields b.fields
      directives := mergeDirectives a.directives b.directives }
  name := FieldsDefinition.name
  span := FieldsDefinition.span

instance : Definition UnionDefinition where
  sameStructure a b :=
    a.name = b.name && a.members = b.members && sameDirectives a.directives b.directives
  normalize a := { a with directives := combineRepeated a.directives }
  absorb a b :=
    { a with
      descriptions := a.descriptions ++ b.descriptions
      comments := a.comments ++ b.comments
      directives := mergeDirectives a.directives b.directives }
  name := UnionDefinition.name
  span := UnionDefinition.span

instance : Definition TypeDefinition where
  sameStructure a b :=
    a.name = b.name && a.interfaces = b.interfaces && sameStructures a.fields b.fields &&
      sameDirectives a.directives b.directives && a.isExtension = b.isExtension
  normalize a :=
    { a with
      fields := a.fields.map normalize
      directives := combineRepeated a.directives }
  absorb a b :=
    { a with
      descriptions := a.descriptions ++ b.descriptions
      comments := a.comments ++ b.comments
      fields := absorbPairwise a.fields b.fields
      directives := mergeDirectives a.directives b.directives }
  name := TypeDefinition.name
  span := TypeDefinition.span

end SchemaMerge
