import SchemaMerge.Proofs.Merge.Documentation

/-!
# Absorption only adds text

Absorbing merges directives by name at every depth, so an application can get arguments that it did
not have. Between nodes of one structure that are in normal form it does not come to that: each
application meets the one of its name, whose arguments it has, and only descriptions and comments
are joined. So the node that has absorbed another one has the structure it had, is still in normal
form, and is documented with the texts of both.

Result:
* `absorbsText_nodes`: this holds of every kind of node, and definitions keep name and span.
-/

namespace SchemaMerge

open Node

/-- The node `merged` says what `first` says, in normal form, and is documented with the texts of
`first` and those of `second`: its own in this order, and of what is in it neither more nor less. -/
structure AddsText {α : Type} [Node α] [Documented α] (first second merged : α) : Prop where
  sameStructure : sameStructure first merged = true
  normalize : normalize merged = merged
  own : ∀ kind, own kind merged = own kind first ++ own kind second
  texts : ∀ kind, texts kind merged = texts kind first + texts kind second

/-- A node in normal form that absorbs one of the same structure only takes over its texts. -/
def AbsorbsText (α : Type) [Node α] [Documented α] : Prop :=
  ∀ a b : α, sameStructure (normalize a) (normalize b) = true →
    AddsText (normalize a) (normalize b) (absorb (normalize a) (normalize b))

/-- So does a definition, which also stays the one it is, at its place. -/
structure DefinitionAbsorbsText (α : Type) [Definition α] [Documented α] : Prop where
  absorbsText : AbsorbsText α
  name_absorb : ∀ a b : α, Definition.name (absorb a b) = Definition.name a
  span_absorb : ∀ a b : α, Definition.span (absorb a b) = Definition.span a

theorem absorbsText (α : Type) [Node α] [LawfulNode α] [Documented α] [LawfulDocumented α] :
    AbsorbsText α := by
  intro a b h
  have ha : normalize (normalize a) = normalize a := LawfulNode.normalize_normalize a
  have hb : normalize (normalize b) = normalize b := LawfulNode.normalize_normalize b
  have hskeleton := (sameStructure_iff _ _).1 h
  exact
    { sameStructure := (sameStructure_iff _ _).2 (LawfulNode.skeleton_absorb ha hskeleton).symm
      normalize := LawfulNode.normalize_absorb ha hb
      own := fun kind => LawfulDocumented.own_absorb kind _ _
      texts := fun kind => LawfulDocumented.texts_absorb kind hskeleton }

theorem definitionAbsorbsText (α : Type) [Definition α] [LawfulDefinition α] [Documented α]
    [LawfulDocumented α] : DefinitionAbsorbsText α where
  absorbsText := absorbsText α
  name_absorb := LawfulDefinition.name_absorb
  span_absorb := LawfulDefinition.span_absorb

/-- **Absorbing a duplicate only adds text**, for every kind of definition and every kind of node in
one. Interfaces and inputs are one kind. -/
theorem absorbsText_nodes :
    AbsorbsText Argument ∧ AbsorbsText EnumValue ∧ DefinitionAbsorbsText Field ∧
      DefinitionAbsorbsText DirectiveDefinition ∧ DefinitionAbsorbsText ScalarDefinition ∧
      DefinitionAbsorbsText EnumDefinition ∧ DefinitionAbsorbsText FieldsDefinition ∧
      DefinitionAbsorbsText UnionDefinition ∧ DefinitionAbsorbsText TypeDefinition := by
  refine ⟨absorbsText _, absorbsText _, ?_, ?_, ?_, ?_, ?_, ?_, ?_⟩ <;>
    exact definitionAbsorbsText _

/-- Out of normal form it can do more: both applications of the other node are absorbed by the first
one, which so gets an argument that it did not have. -/
example :
    let application := fun value => (⟨"tag", [⟨"name", [value], false⟩], []⟩ : Directive)
    let date : ScalarDefinition :=
      ⟨"Date", [application "1", application "2"], [], [], default⟩
    (absorb date date).directives.map (fun d => d.arguments.length) = [2, 1] := by
  decide

end SchemaMerge
