import SchemaMerge.Merge.Deduplicate

/-!
# Folding object types

The extensions of a type are folded into its definition, wherever they stand, and so are repeated
definitions of a root type (`fold_type_defs`): interfaces and directives are united, and the fields
put together (`fold_fragment`, `merge_fields`). Any other repeated definition has to have the
structure of the first.
-/

namespace SchemaMerge

/-- The fields of a type with those of a fragment of it. Fields of one name have to have the same
structure. -/
def uniteFields (type : String) (fields incoming : List Field) : Except Diagnostic (List Field) :=
  incoming.foldlM
    (insertKeyed Field.name
      (fun earlier later => unify .field (type ++ "." ++ earlier.name) earlier later) .ok)
    fields

/-- A type with all that a fragment of it adds. -/
def TypeDefinition.fold (base fragment : TypeDefinition) : Except Diagnostic TypeDefinition := do
  let fields ← uniteFields base.name base.fields fragment.fields
  return { base with
    interfaces := uniteNames base.interfaces fragment.interfaces
    directives := mergeDirectives base.directives fragment.directives
    fields
    descriptions := base.descriptions ++ fragment.descriptions
    comments := base.comments ++ fragment.comments }

/-- An extension of a type that is nowhere defined. -/
def Diagnostic.extensionWithoutBase (name : String) (span : Span) : Diagnostic :=
  (Diagnostic.plain (.conflict (.extensionWithoutBase name))
    ("Extension of undefined type: " ++ name ++ "(" ++ span.text ++ ")") span).addHelp
    ("define `type " ++ name ++ "` in one of the input files")

/-- A type with one more definition or extension of its name. -/
def TypeDefinition.unite (roots : List String) (base definition : TypeDefinition) :
    Except Diagnostic TypeDefinition :=
  if definition.isExtension || definition.name ∈ roots then base.fold definition
  else unify .type base.name base definition

/-- A definition of a name that has none yet. -/
def TypeDefinition.asBase (definition : TypeDefinition) : Except Diagnostic TypeDefinition :=
  if definition.isExtension then
    .error (.extensionWithoutBase definition.name definition.span)
  else .ok definition

/-- One definition for each type, given the names of the root types. -/
def foldTypes (roots : List String) (types : List TypeDefinition) :
    Except Diagnostic (List TypeDefinition) :=
  let (extensions, bases) := types.partition TypeDefinition.isExtension
  (bases ++ extensions).foldlM
    (fun merged type =>
      insertKeyed TypeDefinition.name (TypeDefinition.unite roots) TypeDefinition.asBase
        merged (normalize type))
    []

end SchemaMerge
