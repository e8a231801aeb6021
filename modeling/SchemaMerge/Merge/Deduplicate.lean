import SchemaMerge.Diagnostic.Basic
import SchemaMerge.Merge.Node

/-!
# One definition for each name

Definitions of one name are merged into the first of them if they have the same structure, and are
in conflict otherwise (`dedup_definitions`). The merged definitions stand in the order in which
their names first occur.
-/

namespace SchemaMerge

/-- Puts an item into a list that has one item for each key. The item of its key is combined with
it; an item of a new key is put at the end if `fresh` allows it. -/
def insertKeyed {α : Type} (key : α → String) (combine : α → α → Except Diagnostic α)
    (fresh : α → Except Diagnostic α) : List α → α → Except Diagnostic (List α)
  | [], item => do return [← fresh item]
  | first :: rest, item => do
    if key first = key item then return (← combine first item) :: rest
    else return first :: (← insertKeyed key combine fresh rest item)

/-- Two definitions of one name that differ, the earlier one at `earlier`. -/
def Diagnostic.duplicateDefinition (category : Category) (name : String) (earlier later : Span) :
    Diagnostic :=
  (Diagnostic.conflicting (.duplicateDefinition category name)
    ("Duplicated " ++ category.text ++ ": " ++ name ++ "(" ++ earlier.text ++ ") and (" ++
      later.text ++ ")")
    later earlier).addHelp "make both definitions identical or rename one of them"

section

variable {α : Type} [Definition α]

/-- One definition for two of the same structure. In a conflict they go by the name `label`. -/
def unify (category : Category) (label : String) (earlier later : α) : Except Diagnostic α :=
  if sameStructure earlier later then .ok (absorb earlier later)
  else
    .error (.duplicateDefinition category label (Definition.span earlier) (Definition.span later))

/-- The definitions in normal form, those of one name merged. -/
def deduplicate (category : Category) (definitions : List α) : Except Diagnostic (List α) :=
  definitions.foldlM
    (fun merged definition =>
      insertKeyed Definition.name
        (fun earlier later => unify category (Definition.name earlier) earlier later) .ok
        merged (normalize definition))
    []

end

end SchemaMerge
