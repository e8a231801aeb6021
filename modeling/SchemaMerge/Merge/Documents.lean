import SchemaMerge.Merge.SchemaBlocks
import SchemaMerge.Merge.Types
import SchemaMerge.Printing.Document
import SchemaMerge.Reading.Document

/-!
# Merging documents

Documents are merged category by category (`merge`). The schema blocks come first, since they decide
which types are root types; of several conflicts the first in the order of categories is reported.
-/

namespace SchemaMerge

/-- The one document that several documents become. -/
def Document.merge (documents : List Document) : Except Diagnostic Document := do
  let all := Document.concat documents
  let block ← reduceSchemaBlocks all.schemaBlocks
  let directiveDefinitions ← deduplicate .directive all.directiveDefinitions
  let scalars ← deduplicate .scalar all.scalars
  let enums ← deduplicate .enum all.enums
  let interfaces ← deduplicate .interface all.interfaces
  let unions ← deduplicate .union all.unions
  let inputs ← deduplicate .input all.inputs
  let types ← foldTypes (rootTypeNames block) all.types
  return { schemaBlocks := block.toList, directiveDefinitions, scalars, enums, interfaces, unions
           inputs, types }

/-! ## From texts -/

/-- A schema text and the name of its file. -/
structure Source where
  file : String
  text : String
deriving DecidableEq, Inhabited

/-- The documents of several texts, or the first failure to read one. -/
def readSources (sources : List Source) : Except Diagnostic (List Document) :=
  sources.mapM fun source => Document.ofText source.file source.text

/-- The merged document of several texts. -/
def mergeSources (sources : List Source) : Except Diagnostic Document := do
  Document.merge (← readSources sources)

/-- The merged document of several texts, as text. -/
def mergeText (sources : List Source) (unit : String) : Except Diagnostic String := do
  return (← mergeSources sources).print unit

/-- The text of the file that a diagnostic is about. -/
def Diagnostic.sourceText? (diagnostic : Diagnostic) (sources : List Source) : Option String :=
  (sources.find? fun source => source.file = diagnostic.span.file).map Source.text

end SchemaMerge
