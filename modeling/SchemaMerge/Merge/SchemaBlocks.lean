import SchemaMerge.Diagnostic.Basic
import SchemaMerge.Document.Basic

/-!
# One schema block

The schema blocks of all documents become one, as in `reduce_schema_blocks`. The first block
supplies the types of the root operations. A later block may name a type for an operation that
still has none; a type other than the one that is named is a conflict with the block that named it.
-/

namespace SchemaMerge

/-- Two blocks that name different types for an operation. -/
def Diagnostic.rootOperationMismatch (operation : RootOperation) (first second : String)
    (earlier later : Span) : Diagnostic :=
  .conflicting (.rootOperationMismatch operation.key first second)
    ("Conflicting schema " ++ operation.key ++ ": " ++ first ++ "(" ++ earlier.text ++ ") and " ++
      second ++ "(" ++ later.text ++ ")")
    later earlier

/-- The block that stands for those read so far, and for each operation the place of the block
that named its type. -/
structure BlockReduction where
  block : SchemaBlock
  origin : RootOperation → Option Span

namespace BlockReduction

/-- The first block stands for itself. -/
def start (first : SchemaBlock) : BlockReduction where
  block := first
  origin operation := (first.rootType? operation).map fun _ => first.span

/-- Takes over the type that a later block names for an operation, unless another is named. -/
def name (later : SchemaBlock) (reduced : BlockReduction) (operation : RootOperation) :
    Except Diagnostic BlockReduction :=
  match later.rootType? operation with
  | none => .ok reduced
  | some incoming =>
    match reduced.block.rootType? operation with
    | none =>
      .ok { block := reduced.block.setRootType incoming operation
            origin := fun other =>
              if other = operation then some later.span else reduced.origin other }
    | some current =>
      if current = incoming then .ok reduced
      else
        .error (.rootOperationMismatch operation current incoming
          ((reduced.origin operation).getD reduced.block.span) later.span)

/-- Adds a block: its type for one operation after the other, and then its descriptions. -/
def add (reduced : BlockReduction) (later : SchemaBlock) : Except Diagnostic BlockReduction := do
  let named ← RootOperation.all.foldlM (name later) reduced
  return { named with
    block := { named.block with
      descriptions := named.block.descriptions ++ later.descriptions } }

end BlockReduction

/-- The one block that several blocks become. -/
def reduceSchemaBlocks : List SchemaBlock → Except Diagnostic (Option SchemaBlock)
  | [] => .ok none
  | first :: blocks => do
    let reduced ← blocks.foldlM BlockReduction.add (.start first)
    return some reduced.block

end SchemaMerge
