/-!
# Causes of failure

Reading and merging fail for one of a fixed number of causes, in three classes: the characters form
no token, the tokens form no document, or the documents contradict one another (`SdlErrorKind`,
`SdlErrorClass`).
-/

namespace SchemaMerge

/-! ## Categories of definitions -/

/-- The kind of thing that two definitions define. -/
inductive Category
  | directive | enum | field | input | interface | scalar | type | union
deriving DecidableEq, Inhabited

/-- The category as messages write it. -/
def Category.text : Category → String
  | .directive => "Directive"
  | .enum => "Enum"
  | .field => "Field"
  | .input => "Input"
  | .interface => "Interface"
  | .scalar => "Scalar"
  | .type => "Type"
  | .union => "Union"

/-! ## Causes -/

/-- Characters that form no token. -/
inductive LexicalCause
  /-- A line ended inside a string. -/
  | unterminatedString
  /-- The text ended inside a block string. -/
  | unterminatedBlockString
  /-- The name or number `after` runs into the character `found`. -/
  | invalidAdjacency (after : String) (found : Char)
  /-- No token starts with `found`. -/
  | unexpectedCharacter (found : Char)
deriving DecidableEq, Inhabited

/-- Tokens that form no document. -/
inductive SyntacticCause
  /-- The token written `found` stands where one of `expected` was wanted. -/
  | unexpectedToken (expected : List String) (found : String)
  /-- The text ends where one of `expected` was wanted. -/
  | unexpectedEnd (expected : List String)
  /-- A schema block names a type for something that is no root operation. -/
  | unknownSchemaKey (key : String)
  /-- A schema block names two types for one root operation. -/
  | duplicateSchemaKey (key : String)
  /-- List literals are nested more than `maxDepth` deep. -/
  | nestingTooDeep (maxDepth : Nat)
deriving DecidableEq, Inhabited

/-- Documents that contradict one another. -/
inductive ConflictCause
  /-- Two definitions of one name differ. -/
  | duplicateDefinition (category : Category) (name : String)
  /-- Two schema blocks name different types for one root operation. -/
  | rootOperationMismatch (operation first second : String)
  /-- A type is extended and nowhere defined. -/
  | extensionWithoutBase (name : String)
deriving DecidableEq, Inhabited

/-- Why reading or merging failed. -/
inductive Cause
  | lexical (cause : LexicalCause)
  | syntactic (cause : SyntacticCause)
  | conflict (cause : ConflictCause)
deriving DecidableEq, Inhabited

/-! ## Wording -/

/-- A short description of the cause. -/
def LexicalCause.text : LexicalCause → String
  | .unterminatedString => "unterminated string"
  | .unterminatedBlockString => "unterminated block string"
  | .invalidAdjacency after _ => "invalid token after `" ++ after ++ "`"
  | .unexpectedCharacter found => "unexpected character `" ++ found.toString ++ "`"

@[inherit_doc LexicalCause.text]
def SyntacticCause.text : SyntacticCause → String
  | .unexpectedToken _ found => "unexpected token: `" ++ found ++ "`"
  | .unexpectedEnd _ => "unexpected end of input"
  | .unknownSchemaKey key => "unknown schema key: `" ++ key ++ "`"
  | .duplicateSchemaKey key => "duplicate schema key: `" ++ key ++ "`"
  | .nestingTooDeep maxDepth =>
    "list literal nested deeper than " ++ toString maxDepth ++ " levels"

@[inherit_doc LexicalCause.text]
def ConflictCause.text : ConflictCause → String
  | .duplicateDefinition category name => "duplicated " ++ category.text ++ " `" ++ name ++ "`"
  | .rootOperationMismatch operation first second =>
    "conflicting " ++ operation ++ " root type: `" ++ first ++ "` vs `" ++ second ++ "`"
  | .extensionWithoutBase name => "extension of undefined type `" ++ name ++ "`"

/-- The class of the cause and its short description. -/
def Cause.text : Cause → String
  | .lexical cause => "lexical error: " ++ cause.text
  | .syntactic cause => "syntax error: " ++ cause.text
  | .conflict cause => "merge conflict: " ++ cause.text

end SchemaMerge
