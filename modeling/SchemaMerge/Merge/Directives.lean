import SchemaMerge.Document.Basic

/-!
# Merging directives

Applications of one directive are merged into the first of them (`merge_directives`). It takes over
the arguments that it does not have yet, and all descriptions. A list is in normal form when it
applies no directive twice (`combine_repeated_directives`).
-/

namespace SchemaMerge

/-- The arguments with one more, unless it is among them. -/
def addArgument (arguments : List DirectiveArgument) (argument : DirectiveArgument) :
    List DirectiveArgument :=
  if argument ∈ arguments then arguments else arguments ++ [argument]

/-- The application with the arguments and descriptions of another. -/
def Directive.absorb (directive other : Directive) : Directive where
  name := directive.name
  arguments := other.arguments.foldl addArgument directive.arguments
  descriptions := directive.descriptions ++ other.descriptions

/-- The applications with one more: merged into the first of its name, or put at the end. -/
def addDirective : List Directive → Directive → List Directive
  | [], directive => [directive]
  | first :: rest, directive =>
    if first.name = directive.name then first.absorb directive :: rest
    else first :: addDirective rest directive

/-- The applications with all those of another list. -/
def mergeDirectives (into incoming : List Directive) : List Directive :=
  incoming.foldl addDirective into

/-- The applications with those of one name merged. -/
def combineRepeated (directives : List Directive) : List Directive := mergeDirectives [] directives

end SchemaMerge
