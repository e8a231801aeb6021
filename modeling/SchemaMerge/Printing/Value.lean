import SchemaMerge.Document.Basic

/-!
# Printing values, directives and arguments

The printed form of what follows a name. `unit` is the text of one level of indentation. Up to two
entries stand on one line; more are put on lines of their own. An argument with a description is put
on a line of its own as well, because a comment would swallow the rest of its line. Directives are
printed by name, the last name first (`write_directives`, `write_args`, `write_default_value`).
-/

namespace SchemaMerge.Printing

/-- The indentation at a depth. -/
def indentation (unit : String) (depth : Nat) : String := String.join (List.replicate depth unit)

/-- How many entries may share a line. -/
def maxInlineEntries : Nat := 2

/-- The first description on a line of its own. -/
def description (unit : String) (depth : Nat) (descriptions : List String) : String :=
  match descriptions with
  | [] => ""
  | first :: _ => indentation unit depth ++ first ++ "\n"

/-- The first comment at the end of a line. -/
def trailingComment (comments : List String) : String :=
  match comments with
  | [] => ""
  | first :: _ => " " ++ first

/-- Values, in brackets if they are a list. -/
def values (separator : String) (isList : Bool) (values : List String) : String :=
  let inner := String.intercalate separator values
  if isList then "[" ++ inner ++ "]" else inner

/-- The default behind a type. -/
def defaultValue : Option DefaultValue → String
  | none => ""
  | some default => " = " ++ values ", " default.isList default.values

/-- Entries on lines of their own, between parentheses that open and close at `depth`. -/
def wrapped (unit : String) (depth : Nat) (lines : List String) : String :=
  "(\n" ++ String.join (lines.map fun line => line ++ "\n") ++ indentation unit depth ++ ")"

/-- Entries on one line, between parentheses. -/
def inline (entries : List String) : String := "(" ++ String.intercalate ", " entries ++ ")"

/-! ## Directives -/

/-- An argument given to a directive. -/
def directiveArgument (argument : DirectiveArgument) : String :=
  argument.name ++ ": " ++ values "," argument.isList argument.values

/-- The arguments given to a directive, if there are any. -/
def directiveArguments (unit : String) (depth : Nat) (arguments : List DirectiveArgument) :
    String :=
  if arguments.isEmpty then ""
  else if maxInlineEntries < arguments.length then
    wrapped unit depth
      (arguments.map fun argument => indentation unit (depth + 1) ++ directiveArgument argument)
  else inline (arguments.map directiveArgument)

/-- Directives from the last name to the first. Those of one name keep their order. -/
def sortedDirectives (directives : List Directive) : List Directive :=
  directives.mergeSort fun a b => b.name ≤ a.name

/-- The directives behind what they are applied to. -/
def directives (unit : String) (depth : Nat) (directives : List Directive) : String :=
  String.join ((sortedDirectives directives).map fun directive =>
    " @" ++ directive.name ++ directiveArguments unit depth directive.arguments)

/-! ## Arguments -/

/-- An argument on a line that is indented to `depth`. -/
def argument (unit : String) (depth : Nat) (argument : Argument) : String :=
  argument.name ++ ": " ++ argument.type.text ++ defaultValue argument.default ++
    directives unit depth argument.directives

/-- Whether arguments are put on lines of their own. -/
def wrapsArguments (arguments : List Argument) : Bool :=
  maxInlineEntries < arguments.length ||
    arguments.any fun argument => !argument.descriptions.isEmpty

/-- The arguments of something that stands at `depth`, if there are any. -/
def arguments (unit : String) (depth : Nat) (arguments : List Argument) : String :=
  if arguments.isEmpty then ""
  else if wrapsArguments arguments then
    wrapped unit depth (arguments.map fun a =>
      description unit (depth + 1) a.descriptions ++ indentation unit (depth + 1) ++
        argument unit (depth + 1) a)
  else inline (arguments.map (argument unit depth))

end SchemaMerge.Printing
