import SchemaMerge.Host.Discovery
import SchemaMerge.Printing.Indent

/-!
# Command lines

A command line names a command, its options and its paths. `merge` takes at least one input and,
last, an output (`MergeCmd`); `check` takes inputs only (`CheckCmd`). Words are read from the left.
The values of an option or a path are looked at only when the next one starts, so that a word that
is no argument at all is reported before a bad value in front of it. Words behind `--` are paths
whatever they look like.

The command line is read word by word by `SubcommandState.read`; `parseArguments` is the whole.
-/

namespace SchemaMerge

/-- What ends the reading of a command line early. -/
inductive UsageFault
  | helpRequested | versionRequested | unknownArgument | unknownCommand | argumentRepeated
  | badValue | missingValue | needlessValue | missingArgument
deriving DecidableEq, Inhabited

/-- A command with its arguments. -/
inductive Command
  /-- Merge the schema files under some paths into one file. -/
  | merge (inputs : List String) (output : String) (extensions : List String)
      (indent : IndentPattern)
  /-- Merge the schema files under some paths and write nothing. -/
  | check (inputs extensions : List String)
deriving DecidableEq

/-- A command line that was read to the end. -/
structure Invocation where
  verbose : Bool
  command : Option Command
deriving DecidableEq

/-- The commands by name. -/
inductive CommandWord
  | merge | check
deriving DecidableEq, Inhabited

/-- The command of a name. -/
def CommandWord.ofText? (word : String) : Option CommandWord :=
  if word = "merge" then some .merge else if word = "check" then some .check else none

/-- What a value of a command line is for. -/
inductive Slot
  | extensions | indent | inputs | output
deriving DecidableEq, Inhabited

/-- The option of a command that a name stands for. -/
def CommandWord.option? (command : CommandWord) (name : String) : Option Slot :=
  if name = "graphql-file-exts" then some .extensions
  else if name = "indent" && command = .merge then some .indent
  else none

/-! ## Words -/

/-- What a word looks like. -/
inductive WordShape
  /-- The mark behind which all words are paths. -/
  | escape
  /-- An option by its name, perhaps with a value behind an equals sign. -/
  | long (name : String) (value : Option String)
  /-- Options by their letters. -/
  | short (letters : List Char)
  | plain
deriving DecidableEq, Inhabited

/-- A long option split at its first equals sign. -/
def splitOption (cs : List Char) : WordShape :=
  let name := String.ofList (cs.takeWhile (· ≠ '='))
  match cs.dropWhile (· ≠ '=') with
  | [] => .long name none
  | _ :: value => .long name (some (String.ofList value))

/-- What a word looks like. A single dash is a plain word. -/
def WordShape.ofText (word : String) : WordShape :=
  match word.toList with
  | ['-', '-'] => .escape
  | '-' :: '-' :: rest => splitOption rest
  | ['-'] => .plain
  | '-' :: letters => .short letters
  | _ => .plain

/-- Whether a word starts an option. -/
def WordShape.startsOption : WordShape → Bool
  | .long .. | .short _ => true
  | _ => false

/-! ## Arguments of a command -/

/-- The arguments of a command that have been read so far. -/
structure SubcommandState where
  command : CommandWord
  /-- The values of the argument that was started last, not yet looked at. -/
  pending : Option (Slot × List String)
  /-- Whether an option waits for its value. -/
  awaiting : Bool
  /-- Whether the mark for paths was met. -/
  escaped : Bool
  extensions : Option (List String)
  indent : Option IndentPattern
  inputs : List String
  output : Option String

namespace SubcommandState

/-- The state before the first word. -/
def start (command : CommandWord) : SubcommandState :=
  ⟨command, none, false, false, none, none, [], none⟩

/-- The state with the values of an argument looked at. -/
def store (state : SubcommandState) (slot : Slot) (values : List String) :
    Except UsageFault SubcommandState :=
  match slot, values with
  | _, [] => .error .missingValue
  | .extensions, values =>
    let parts := values.flatMap fun value => (splitOnChar ',' value.toList).map String.ofList
    .ok { state with extensions := some (state.extensions.getD [] ++ parts) }
  | .indent, value :: _ =>
    if state.indent.isSome then .error .argumentRepeated
    else
      match IndentPattern.ofText value with
      | .ok pattern => .ok { state with indent := some pattern }
      | .error _ => .error .badValue
  | .inputs, values =>
    if values.any String.isEmpty then .error .missingValue
    else .ok { state with inputs := state.inputs ++ values }
  | .output, value :: _ =>
    if value.isEmpty then .error .missingValue else .ok { state with output := some value }

/-- The state with the values of the argument that was started last looked at. -/
def settle (state : SubcommandState) : Except UsageFault SubcommandState :=
  match state.pending with
  | none => .ok state
  | some (slot, values) =>
    ({ state with pending := none, awaiting := false } : SubcommandState).store slot values

/-- The state with an option started by its name. -/
def readLong (state : SubcommandState) (name : String) (value : Option String) :
    Except UsageFault SubcommandState :=
  if name = "help" then
    if value.isSome then .error .needlessValue
    else do
      let _ ← state.settle
      throw .helpRequested
  else
    match state.command.option? name, value with
    | none, _ => .error .unknownArgument
    | some slot, some value => do (← state.settle).store slot [value]
    | some slot, none => do
      return { ← state.settle with pending := some (slot, []), awaiting := true }

/-- The fault that letters for options end in. The only letter asks for help. -/
def readShort (state : SubcommandState) (letters : List Char) : UsageFault :=
  match letters with
  | 'h' :: _ =>
    match state.settle with
    | .ok _ => .helpRequested
    | .error fault => fault
  | _ => .unknownArgument

/-- What the next path is for. For `merge` it is the output if it is the last word, or the last
before an option. -/
def nextSlot? (state : SubcommandState) (next : Option String) : Option Slot :=
  match state.command with
  | .check => some .inputs
  | .merge =>
    if state.output.isSome || state.pending.any (·.1 = .output) then none
    else
      match next with
      | none => some .output
      | some next => if (WordShape.ofText next).startsOption then some .output else some .inputs

/-- The state with a path. -/
def readPath (state : SubcommandState) (word : String) (next : Option String) :
    Except UsageFault SubcommandState :=
  match state.nextSlot? next, state.pending with
  | none, _ => .error .unknownArgument
  | some .inputs, some (.inputs, values) =>
    .ok { state with pending := some (.inputs, values ++ [word]) }
  | some slot, _ => do return { ← state.settle with pending := some (slot, [word]) }

/-- The state with one more word, given the word behind it. -/
def read (state : SubcommandState) (word : String) (next : Option String) :
    Except UsageFault SubcommandState :=
  if state.escaped then state.readPath word next
  else
    match WordShape.ofText word with
    | .escape => .ok { state with escaped := true }
    | .long name value => state.readLong name value
    | .short letters => .error (state.readShort letters)
    | .plain =>
      match state.awaiting, state.pending with
      | true, some (slot, values) =>
        .ok { state with pending := some (slot, values ++ [word]), awaiting := false }
      | _, _ => state.readPath word next

/-- The state with all words. -/
def readAll (state : SubcommandState) : List String → Except UsageFault SubcommandState
  | [] => state.settle
  | word :: words => do (← state.read word words.head?).readAll words

/-- The command that the arguments make, if none is missing. -/
def finish (state : SubcommandState) : Except UsageFault Command :=
  let extensions := state.extensions.getD standardExtensions
  match state.command, state.inputs, state.output with
  | _, [], _ => .error .missingArgument
  | .check, inputs, _ => .ok (.check inputs extensions)
  | .merge, _, none => .error .missingArgument
  | .merge, inputs, some output =>
    .ok (.merge inputs output extensions (state.indent.getD .standard))

end SubcommandState

/-! ## The whole command line -/

/-- The fault that the words behind `help` end in. They may name one command. -/
def helpFault : List String → UsageFault
  | [] => .helpRequested
  | [word] =>
    if (CommandWord.ofText? word).isSome || word = "help" then .helpRequested else .unknownCommand
  | _ => .unknownCommand

/-- Whether a word names a command. -/
def namesCommand (word : String) : Bool := (CommandWord.ofText? word).isSome || word = "help"

/-- Letters for options before the command: whether the run is verbose after them. -/
def readGlobalLetters (verbose : Bool) : List Char → Except UsageFault Bool
  | [] => .ok verbose
  | 'v' :: letters =>
    if verbose then .error .argumentRepeated else readGlobalLetters true letters
  | 'h' :: _ => .error .helpRequested
  | 'V' :: _ => .error .versionRequested
  | _ :: _ => .error .unknownArgument

/-- An option by its name before the command: whether the run is verbose after it. -/
def readGlobalOption (verbose : Bool) (name : String) (value : Option String) :
    Except UsageFault Bool :=
  if name = "verbose" || name = "help" || name = "version" then
    if value.isSome then .error .needlessValue
    else if name = "help" then .error .helpRequested
    else if name = "version" then .error .versionRequested
    else if verbose then .error .argumentRepeated
    else .ok true
  else .error .unknownArgument

/-- Reads the words from the command on, or the options before it. -/
def readInvocation (verbose : Bool) : List String → Except UsageFault Invocation
  | [] => .ok ⟨verbose, none⟩
  | word :: words =>
    match CommandWord.ofText? word with
    | some command => do
      let state ← (SubcommandState.start command).readAll words
      return ⟨verbose, some (← state.finish)⟩
    | none =>
      if word = "help" then .error (helpFault words)
      else
        match WordShape.ofText word with
        | .escape =>
          match words with
          | [] => .ok ⟨verbose, none⟩
          | next :: _ => .error (if namesCommand next then .unknownArgument else .unknownCommand)
        | .long name value => do readInvocation (← readGlobalOption verbose name value) words
        | .short letters => do readInvocation (← readGlobalLetters verbose letters) words
        | .plain => .error .unknownCommand

/-- The command line that some words make. -/
def parseArguments (words : List String) : Except UsageFault Invocation :=
  readInvocation false words

end SchemaMerge
