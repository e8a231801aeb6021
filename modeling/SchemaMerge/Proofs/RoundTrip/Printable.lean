import SchemaMerge.Proofs.Merge.WellFormed
import SchemaMerge.Proofs.Reading.WellFormed
import SchemaMerge.Proofs.Value.Lexing

/-!
# Stored parts can be printed

A document keeps texts, and the marks of its types and values. `parts` lists all of them, of a node
and of all in it, and `Part.Printable` says of each when it can be printed: a name is a name, every
other text is made of the tokens that it was read from, and the marks agree with what they mark.
Said of documents, this is what well-formed documents are (`Document.WellFormed.printable`), with
the tokens found by scanning each text on its own.

Result:
* `Document.Obtained.printable_parts`: all parts of documents that are read from texts, or merged
  from such documents, can be printed.
-/

namespace SchemaMerge

/-! ## Parts -/

/-- What a document keeps of a text. -/
inductive Part
  /-- The name of a node, or of what it refers to. -/
  | name (text : String)
  | description (text : String)
  | comment (text : String)
  /-- The marks of a reference to a type. -/
  | type (ref : TypeRef)
  /-- The values of a default or of an argument, with the separator of lists among them. -/
  | values (separator : String) (isList : Bool) (texts : List String)
  /-- All interfaces of a type. -/
  | interfaces (names : List String)
  /-- All locations of a directive. -/
  | locations (names : List String)
deriving DecidableEq

/-- A kind of node that keeps parts. -/
class HasParts (α : Type) where
  /-- The parts of the node and of all in it. -/
  parts : α → List Part

export HasParts (parts)

/-- The parts of all nodes of a list. -/
def partsOf {α : Type} [HasParts α] (as : List α) : List Part := as.flatMap parts

/-- A node with a name, descriptions and comments. -/
def documentedParts (name : String) (descriptions comments : List String) : List Part :=
  .name name :: (descriptions.map .description ++ comments.map .comment)

instance : HasParts TypeRef where
  parts type := [.name type.name, .type type]

instance : HasParts DefaultValue where
  parts default := [.values ", " default.isList default.values]

instance : HasParts DirectiveArgument where
  parts argument := [.name argument.name, .values "," argument.isList argument.values]

instance : HasParts Directive where
  parts d := documentedParts d.name d.descriptions [] ++ partsOf d.arguments

instance : HasParts Argument where
  parts a :=
    documentedParts a.name a.descriptions [] ++ parts a.type ++ partsOf a.default.toList ++
      partsOf a.directives

instance : HasParts Field where
  parts f :=
    documentedParts f.name f.descriptions f.comments ++ partsOf f.arguments ++ parts f.type ++
      partsOf f.default.toList ++ partsOf f.directives

instance : HasParts EnumValue where
  parts v := documentedParts v.name v.descriptions v.comments ++ partsOf v.directives

instance : HasParts SchemaBlock where
  parts b :=
    (RootOperation.all.filterMap b.rootType?).map .name ++ b.descriptions.map .description

instance : HasParts DirectiveDefinition where
  parts d :=
    documentedParts d.name d.descriptions d.comments ++ partsOf d.arguments ++
      (.locations d.locations :: d.locations.map .name)

instance : HasParts ScalarDefinition where
  parts d := documentedParts d.name d.descriptions d.comments ++ partsOf d.directives

instance : HasParts EnumDefinition where
  parts d :=
    documentedParts d.name d.descriptions d.comments ++ partsOf d.values ++ partsOf d.directives

instance : HasParts FieldsDefinition where
  parts d :=
    documentedParts d.name d.descriptions d.comments ++ partsOf d.fields ++ partsOf d.directives

instance : HasParts UnionDefinition where
  parts d :=
    documentedParts d.name d.descriptions d.comments ++ d.members.map .name ++
      partsOf d.directives

instance : HasParts TypeDefinition where
  parts d :=
    documentedParts d.name d.descriptions d.comments ++
      (.interfaces d.interfaces :: d.interfaces.map .name) ++ partsOf d.fields ++
      partsOf d.directives

instance : HasParts Document where
  parts d :=
    partsOf d.schemaBlocks ++ partsOf d.directiveDefinitions ++ partsOf d.scalars ++
      partsOf d.enums ++ partsOf d.interfaces ++ partsOf d.unions ++ partsOf d.inputs ++
      partsOf d.types

/-! ## Parts that can be printed -/

/-- The text has one token, which `read` tells to be the text. -/
def IsToken (read : TokenKind → Option String) (text : String) : Prop :=
  ∀ file, ∃ token, LexesTo file text [token] ∧ read token.kind = some text

/-- The text has the tokens of a value: of a literal, or of a list with its brackets, whose items
are such values. -/
def IsValue (separator text : String) : Prop :=
  ∃ tree : ValueTree, tree.text separator = text ∧
    ∀ file, ∃ tokens, LexesTo file text tokens ∧ tree.Written tokens

/-- How a part has to be so that it can be printed. -/
def Part.Printable : Part → Prop
  | .name text => IsName text
  | .description text => IsToken TokenKind.description? text
  | .comment text => IsToken TokenKind.comment? text
  | .type ref => ref.isList = false → ref.listNullable = false
  | .values separator isList texts =>
    (∀ text ∈ texts, IsValue separator text) ∧
      (isList = false → ∃ text, texts = [text] ∧ IsToken TokenKind.literal? text)
  | .interfaces names => names.Nodup
  | .locations names => names ≠ []

/-- All of the parts can be printed. -/
def AllPrintable (parts : List Part) : Prop := ∀ part ∈ parts, part.Printable

/-- What spells a token is read as that token and nothing else. -/
theorem isToken_of_spells {read : TokenKind → Option String} {text : String} {kind : TokenKind}
    (h : Spells text.toList kind) (hread : read kind = some text) : IsToken read text := by
  intro file
  obtain ⟨token, hlexes, rfl⟩ := h.lexesTo file
  exact ⟨token, hlexes, hread⟩

theorem IsLiteral.isToken {text : String} (h : IsLiteral text) :
    IsToken TokenKind.literal? text := by
  obtain ⟨kind, hspells, hliteral⟩ := h
  exact isToken_of_spells hspells hliteral

/-- The text of an item is a list of literals and brackets, each read as itself. -/
theorem isValue_of_isItem {separator text : String} (hseparator : IsSeparator separator.toList)
    {depth : Nat} (h : IsItem separator depth text) : IsValue separator text := by
  obtain ⟨tree, hliterals, rfl⟩ := exists_tree_of_isItem h
  exact ⟨tree, rfl, ValueTree.lexesTo_text hseparator hliterals⟩

/-- Values are kept apart by their separator, also within lists. -/
theorem printable_of_areValues {separator : String} (hseparator : IsSeparator separator.toList)
    {isList : Bool} {texts : List String} (h : AreValues separator isList texts) :
    (Part.values separator isList texts).Printable := by
  cases isList with
  | true => exact ⟨fun text htext => isValue_of_isItem hseparator (h text htext), nofun⟩
  | false =>
    obtain ⟨text, hliteral, rfl⟩ := h
    have hitem := isItem_of_isLiteral hliteral separator 0
    exact ⟨List.forall_mem_singleton.2 (isValue_of_isItem hseparator hitem),
      fun _ => ⟨text, rfl, hliteral.isToken⟩⟩

/-! ## The parts of well-formed nodes -/

theorem AllPrintable.append {parts more : List Part} (h : AllPrintable parts)
    (hmore : AllPrintable more) : AllPrintable (parts ++ more) :=
  List.forall_mem_append.2 ⟨h, hmore⟩

theorem allPrintable_names {names : List String} (h : ∀ name ∈ names, IsName name) :
    AllPrintable (names.map .name) := List.forall_mem_map.2 h

theorem allPrintable_descriptions {texts : List String} (h : ∀ text ∈ texts, IsDescription text) :
    AllPrintable (texts.map .description) := by
  refine List.forall_mem_map.2 fun text htext => ?_
  obtain ⟨kind, hspells, hdescription⟩ := h text htext
  exact isToken_of_spells hspells hdescription

theorem allPrintable_comments {texts : List String} (h : ∀ text ∈ texts, IsComment text) :
    AllPrintable (texts.map .comment) :=
  List.forall_mem_map.2 fun text htext => isToken_of_spells (h text htext) rfl

/-- Names, descriptions and comments are what most nodes have in common. -/
theorem allPrintable_documented {name : String} {descriptions comments : List String}
    (hname : IsName name) (hdescriptions : ∀ text ∈ descriptions, IsDescription text)
    (hcomments : ∀ text ∈ comments, IsComment text) :
    AllPrintable (documentedParts name descriptions comments) :=
  List.forall_mem_cons.2 ⟨hname,
    (allPrintable_descriptions hdescriptions).append (allPrintable_comments hcomments)⟩

/-- The parts of a list are those of its members. -/
theorem allPrintable_partsOf {α : Type} [HasParts α] {good : α → Prop}
    (h : ∀ a, good a → AllPrintable (parts a)) {as : List α} (has : ∀ a ∈ as, good a) :
    AllPrintable (partsOf as) :=
  List.forall_mem_flatMap.2 fun a ha => h a (has a ha)

theorem TypeRef.WellFormed.printable (type : TypeRef) (h : type.WellFormed) :
    AllPrintable (parts type) :=
  List.forall_mem_cons.2 ⟨h.name, List.forall_mem_singleton.2 h.listNullable⟩

theorem DefaultValue.WellFormed.printable (default : DefaultValue) (h : default.WellFormed) :
    AllPrintable (parts default) :=
  List.forall_mem_singleton.2 (printable_of_areValues (.inr rfl) h)

theorem DirectiveArgument.WellFormed.printable (a : DirectiveArgument) (h : a.WellFormed) :
    AllPrintable (parts a) :=
  List.forall_mem_cons.2
    ⟨h.name, List.forall_mem_singleton.2 (printable_of_areValues (.inl rfl) h.values)⟩

theorem Directive.WellFormed.printable (d : Directive) (h : d.WellFormed) :
    AllPrintable (parts d) :=
  (allPrintable_documented h.name h.descriptions (List.forall_mem_nil _)).append
    (allPrintable_partsOf DirectiveArgument.WellFormed.printable h.arguments)

theorem allPrintable_directives {ds : List Directive} (h : ∀ d ∈ ds, d.WellFormed) :
    AllPrintable (partsOf ds) := allPrintable_partsOf Directive.WellFormed.printable h

theorem allPrintable_default {default : Option DefaultValue} (h : ∀ d ∈ default, d.WellFormed) :
    AllPrintable (partsOf default.toList) :=
  allPrintable_partsOf DefaultValue.WellFormed.printable
    fun d hd => h d (Option.mem_toList.1 hd)

theorem Argument.WellFormed.printable (a : Argument) (h : a.WellFormed) :
    AllPrintable (parts a) := by
  have hown := allPrintable_documented h.name h.descriptions (List.forall_mem_nil _)
  have hdefault := allPrintable_default h.default
  have hdirectives := allPrintable_directives h.directives
  exact ((hown.append h.type.printable).append hdefault).append hdirectives

theorem Field.WellFormed.printable (f : Field) (h : f.WellFormed) : AllPrintable (parts f) := by
  have hown := allPrintable_documented h.name h.descriptions h.comments
  have harguments := allPrintable_partsOf Argument.WellFormed.printable h.arguments
  have hdefault := allPrintable_default h.default
  have hdirectives := allPrintable_directives h.directives
  exact (((hown.append harguments).append h.type.printable).append hdefault).append hdirectives

theorem EnumValue.WellFormed.printable (v : EnumValue) (h : v.WellFormed) :
    AllPrintable (parts v) :=
  (allPrintable_documented h.name h.descriptions h.comments).append
    (allPrintable_directives h.directives)

theorem SchemaBlock.WellFormed.printable (b : SchemaBlock) (h : b.WellFormed) :
    AllPrintable (parts b) := by
  refine (allPrintable_names fun type htype => ?_).append (allPrintable_descriptions h.descriptions)
  obtain ⟨operation, -, hroot⟩ := List.mem_filterMap.1 htype
  exact h.rootTypes operation type hroot

theorem DirectiveDefinition.WellFormed.printable (d : DirectiveDefinition) (h : d.WellFormed) :
    AllPrintable (parts d) := by
  have hown := allPrintable_documented h.name h.descriptions h.comments
  have harguments := allPrintable_partsOf Argument.WellFormed.printable h.arguments
  have hlocations : AllPrintable (.locations d.locations :: d.locations.map .name) :=
    List.forall_mem_cons.2 ⟨h.locations_ne_nil, allPrintable_names h.locations⟩
  exact (hown.append harguments).append hlocations

theorem ScalarDefinition.WellFormed.printable (d : ScalarDefinition) (h : d.WellFormed) :
    AllPrintable (parts d) :=
  (allPrintable_documented h.name h.descriptions h.comments).append
    (allPrintable_directives h.directives)

theorem EnumDefinition.WellFormed.printable (d : EnumDefinition) (h : d.WellFormed) :
    AllPrintable (parts d) := by
  have hown := allPrintable_documented h.name h.descriptions h.comments
  have hvalues := allPrintable_partsOf EnumValue.WellFormed.printable h.values
  exact (hown.append hvalues).append (allPrintable_directives h.directives)

theorem FieldsDefinition.WellFormed.printable (d : FieldsDefinition) (h : d.WellFormed) :
    AllPrintable (parts d) := by
  have hown := allPrintable_documented h.name h.descriptions h.comments
  have hfields := allPrintable_partsOf Field.WellFormed.printable h.fields
  exact (hown.append hfields).append (allPrintable_directives h.directives)

theorem UnionDefinition.WellFormed.printable (d : UnionDefinition) (h : d.WellFormed) :
    AllPrintable (parts d) := by
  have hown := allPrintable_documented h.name h.descriptions h.comments
  have hmembers := allPrintable_names h.members
  exact (hown.append hmembers).append (allPrintable_directives h.directives)

theorem TypeDefinition.WellFormed.printable (d : TypeDefinition) (h : d.WellFormed) :
    AllPrintable (parts d) := by
  have hown := allPrintable_documented h.name h.descriptions h.comments
  have hinterfaces : AllPrintable (.interfaces d.interfaces :: d.interfaces.map .name) :=
    List.forall_mem_cons.2 ⟨h.interfaces_nodup, allPrintable_names h.interfaces⟩
  have hfields := allPrintable_partsOf Field.WellFormed.printable h.fields
  have hdirectives := allPrintable_directives h.directives
  exact ((hown.append hinterfaces).append hfields).append hdirectives

/-- **All parts of a well-formed document can be printed.** -/
theorem Document.WellFormed.printable (d : Document) (h : d.WellFormed) :
    AllPrintable (parts d) := by
  have hblocks := allPrintable_partsOf SchemaBlock.WellFormed.printable h.schemaBlocks
  have hdirectives :=
    allPrintable_partsOf DirectiveDefinition.WellFormed.printable h.directiveDefinitions
  have hscalars := allPrintable_partsOf ScalarDefinition.WellFormed.printable h.scalars
  have henums := allPrintable_partsOf EnumDefinition.WellFormed.printable h.enums
  have hinterfaces := allPrintable_partsOf FieldsDefinition.WellFormed.printable h.interfaces
  have hunions := allPrintable_partsOf UnionDefinition.WellFormed.printable h.unions
  have hinputs := allPrintable_partsOf FieldsDefinition.WellFormed.printable h.inputs
  have htypes := allPrintable_partsOf TypeDefinition.WellFormed.printable h.types
  exact ((((((hblocks.append hdirectives).append hscalars).append henums).append
    hinterfaces).append hunions).append hinputs).append htypes

/-! ## Documents that are read and merged -/

/-- The documents that are read from texts, and those that are merged from such documents. -/
inductive Document.Obtained : Document → Prop
  | read {file text : String} {d : Document} : Document.ofText file text = .ok d → Obtained d
  | merged {documents : List Document} {m : Document} :
    (∀ d ∈ documents, Obtained d) → Document.merge documents = .ok m → Obtained m

/-- What is read is well-formed, and merging keeps that. -/
theorem Document.Obtained.wellFormed {d : Document} (h : d.Obtained) : d.WellFormed := by
  induction h with
  | read hread => exact wellFormed_of_ofText hread
  | merged _ hmerge ih => exact wellFormed_of_merge hmerge ih

/-- **All parts of documents that are read or merged can be printed.** -/
theorem Document.Obtained.printable_parts {d : Document} (h : d.Obtained) :
    AllPrintable (parts d) :=
  WellFormed.printable d h.wellFormed

/-- A type whose interfaces are named twice, in one file and in another, with integers that are not
canonical, lists in a list literal and a bracket and a comma between quotes. -/
theorem printable_parts_query :
    let a := "\"\"\"\r\nRoot\"\"\" type Query implements A & B & A \x7b " ++
      "f(x: [Int] = [[+01, []] \"[,\"]): ID! # c\n\x7d"
    let b := "extend type Query implements A @d(at: -0)"
    let stored : List Part :=
      [.name "Query", .description "\"\"\"\nRoot\"\"\"", .interfaces ["A", "B"], .name "A",
        .name "B", .name "f", .comment "# c", .name "x", .name "Int",
        .type (.list "Int" true true), .values ", " true ["[1, []]", "\"[,\""], .name "ID",
        .type (.named "ID" false), .name "d", .name "at", .values "," false ["0"]]
    ∃ da db m, Document.ofText "a.graphql" a = .ok da ∧ Document.ofText "b.graphql" b = .ok db ∧
      Document.merge [da, db] = .ok m ∧ parts m = stored ∧ AllPrintable (parts m) := by
  intro a b stored
  let da := (Document.ofText "a.graphql" a).toOption.getD .empty
  let db := (Document.ofText "b.graphql" b).toOption.getD .empty
  let m := (Document.merge [da, db]).toOption.getD .empty
  obtain ⟨ha, hb, hm, hparts⟩ : Document.ofText "a.graphql" a = .ok da ∧
      Document.ofText "b.graphql" b = .ok db ∧ Document.merge [da, db] = .ok m ∧
      parts m = stored := by
    decide +kernel
  have hread : ∀ d ∈ [da, db], d.Obtained :=
    List.forall_mem_cons.2 ⟨.read ha, List.forall_mem_singleton.2 (.read hb)⟩
  exact ⟨da, db, m, ha, hb, hm, hparts, Document.Obtained.printable_parts (.merged hread hm)⟩

end SchemaMerge
