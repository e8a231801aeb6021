import SchemaMerge.Proofs.Printing.TypeOrder
import SchemaMerge.Proofs.RoundTrip.Definition

/-!
# Reading printed documents

A printed document is a list of definitions, each with its first description before it and a line
break behind it, and with an empty line between them. `Block` is a definition of any category,
so that the loop over a document can be followed on one list.

## Results

* `Document.toList_print`: the text of a printed document.
* `Parser.leads_definitionTail`: each definition is read back.
* `Document.ofText_print`: a printed document is read back in canonical form.
-/

namespace SchemaMerge

/-! ## Definitions of all categories -/

/-- A definition of any category. -/
inductive Block
  | schema (block : SchemaBlock)
  | directive (definition : DirectiveDefinition)
  | scalar (definition : ScalarDefinition)
  | enum (definition : EnumDefinition)
  | interface (definition : FieldsDefinition)
  | union (definition : UnionDefinition)
  | input (definition : FieldsDefinition)
  | type (definition : TypeDefinition)

namespace Block

/-- The word with which the definition is printed. -/
def word : Block → DefinitionWord
  | schema _ => .schema
  | directive _ => .directive
  | scalar _ => .scalar
  | enum _ => .enum
  | interface _ => .interface
  | union _ => .union
  | input _ => .input
  | type _ => .type

/-- The descriptions of the definition. -/
def descriptions : Block → List String
  | schema a => a.descriptions
  | directive a => a.descriptions
  | scalar a => a.descriptions
  | enum a => a.descriptions
  | interface a => a.descriptions
  | union a => a.descriptions
  | input a => a.descriptions
  | type a => a.descriptions

/-- The definition is well formed, and it is no extension. -/
def WellFormed : Block → Prop
  | schema a => a.WellFormed
  | directive a => a.WellFormed
  | scalar a => a.WellFormed
  | enum a => a.WellFormed
  | interface a => a.WellFormed
  | union a => a.WellFormed
  | input a => a.WellFormed
  | type a => a.WellFormed ∧ a.isExtension = false

/-- The definition as it is after printing it and reading it again. -/
def canonical : Block → Block
  | schema a => schema a.canonical
  | directive a => directive a.canonical
  | scalar a => scalar a.canonical
  | enum a => enum a.canonical
  | interface a => interface a.canonical
  | union a => union a.canonical
  | input a => input a.canonical
  | type a => type a.canonical

/-- The definition as a block. -/
def print (unit : String) : Block → String
  | schema a => Printing.schemaBlock unit a
  | directive a => Printing.directiveDefinition unit a
  | scalar a => Printing.scalar unit a
  | enum a => Printing.enum unit a
  | interface a => Printing.fieldsDefinition "interface" unit a
  | union a => Printing.union unit a
  | input a => Printing.fieldsDefinition "input" unit a
  | type a => Printing.type unit a

/-- What is printed behind the first word of the definition. -/
def rest (unit : String) : Block → List Char
  | schema a => Parser.schemaBlockRest unit a
  | directive a => Parser.directiveDefinitionRest unit a
  | scalar a => Parser.scalarRest unit a
  | enum a => Parser.enumRest unit a
  | interface a => Parser.fieldsDefinitionRest unit a
  | union a => Parser.unionRest unit a
  | input a => Parser.fieldsDefinitionRest unit a
  | type a => Parser.typeRest unit a

instance : Spanned Block where
  withoutSpans
    | schema a => schema (withoutSpans a)
    | directive a => directive (withoutSpans a)
    | scalar a => scalar (withoutSpans a)
    | enum a => enum (withoutSpans a)
    | interface a => interface (withoutSpans a)
    | union a => union (withoutSpans a)
    | input a => input (withoutSpans a)
    | type a => type (withoutSpans a)

/-- What is printed of the definition behind its description, up to the end of its last line. -/
def front (unit : String) (block : Block) : List Char :=
  block.word.keyword.text.toList ++ block.rest unit

theorem toList_print (unit : String) (block : Block) :
    (block.print unit).toList =
      (Printing.description unit 0 block.descriptions).toList ++
        (block.front unit ++ ['\n']) := by
  cases block <;>
    simp [print, front, rest, word, DefinitionWord.keyword, Keyword.text, descriptions,
      Printing.schemaBlock, Parser.schemaBlockRest, Printing.directiveDefinition,
      Parser.directiveDefinitionRest, Printing.scalar, Parser.scalarRest, Printing.enum,
      Parser.enumRest, Printing.fieldsDefinition, Parser.fieldsDefinitionRest, Printing.union,
      Parser.unionRest, Printing.type, Parser.typeRest]

theorem delimited_rest (unit : String) (block : Block) (cs : List Char) :
    Delimited (block.rest unit ++ cs) := by
  cases block <;> exact delimited_cons rfl _

theorem descriptions_of_wellFormed {block : Block} (h : block.WellFormed) :
    ∀ text ∈ block.descriptions, IsDescription text := by
  cases block with
  | type => exact h.1.descriptions
  | schema | directive | scalar | enum | interface | union | input => exact h.descriptions

end Block

namespace Document

/-- The document with one more block. -/
def add (d : Document) : Block → Document
  | .schema a => { d with schemaBlocks := d.schemaBlocks ++ [a] }
  | .directive a => { d with directiveDefinitions := d.directiveDefinitions ++ [a] }
  | .scalar a => { d with scalars := d.scalars ++ [a] }
  | .enum a => { d with enums := d.enums ++ [a] }
  | .interface a => { d with interfaces := d.interfaces ++ [a] }
  | .union a => { d with unions := d.unions ++ [a] }
  | .input a => { d with inputs := d.inputs ++ [a] }
  | .type a => { d with types := d.types ++ [a] }

theorem withoutSpans_add (d : Document) (block : Block) :
    withoutSpans (d.add block) = (withoutSpans d).add (withoutSpans block) := by
  cases block <;> simp [add, withoutSpans]

/-- The document that the blocks form. -/
def ofBlocks (blocks : List Block) : Document := blocks.foldl add empty

theorem ofBlocks_concat (blocks : List Block) (block : Block) :
    ofBlocks (blocks ++ [block]) = (ofBlocks blocks).add block := by
  rw [ofBlocks, List.foldl_append]
  rfl

/-- All definitions of a document, the categories in the order in which they are printed. -/
def definitions (d : Document) : List Block :=
  d.schemaBlocks.map .schema ++ d.directiveDefinitions.map .directive ++ d.types.map .type ++
    d.scalars.map .scalar ++ d.enums.map .enum ++ d.interfaces.map .interface ++
    d.unions.map .union ++ d.inputs.map .input

/-- The document with the definitions that are printed, in their order. -/
def printed (d : Document) : Document :=
  { d with
    schemaBlocks := (d.schemaBlocks.take 1).filter SchemaBlock.hasRootTypes
    types := d.typesInOrder }

theorem blocks_eq (unit : String) (d : Document) :
    d.blocks unit = d.printed.definitions.map (Block.print unit) := by
  simp [blocks, definitions, printed, rootsFirst_eq, Function.comp_def, Block.print]

/-- Blocks of one category fill its list. -/
theorem foldl_add_map {α : Type} (block : α → Block) (put : List α → Document)
    (h : ∀ as a, (put as).add (block a) = put (as ++ [a])) (as bs : List α) :
    (bs.map block).foldl add (put as) = put (as ++ bs) := by
  induction bs generalizing as with
  | nil => simp
  | cons b bs ih => simp [h, ih]

theorem ofBlocks_definitions (d : Document) : ofBlocks d.definitions = d := by
  obtain ⟨a, b, s, e, i, u, n, t⟩ := d
  simp only [ofBlocks, definitions, List.foldl_append, empty]
  rw [foldl_add_map .schema (⟨·, [], [], [], [], [], [], []⟩) fun _ _ => rfl, List.nil_append,
    foldl_add_map .directive (⟨a, ·, [], [], [], [], [], []⟩) fun _ _ => rfl, List.nil_append,
    foldl_add_map .type (⟨a, b, [], [], [], [], [], ·⟩) fun _ _ => rfl, List.nil_append,
    foldl_add_map .scalar (⟨a, b, ·, [], [], [], [], t⟩) fun _ _ => rfl, List.nil_append,
    foldl_add_map .enum (⟨a, b, s, ·, [], [], [], t⟩) fun _ _ => rfl, List.nil_append,
    foldl_add_map .interface (⟨a, b, s, e, ·, [], [], t⟩) fun _ _ => rfl, List.nil_append,
    foldl_add_map .union (⟨a, b, s, e, i, ·, [], t⟩) fun _ _ => rfl, List.nil_append,
    foldl_add_map .input (⟨a, b, s, e, i, u, ·, t⟩) fun _ _ => rfl, List.nil_append]

end Document

/-! ## The text of a document -/

namespace Block

/-- The line break in front of further blocks, which makes an empty line. -/
def emptyLine (blocks : List Block) : List Char := if blocks.isEmpty then [] else ['\n']

/-- The text of blocks with an empty line between them. -/
def text (unit : String) : List Block → List Char
  | [] => []
  | block :: blocks => (Printing.description unit 0 block.descriptions).toList ++
      (block.front unit ++ '\n' :: (emptyLine blocks ++ text unit blocks))

/-- The descriptions of the first block, of which one is printed. -/
def nextTexts : List Block → List String
  | [] => []
  | block :: _ => block.descriptions.take 1

/-- The text behind the description of the first block. -/
def nextRest (unit : String) : List Block → List Char
  | [] => []
  | block :: blocks => block.front unit ++ '\n' :: (emptyLine blocks ++ text unit blocks)

theorem isGap_emptyLine (blocks : List Block) : IsGap (emptyLine blocks) := by
  cases blocks with
  | nil => exact isGap_nil
  | cons => exact isGap_line_feed

theorem toList_intercalate (unit : String) (blocks : List Block) :
    (String.intercalate "\n" (blocks.map (print unit))).toList = text unit blocks := by
  cases blocks with
  | nil => simp [text]
  | cons block blocks =>
    induction blocks generalizing block with
    | nil => simp [toList_print, text, emptyLine]
    | cons next blocks ih =>
      have ih := ih next
      simp only [String.toList_intercalate, List.map_cons] at ih ⊢
      rw [List.intercalate_cons_cons, ih, toList_print unit block]
      simp [text, emptyLine]

theorem begins_front (unit : String) (block : Block) (cs : List Char) :
    Begins (block.front unit ++ cs) (.keyword block.word.keyword) (block.rest unit ++ cs) := by
  rw [front, List.append_assoc]
  exact begins_keyword _ (block.delimited_rest unit cs)

/-- The text of blocks starts with the description of the first one. -/
theorem upcoming_text (unit : String) {blocks : List Block}
    (h : ∀ block ∈ blocks, block.WellFormed) :
    Upcoming (nextRest unit blocks) (nextTexts blocks) (text unit blocks) := by
  cases blocks with
  | nil => exact .bare isGap_nil rfl (.inl rfl)
  | cons block blocks =>
    have hnext := (begins_front unit block ('\n' :: (emptyLine blocks ++ text unit blocks))).next
    have hstart : StartsBlock (.keyword block.word.keyword) := .inr ⟨_, rfl⟩
    have hd := descriptions_of_wellFormed (h block List.mem_cons_self)
    rw [text, nextTexts, nextRest]
    cases hblock : block.descriptions with
    | nil => exact .bare isGap_nil hnext hstart
    | cons first others =>
      obtain ⟨kind, hspells, htext⟩ := hd first (hblock ▸ List.mem_cons_self)
      simpa [Printing.description, Printing.indentation] using
        Upcoming.described isGap_nil hnext hstart hspells htext

end Block

namespace Document

/-- **The text of a printed document.** -/
theorem toList_print (unit : String) (d : Document) :
    (d.print unit).toList = Block.text unit d.printed.definitions := by
  rw [print, blocks_eq, Block.toList_intercalate]

end Document

/-! ## Reading the blocks -/

namespace Parser

/-- A definition that is read is added to the document. -/
theorem Leads.add {α : Type} [Spanned α] {p : Parser α} {pre ready : Feed → Prop} {expected : α}
    (hp : Leads p pre fun found feed => withoutSpans found = withoutSpans expected ∧ ready feed)
    (block : α → Block) (hblock : ∀ a, withoutSpans (block a) = block (withoutSpans a))
    (document : Document) :
    Leads (p >>= fun found => pure (document.add (block found))) pre fun found feed =>
      withoutSpans found = (withoutSpans document).add (withoutSpans (block expected)) ∧
        ready feed := by
  refine hp.bind fun found feed hfeed => ⟨_, feed, rfl, ?_, hfeed.2⟩
  rw [Document.withoutSpans_add, hblock, hblock, hfeed.1]

/-- **A printed definition is read back.** -/
theorem leads_definitionTail {unit : String} (hunit : IsIndent unit) {block : Block}
    (h : block.WellFormed) (document : Document) (span : Span) {rest cs : List Char}
    {texts : List String} (hcs : Upcoming rest texts cs) :
    Leads (definitionTail document (block.descriptions.take 1) (block.word, span))
      (fun feed => feed.At (block.rest unit ++ '\n' :: cs))
      fun found feed => withoutSpans found = (withoutSpans document).add
        (withoutSpans block.canonical) ∧ feed.Ready texts rest := by
  cases block with
  | schema => exact (leads_schemaBlockTail hunit h span hcs).add .schema (fun _ => rfl) document
  | directive =>
    exact (leads_directiveDefinitionTail hunit hcs h).add .directive (fun _ => rfl) document
  | scalar => exact (leads_scalarTail hunit hcs h).add .scalar (fun _ => rfl) document
  | enum => exact (leads_enumTail hunit hcs h).add .enum (fun _ => rfl) document
  | interface =>
    exact (leads_fieldsDefinitionTail hunit hcs _ h).add .interface (fun _ => rfl) document
  | union => exact (leads_unionTail hunit hcs h).add .union (fun _ => rfl) document
  | input => exact (leads_fieldsDefinitionTail hunit hcs _ h).add .input (fun _ => rfl) document
  | type => exact (h.2 ▸ leads_typeTail hunit hcs h.1).add .type (fun _ => rfl) document

theorem read_definition (word : DefinitionWord) (span : Span) :
    Want.definition.read ⟨.keyword word.keyword, span⟩ = some (word, span) := by
  cases word <;> rfl

/-- Some of the blocks are read, and the feed is ready for those that are left. -/
structure Reading (unit : String) (blocks left : List Block) (document : Document) (feed : Feed) :
    Prop where
  wellFormed : ∀ block ∈ left, block.WellFormed
  ready : feed.Ready (Block.nextTexts left) (Block.nextRest unit left)
  exists_done : ∃ done, done ++ left = blocks ∧
    withoutSpans document = .ofBlocks (done.map fun block => withoutSpans block.canonical)

/-- **Printed definitions are read back one after the other.** -/
theorem leads_document {unit : String} (hunit : IsIndent unit) {blocks : List Block}
    (h : ∀ block ∈ blocks, block.WellFormed) :
    Leads document
      (fun feed => feed.Ready (Block.nextTexts blocks) (Block.nextRest unit blocks))
      fun found _ => withoutSpans found =
        .ofBlocks (blocks.map fun block => withoutSpans block.canonical) := by
  suffices hloop : Leads document (Reading unit blocks blocks .empty)
      fun found _ => withoutSpans found =
        .ofBlocks (blocks.map fun block => withoutSpans block.canonical) from
    fun feed hfeed => hloop feed ⟨h, hfeed, [], rfl, rfl⟩
  -- A definition may have taken the comment before the next one, so no text is left open here.
  refine @leads_loop _ _ _ _ Block _ _ _ (Reading unit blocks) _ (fun state feed hfeed => ?_)
    (fun block left state feed hfeed => ?_) blocks .empty
  · obtain ⟨-, ⟨gap, feed', hgap, hrun, hbefore⟩, done, hdone, hstate⟩ := hfeed
    have hend := hbefore.nextIs_of_next ((next_gap_append hgap).2 rfl) .endOfText
    refine ⟨.inl state, feed', ?_, state, rfl, ?_⟩
    · simp [bind_run, hrun, nextIs, hend]
    · rw [hstate, ← hdone, List.append_nil]
  · obtain ⟨hwell, ⟨gap, feed₁, hgap, hrun, hbefore⟩, done, hdone, hstate⟩ := hfeed
    rw [List.forall_mem_cons] at hwell
    have hbegins := (block.begins_front unit ('\n' ::
      (Block.emptyLine left ++ Block.text unit left))).gap hgap
    have hend := hbefore.nextIs_of_next hbegins.next .endOfText
    have hcs := (Block.upcoming_text unit hwell.2).gap (Block.isGap_emptyLine left)
    have hbody : Leads (expect Want.definition >>= definitionTail state (block.descriptions.take 1))
        (fun feed => feed.Before (gap ++ Block.nextRest unit (block :: left))) fun found feed =>
          withoutSpans found = (withoutSpans state).add (withoutSpans block.canonical) ∧
            feed.Ready (Block.nextTexts left) (Block.nextRest unit left) := by
      refine (@leads_expect _ _ _ _ _ (fun found => found.1 = block.word) hbegins fun span =>
        ⟨_, read_definition _ span, rfl⟩).bind ?_
      rintro ⟨_, span⟩ feed ⟨rfl, hat⟩
      exact leads_definitionTail hunit hwell.1 state span hcs feed hat
    refine @leads_round _ _ _ _ _ _ _ (state, block.descriptions.take 1) _ (· = feed) _ _ ?_
      (Leads.mono hbody ?_) feed rfl
    · rintro _ rfl
      exact ⟨_, feed₁, by simp [hrun, nextIs, hend, Block.nextTexts], rfl, hbefore⟩
    · rintro next feed₂ ⟨hnext, hready⟩
      refine ⟨hwell.2, hready, done ++ [block], by simpa using hdone, ?_⟩
      rw [hnext, hstate, List.map_append, List.map_singleton, Document.ofBlocks_concat]

end Parser

namespace Document

/-- The text of a file, from its start. -/
theorem before_ofTokens (file text : String) :
    (Feed.ofTokens file (Token.ofText file text)).Before text.toList :=
  ⟨rfl, .start, rfl, rfl⟩

/-- The blocks of a well-formed document without extensions. -/
theorem wellFormed_definitions {d : Document} (h : d.WellFormed)
    (hextension : ∀ type ∈ d.types, type.isExtension = false) :
    ∀ block ∈ d.printed.definitions, block.WellFormed := by
  simp only [definitions, printed, List.forall_mem_append, List.forall_mem_map, mem_typesInOrder]
  have hblocks : ∀ a ∈ (d.schemaBlocks.take 1).filter SchemaBlock.hasRootTypes, a.WellFormed :=
    fun a ha => h.schemaBlocks a (List.mem_of_mem_take (List.mem_filter.1 ha).1)
  have htypes : ∀ a ∈ d.types, a.WellFormed ∧ a.isExtension = false :=
    fun a ha => ⟨h.types a ha, hextension a ha⟩
  exact ⟨⟨⟨⟨⟨⟨⟨hblocks, h.directiveDefinitions⟩, htypes⟩, h.scalars⟩, h.enums⟩, h.interfaces⟩,
    h.unions⟩, h.inputs⟩

theorem definitions_canonical {d : Document} (h : d.schemaBlocks.length ≤ 1) :
    (d.printed.definitions.map fun block => withoutSpans block.canonical) =
      (withoutSpans d.canonical).definitions := by
  simp only [definitions, printed, List.take_of_length_le h, withoutSpans, canonical,
    List.map_append, List.map_map, Function.comp_def, Block.canonical]

/-- **A printed document is read back** in canonical form. -/
theorem ofText_print {unit : String} (hunit : IsIndent unit) {d : Document} (h : d.WellFormed)
    (hextension : ∀ type ∈ d.types, type.isExtension = false)
    (hschema : d.schemaBlocks.length ≤ 1) (file : String) :
    ∃ e, Document.ofText file (d.print unit) = .ok e ∧
      withoutSpans e = withoutSpans d.canonical := by
  have hwell := wellFormed_definitions h hextension
  have hbefore := before_ofTokens file (d.print unit)
  rw [toList_print] at hbefore
  have hready := (Block.upcoming_text unit hwell).ready hbefore []
  obtain ⟨e, feed, hrun, he⟩ := Parser.leads_document hunit hwell _ hready
  refine ⟨e, ?_, ?_⟩
  · rw [Feed.Before.with_carried_nil hbefore] at hrun
    rw [ofText, ofTokens, hrun]
  · rw [he, definitions_canonical hschema, ofBlocks_definitions]

end Document

end SchemaMerge
