import SchemaMerge.Proofs.Reading.Nodes
import SchemaMerge.Proofs.RoundTrip.Document

/-!
# Trailing comments

A text that forms a document is laid out in stretches, one for each definition, and in these one for
each field and enum value (`Document.laid_ofText`). So a comment that trails a definition or a
member is kept with it, and does not describe what follows. Schema blocks have no room for it: what
trails them describes the next definition (`Document.schemaBlock_loses_trailing`).
-/

namespace SchemaMerge

/-! ## Definitions of all categories -/

instance : Documented Block where
  own kind
    | .schema a => own kind a
    | .directive a => own kind a
    | .scalar a => own kind a
    | .enum a => own kind a
    | .interface a => own kind a
    | .union a => own kind a
    | .input a => own kind a
    | .type a => own kind a
  texts kind
    | .schema a => texts kind a
    | .directive a => texts kind a
    | .scalar a => texts kind a
    | .enum a => texts kind a
    | .interface a => texts kind a
    | .union a => texts kind a
    | .input a => texts kind a
    | .type a => texts kind a

namespace Parser

variable {tokens done : List Token}

/-- A definition behind its first word. -/
def blockTail (texts : List String) : DefinitionWord × Span → Parser Block
  | (.schema, span) => do return .schema (← schemaBlockTail texts span)
  | (.directive, _) => do return .directive (← directiveDefinitionTail texts)
  | (.scalar, _) => do return .scalar (← scalarTail texts)
  | (.enum, _) => do return .enum (← enumTail texts)
  | (.interface, _) => do return .interface (← fieldsDefinitionTail "interface name" texts)
  | (.union, _) => do return .union (← unionTail texts)
  | (.input, _) => do return .input (← fieldsDefinitionTail "input name" texts)
  | (.type, _) => do return .type (← typeTail false texts)
  | (.extend, _) => do
    let _ ← expect (.keyword .type)
    return .type (← typeTail true texts)

theorem definitionTail_eq (document : Document) (texts : List String)
    (word : DefinitionWord × Span) :
    definitionTail document texts word =
      blockTail texts word >>= fun block => pure (document.add block) := by
  ext feed
  obtain ⟨word, span⟩ := word
  cases word <;> simp only [definitionTail, blockTail, bind_run, pure_run] <;>
    split <;> first | rfl | (split <;> rfl)

/-- A definition from its first word on. -/
def blockFrom (texts : List String) : Parser Block := expect .definition >>= blockTail texts

end Parser

namespace Block

/-- The members of a definition stand among its tokens. -/
def Encloses (tokens done core : List Token) : Block → Prop
  | .enum a => Parser.Encloses tokens done core
    (Parser.memberFrom "enum value" Parser.enumValueTail) a.values
  | .interface a => Parser.Encloses tokens done core
    (Parser.memberFrom "field name" Parser.fieldTail) a.fields
  | .input a => Parser.Encloses tokens done core
    (Parser.memberFrom "field name" Parser.fieldTail) a.fields
  | .type a => Parser.Encloses tokens done core
    (Parser.memberFrom "field name" Parser.fieldTail) a.fields
  | .schema _ | .directive _ | .scalar _ | .union _ => True

theorem Encloses.append_left {tokens done front core : List Token} {block : Block}
    (h : block.Encloses tokens (done ++ front) core) :
    block.Encloses tokens done (front ++ core) := by
  cases block with
  | enum | interface | input | type => exact Parser.Encloses.append_left h
  | schema | directive | scalar | union => trivial

/-- A definition stands in a text with its members in it, and owns what documents it. A schema block
has as descriptions the texts in front of it and those among its tokens, and has no tail. -/
structure Stands (tokens done handed : List Token) (s : Stretch Block) : Prop where
  stands : s.Stands tokens done handed Parser.blockFrom
  encloses : s.node.Encloses tokens (done ++ s.commas ++ s.lead) s.core
  owns : s.node.word ≠ .schema → s.Owns tokens done handed
  gathers : s.node.word = .schema → s.tail = .none ∧ ∃ inside : List Token,
    inside.Sublist s.core ∧
      own .description s.node = commentsOf handed ++ descriptionsOf s.lead ++ descriptionsOf inside

end Block

namespace Parser

variable {tokens done : List Token}

/-- The definition is no schema block, and its members stand among its tokens. -/
def EnclosesMembersOf (tokens done used : List Token) (_ : Tail) (block : Block) : Prop :=
  block.Encloses tokens done used ∧ block.word ≠ .schema

theorem EnclosesMembersOf.append_left {front used : List Token} {tail : Tail} {block : Block}
    (h : EnclosesMembersOf tokens (done ++ front) used tail block) :
    EnclosesMembersOf tokens done (front ++ used) tail block := ⟨h.1.append_left, h.2⟩

theorem ReadsNode.block {α : Type} [Documented α] {texts : List String}
    {more : List Token → List Token → Tail → α → Prop} {p : Parser α} {block : α → Block}
    (h : ReadsNode tokens texts more p) (hown : ∀ kind a, own kind (block a) = own kind a)
    (hmore : ∀ {done used tail a}, more done used tail a →
      EnclosesMembersOf tokens done used tail (block a)) :
    ReadsNode tokens texts (EnclosesMembersOf tokens) (p >>= fun a => pure (block a)) := fun done =>
  (h done).map fun used tail a ⟨htells, ha⟩ =>
    ⟨⟨htells.ending, (hown _ a).trans htells.descriptions_eq, by
      obtain ⟨inside, hinside, hcomments⟩ := htells.comments_eq
      exact ⟨inside, hinside, (hown _ a).trans hcomments⟩⟩, hmore ha⟩

theorem readsNode_blockTail (hlines : LinesInOrder tokens) {word : DefinitionWord × Span}
    (hword : word.1 ≠ .schema) (texts : List String) :
    ReadsNode tokens texts (EnclosesMembersOf tokens) (blockTail texts word) := by
  obtain ⟨word, span⟩ := word
  cases word with
  | schema => exact absurd rfl hword
  | directive =>
    exact (readsNode_directiveDefinitionTail texts).block (fun _ _ => rfl) fun _ => ⟨trivial, nofun⟩
  | scalar => exact (readsNode_scalarTail texts).block (fun _ _ => rfl) fun _ => ⟨trivial, nofun⟩
  | enum => exact (readsNode_enumTail hlines texts).block (fun _ _ => rfl) fun h => ⟨h, nofun⟩
  | interface =>
    exact (readsNode_fieldsDefinitionTail hlines _ texts).block (fun _ _ => rfl) fun h => ⟨h, nofun⟩
  | union => exact (readsNode_unionTail texts).block (fun _ _ => rfl) fun _ => ⟨trivial, nofun⟩
  | input =>
    exact (readsNode_fieldsDefinitionTail hlines _ texts).block (fun _ _ => rfl) fun h => ⟨h, nofun⟩
  | type => exact (readsNode_typeTail hlines false texts).block (fun _ _ => rfl) fun h => ⟨h, nofun⟩
  | extend =>
    refine (finishes_expect (Want.solid_keyword _)).seals.bind_readsNode
      EnclosesMembersOf.append_left fun _ => ?_
    exact (readsNode_typeTail hlines true texts).block (fun _ _ => rfl) fun h => ⟨h, nofun⟩

/-! ## Documents -/

/-- A schema block has its stretch, without a tail. -/
theorem exists_schemaStretch_of_run {lead handed : List Token} {feed mid rest : Feed} {span : Span}
    {block : Block} (h : feed.Behind tokens (done ++ lead) []) (hlead : AllDescriptions lead)
    (hfirst : (expect Want.definition).run feed = .ok ((.schema, span), mid))
    (hread : (blockTail (commentsOf handed ++ descriptionsOf lead) (.schema, span)).run mid =
      .ok (block, rest)) :
    ∃ s : Stretch Block, Block.Stands tokens done handed s ∧ s.node = block ∧
      rest.Behind tokens (done ++ s.tokens) s.tail.handed := by
  have hword : Takes tokens (done ++ lead) (expect Want.definition)
      fun used _ => ∃ token : Token, used = [token] := takes_expect fun token _ _ => ⟨token, rfl⟩
  obtain ⟨_, hbehind, token, rfl⟩ := hword _ _ _ h hfirst
  have htail : Takes tokens (done ++ lead ++ [token])
      (blockTail (commentsOf handed ++ descriptionsOf lead) (.schema, span))
      fun used block => EndsSolid used ∧ ∃ a, block = .schema a ∧
        Gathers (commentsOf handed ++ descriptionsOf lead) used a :=
    (takes_schemaBlockTail _ span).bind fun used a ⟨hending, hgathers⟩ =>
      takes_pure (by simpa using ⟨hending, hgathers⟩)
  obtain ⟨used, hrest, hending, a, rfl, inside, hinside, hdescriptions⟩ := htail _ _ _ hbehind hread
  have hstretch : rest.Behind tokens
      (done ++ ([] ++ lead ++ (token :: used) ++ Tail.none.tokens)) [] := by
    simpa [Tail.none, Tail.tokens] using hrest
  refine ⟨⟨[], lead, token :: used, .none, .schema a⟩, ⟨⟨List.forall_mem_nil _, hlead,
    hending.append_left [token], Tail.fits_none, feed, rest, by simpa using h, ?_, hstretch⟩,
    trivial, fun h => absurd rfl h, fun _ => ⟨rfl, inside, hinside.cons _, hdescriptions⟩⟩, rfl,
    hstretch⟩
  rw [blockFrom, bind_run, hfirst]
  exact hread

/-- The definition that a round of the loop over a document reads has its stretch. -/
theorem exists_blockStretch_of_run {document next : Document} {lead handed : List Token}
    {feed rest : Feed} (hlines : LinesInOrder tokens) (h : feed.Behind tokens (done ++ lead) [])
    (hlead : AllDescriptions lead)
    (hrun : (expect .definition >>= fun word =>
      definitionTail document (commentsOf handed ++ descriptionsOf lead) word).run feed =
        .ok (next, rest)) :
    ∃ s : Stretch Block, Block.Stands tokens done handed s ∧ next = document.add s.node ∧
      rest.Behind tokens (done ++ s.tokens) s.tail.handed := by
  simp only [definitionTail_eq] at hrun
  obtain ⟨word, mid, block, hfirst, hread, rfl⟩ := exists_run_of_map_run hrun
  -- A schema block ends with its brace, whatever stands behind that; all others have a tail.
  by_cases hword : word.1 = .schema
  · obtain ⟨word, span⟩ := word
    obtain rfl : word = .schema := hword
    obtain ⟨s, hstands, rfl, hrest⟩ := exists_schemaStretch_of_run h hlead hfirst hread
    exact ⟨s, hstands, rfl, hrest⟩
  · rw [← List.append_nil done] at h
    obtain ⟨token, used, tail, hstands, howns, hrest, hencloses, hblock⟩ :=
      exists_stretch_of_run handed hlines Want.solid_definition
        (readsNode_blockTail hlines hword) h (List.forall_mem_nil _) hlead hfirst hread
    exact ⟨⟨[], lead, token :: used, tail, block⟩, ⟨hstands, hencloses.append_left, fun _ => howns,
      fun h => absurd h hblock⟩, rfl, hrest⟩

end Parser

namespace Document

/-- **Trailing comments stay.** A text that forms a document is laid out in the stretches of its
definitions, in order, and these in those of their fields and enum values. Each node, schema blocks
apart, owns what documents it: a comment that trails it is among its comments, and what follows is
described by other tokens. -/
theorem laid_ofText {file text : String} {d : Document} (h : ofText file text = .ok d) :
    ∃ (blocks : List (Stretch Block)) (handed : List Token),
      d = .ofBlocks (blocks.map Stretch.node) ∧
        Laid (Block.Stands (Token.ofText file text)) [] blocks handed := by
  obtain ⟨rest, hrun⟩ := exists_run_of_ofTokens h
  refine Parser.of_loop_run
    (fun document feed => ∃ (blocks : List (Stretch Block)) (handed : List Token),
      feed.Behind (Token.ofText file text) (blocks.flatMap Stretch.tokens) handed ∧
        document = .ofBlocks (blocks.map Stretch.node) ∧
          Laid (Block.Stands (Token.ofText file text)) [] blocks handed)
    (fun document _ => ∃ (blocks : List (Stretch Block)) (handed : List Token),
      document = .ofBlocks (blocks.map Stretch.node) ∧
        Laid (Block.Stands (Token.ofText file text)) [] blocks handed)
    ?_ ?_ ⟨[], [], .ofTokens file _, rfl, .nil⟩ hrun
  · rintro document feed d rest ⟨blocks, handed, hfeed, rfl, hlaid⟩ hturn
    obtain ⟨-, -, -, ⟨⟨⟩⟩ | ⟨hd, -⟩⟩ := Parser.exists_lead_of_documentTurn_run hfeed hturn
    obtain rfl := Sum.inl.inj hd
    exact ⟨blocks, handed, rfl, hlaid⟩
  · rintro document feed entry mid next rest ⟨blocks, handed, hfeed, rfl, hlaid⟩ hturn hbody
    obtain ⟨lead, hmid, hlead, hentry | ⟨⟨⟩, -⟩⟩ :=
      Parser.exists_lead_of_documentTurn_run hfeed hturn
    obtain rfl := Sum.inr.inj hentry
    obtain ⟨s, hstands, rfl, hrest⟩ :=
      Parser.exists_blockStretch_of_run (linesInOrder_ofText file text) hmid hlead hbody
    refine ⟨blocks ++ [s], s.tail.handed, by simpa using hrest, ?_, hlaid.concat hstands⟩
    rw [List.map_append, List.map_singleton, ofBlocks_concat]

theorem laid_ofText_enum :
    let text := "type A # a\n# b\nenum B \x7b C, # c\n\x7d # d"
    let d := { Document.empty with
      types := [⟨"A", [], [], [], [], ["# a"], false, ⟨"a.graphql", ⟨0, 5, 5⟩, ⟨0, 6, 6⟩⟩⟩]
      enums := [⟨"B", [⟨"C", [], [], ["# c"]⟩], [], ["# b"], ["# d"],
        ⟨"a.graphql", ⟨2, 5, 20⟩, ⟨2, 6, 21⟩⟩⟩] }
    ofText "a.graphql" text = .ok d ∧
      ∃ (blocks : List (Stretch Block)) (handed : List Token),
        d = .ofBlocks (blocks.map Stretch.node) ∧
          Laid (Block.Stands (Token.ofText "a.graphql" text)) [] blocks handed := by
  intro text d
  have hread : ofText "a.graphql" text = .ok d := by decide +kernel
  exact ⟨hread, laid_ofText hread⟩

/-- What trails a schema block, on the line on which it ends, describes the next definition. -/
theorem schemaBlock_loses_trailing :
    let text := "schema \x7b query: Q \x7d # c\ntype A"
    let tokens := Token.ofText "a.graphql" text
    (tokens[5]?.map fun token => (token.kind, token.span.stop.line)) =
        some (.punctuator .braceClose, 0) ∧
      (tokens[6]?.map fun token => (token.kind, token.span.start.line)) =
        some (.comment "# c", 0) ∧
      ofText "a.graphql" text = .ok { Document.empty with
        schemaBlocks := [⟨some "Q", none, none, [], ⟨"a.graphql", ⟨0, 0, 0⟩, ⟨0, 6, 6⟩⟩⟩]
        types := [⟨"A", [], [], [], ["# c"], [], false,
          ⟨"a.graphql", ⟨1, 5, 29⟩, ⟨1, 6, 30⟩⟩⟩] } := by
  decide +kernel

end Document

end SchemaMerge
