import SchemaMerge.Proofs.Reading.Stretches

/-!
# Productions read nodes

Each production for a field, an enum value or a definition reads a complete node (`ReadsNode`): the
texts given to it become its descriptions, and it has the comments of its tail. Schema blocks are
the exception. They have no tail, and gather as descriptions all that stands among their tokens
(`takes_schemaBlockTail`).
-/

namespace SchemaMerge

namespace Parser

variable {α β : Type} {tokens done : List Token}

/-! ## Rules -/

section

variable [Documented α] {texts : List String}
  {more : List Token → List Token → Tail → α → Prop}

/-- What is taken in front of the rest of a node is taken for the node. -/
theorem Seals.bind_readsNode {p : Parser β} {next : β → Parser α} (hp : Seals tokens p)
    (hleft : ∀ {done front used tail a}, more (done ++ front) used tail a →
      more done (front ++ used) tail a)
    (hnext : ∀ b, ReadsNode tokens texts more (next b)) :
    ReadsNode tokens texts more (p >>= next) := by
  refine fun done => (hp done).bind_completes fun used b hused => ?_
  intro feed a rest hfeed hrun
  obtain ⟨others, tail, hrest, hfits, hkeeps, htells, hmore⟩ := hnext b _ feed a rest hfeed hrun
  exact ⟨others, tail, hrest, hfits, hkeeps, htells.append_left hused, hleft hmore⟩

/-- A node ends with the comment that trails it. -/
theorem readsNode_trailing {finish : List String → α}
    (hdescription : ∀ comments, own .description (finish comments) = texts)
    (hcomment : ∀ comments, own .comment (finish comments) = comments)
    (hmore : ∀ done tail a, tail.handed = [] → more done [] tail a) :
    ReadsNode tokens texts more (trailingComment >>= fun comments => pure (finish comments)) := by
  refine fun done => completes_trailingComment fun tail _ hown hhanded =>
    ⟨⟨sealed_nil, hdescription _, [], List.nil_sublist _, ?_⟩, hmore done tail _ hhanded⟩
  rw [hcomment, Tail.kept, hown]
  rfl

/-- The members that `get` finds in a node stand among its tokens. -/
def EnclosesMembers [Documented β] (tokens : List Token) (production : List String → Parser β)
    (get : α → List β) (done used : List Token) (_ : Tail) (a : α) : Prop :=
  Encloses tokens done used production (get a)

/-- A definition with members has the comments behind its header, which stand among its tokens if it
has a body, and else are in its tail. -/
theorem readsNode_bodyTail [Documented β] {what : String}
    {member : List String → String × Span → Parser β}
    {finish : List String → List β → List String → α} {get : α → List β}
    (hlines : LinesInOrder tokens)
    (hmember : ∀ texts name, ReadsNode tokens texts HandsNothing (member texts name))
    (hdescription : ∀ inner members trailing,
      own .description (finish inner members trailing) = texts)
    (hcomment : ∀ inner members trailing,
      own .comment (finish inner members trailing) = inner ++ trailing)
    (hget : ∀ inner members trailing, get (finish inner members trailing) = members) :
    ReadsNode tokens texts (EnclosesMembers tokens (memberFrom what member) get)
      (Seam.bodyTail (optionalMembers what member) finish) := by
  refine fun done => completes_bodyTail (fun inner => takes_optionalMembers hlines hmember)
    (fun inner body members tail _ hbody hne _ hown _ => ?_) fun tail _ => ?_
  · obtain ⟨hsealed, hencloses⟩ := hbody
    have hending : EndsSolid body :=
      ⟨_, List.getLast?_eq_some_getLast hne, hsealed _ (List.getLast?_eq_some_getLast hne)⟩
    refine ⟨⟨(hending.append_left inner).sealed, hdescription _ _ _, inner,
      List.sublist_append_left _ _, ?_⟩, ?_⟩
    · rw [hcomment, Tail.kept, hown, List.nil_append, commentsOf_append]
    · rw [EnclosesMembers, hget]
      exact hencloses.append_left
  · refine ⟨⟨sealed_nil, hdescription _ _ _, [], List.nil_sublist _, ?_⟩, ?_⟩
    · rw [hcomment, Tail.kept, List.nil_append, commentsOf_append]
    · rw [EnclosesMembers, hget]
      exact encloses_nil

end

/-! ## Members -/

/-- A field hands nothing on: there is no body where comments could be in question. -/
theorem readsNode_fieldTail (texts : List String) (name : String × Span) :
    ReadsNode tokens texts HandsNothing (fieldTail texts name) := by
  refine seals_optionalArguments.bind_readsNode id fun arguments => ?_
  refine (finishes_mark .colon (by decide)).seals.bind_readsNode id fun _ done => ?_
  have hinner : Takes tokens done innerComments fun used texts => texts = commentsOf used :=
    takes_innerComments fun _ _ => rfl
  refine hinner.bind_completes fun inner _ hcomments => ?_
  subst hcomments
  refine (finishes_typeRef _).bind_completes fun used type hused => ?_
  refine (seals_optionalDefault _).bind_completes fun more default hmore => ?_
  refine (seals_directives _).bind_completes fun others directives hothers => ?_
  refine completes_trailingComment fun tail _ hown hhanded =>
    ⟨⟨?_, rfl, inner, List.sublist_append_left _ _, ?_⟩, hhanded⟩
  · rw [List.append_nil]
    exact ((hused.append (hmore.append hothers)).append_left inner).sealed
  · rw [commentsOf_append, Tail.kept, hown]
    rfl

theorem readsNode_enumValueTail (texts : List String) (name : String × Span) :
    ReadsNode tokens texts HandsNothing (enumValueTail texts name) :=
  seals_directives.bind_readsNode id fun _ =>
    readsNode_trailing (fun _ => rfl) (fun _ => rfl) fun _ _ _ hhanded => hhanded

/-! ## Definitions -/

theorem readsNode_directiveDefinitionTail (texts : List String) :
    ReadsNode tokens texts (fun _ _ _ _ => True) (directiveDefinitionTail texts) := by
  refine (finishes_mark .atSign (by decide)).seals.bind_readsNode id fun _ => ?_
  refine (finishes_expect (Want.solid_name _)).seals.bind_readsNode id fun name => ?_
  refine seals_optionalArguments.bind_readsNode id fun arguments => ?_
  refine (seals_takeKeyword .repeatable).bind_readsNode id fun repeatable => ?_
  refine (finishes_expect (Want.solid_keyword _)).seals.bind_readsNode id fun _ => ?_
  refine (seals_separatedNames (by decide) _).bind_readsNode id fun locations => ?_
  exact readsNode_trailing (fun _ => rfl) (fun _ => rfl) fun _ _ _ _ => trivial

theorem readsNode_scalarTail (texts : List String) :
    ReadsNode tokens texts (fun _ _ _ _ => True) (scalarTail texts) := by
  refine (finishes_expect (Want.solid_name _)).seals.bind_readsNode id fun name => ?_
  refine seals_directives.bind_readsNode id fun directives => ?_
  exact readsNode_trailing (fun _ => rfl) (fun _ => rfl) fun _ _ _ _ => trivial

theorem readsNode_unionTail (texts : List String) :
    ReadsNode tokens texts (fun _ _ _ _ => True) (unionTail texts) := by
  refine (finishes_expect (Want.solid_name _)).seals.bind_readsNode id fun name => ?_
  refine seals_directives.bind_readsNode id fun directives => ?_
  refine seals_optionalUnionMembers.bind_readsNode id fun members => ?_
  exact readsNode_trailing (fun _ => rfl) (fun _ => rfl) fun _ _ _ _ => trivial

/-- The members of a body are read as nodes of their own, between the braces. -/
theorem readsNode_enumTail (hlines : LinesInOrder tokens) (texts : List String) :
    ReadsNode tokens texts
      (EnclosesMembers tokens (memberFrom "enum value" enumValueTail) EnumDefinition.values)
      (enumTail texts) := by
  refine (finishes_expect (Want.solid_name _)).seals.bind_readsNode Encloses.append_left
    fun name => ?_
  refine seals_directives.bind_readsNode Encloses.append_left fun directives => ?_
  exact readsNode_bodyTail hlines readsNode_enumValueTail (fun _ _ _ => rfl) (fun _ _ _ => rfl)
    fun _ _ _ => rfl

theorem readsNode_fieldsDefinitionTail (hlines : LinesInOrder tokens) (what : String)
    (texts : List String) :
    ReadsNode tokens texts
      (EnclosesMembers tokens (memberFrom "field name" fieldTail) FieldsDefinition.fields)
      (fieldsDefinitionTail what texts) := by
  refine (finishes_expect (Want.solid_name _)).seals.bind_readsNode Encloses.append_left
    fun name => ?_
  refine seals_directives.bind_readsNode Encloses.append_left fun directives => ?_
  exact readsNode_bodyTail hlines readsNode_fieldTail (fun _ _ _ => rfl) (fun _ _ _ => rfl)
    fun _ _ _ => rfl

theorem readsNode_typeTail (hlines : LinesInOrder tokens) (isExtension : Bool)
    (texts : List String) :
    ReadsNode tokens texts
      (EnclosesMembers tokens (memberFrom "field name" fieldTail) TypeDefinition.fields)
      (typeTail isExtension texts) := by
  refine (finishes_expect (Want.solid_name _)).seals.bind_readsNode Encloses.append_left
    fun name => ?_
  refine seals_optionalInterfaces.bind_readsNode Encloses.append_left fun interfaces => ?_
  refine seals_directives.bind_readsNode Encloses.append_left fun directives => ?_
  exact readsNode_bodyTail hlines readsNode_fieldTail (fun _ _ _ => rfl) (fun _ _ _ => rfl)
    fun _ _ _ => rfl

/-! ## Schema blocks -/

/-- Of texts given and of those among the tokens that are taken the block has made its
descriptions. -/
def Gathers (texts : List String) (used : List Token) (block : SchemaBlock) : Prop :=
  ∃ inside : List Token, inside.Sublist used ∧
    block.descriptions = texts ++ descriptionsOf inside

/-- What entries of a schema block gather adds up. -/
theorem Gathers.append {texts : List String} {used more : List Token} {block next : SchemaBlock}
    (h : Gathers texts used block) (hmore : Gathers block.descriptions more next) :
    Gathers texts (used ++ more) next := by
  obtain ⟨inside, hinside, hblock⟩ := h
  obtain ⟨others, hothers, hnext⟩ := hmore
  exact ⟨inside ++ others, hinside.append hothers, by
    rw [hnext, hblock, descriptionsOf_append, List.append_assoc]⟩

theorem takes_schemaEntryTail (block : SchemaBlock) (key : String × Span) :
    Takes tokens done (schemaEntryTail block key) (Gathers block.descriptions) := by
  rw [schemaEntryTail]
  cases RootOperation.ofKey? key.1 with
  | none => exact takes_fail _
  | some operation =>
    refine ((finishes_mark .colon (by decide)).seals.plain _).bind fun front _ _ => ?_
    have hinner : Takes tokens (done ++ front) innerComments
        fun used texts => texts = descriptionsOf used :=
      takes_innerComments fun comments hcomments => hcomments.descriptionsOf_eq.symm
    refine hinner.bind fun inner _ htexts => ?_
    subst htexts
    refine ((finishes_name _).seals.plain _).bind fun behind type _ => ?_
    refine takes_ite (fun _ => takes_fail _) fun _ => takes_pure ⟨inner, ?_, ?_⟩
    · rw [List.append_nil]
      exact (List.sublist_append_left _ _).trans (List.sublist_append_right _ _)
    · cases operation <;> rfl

/-- All entries of a block gather their comments in it, one after the other. -/
theorem takes_schemaEntries (expected : List String) (opening : Span) (block : SchemaBlock) :
    Takes tokens done
      (loop (fun block => turnInBraces (addDescriptions block) (addDescriptions block) expected
        opening) (.name "schema key") schemaEntryTail block) (Gathers block.descriptions) := by
  refine takes_loop (Gathers block.descriptions) (Gathers block.descriptions)
    (fun used held hheld => ?_) (fun used held hheld => ?_) ⟨[], List.nil_sublist _, by simp⟩
  · intro feed turned rest hfeed hrun
    obtain ⟨commas, lead, hrest, -, -, hturned⟩ := exists_turnInBraces_run hfeed hrun
    have hmore : Gathers held.descriptions (commas ++ lead)
        (addDescriptions held (descriptionsOf lead)) := ⟨lead, List.sublist_append_right _ _, rfl⟩
    refine ⟨commas ++ lead, by simpa using hrest, ?_⟩
    rcases hturned with rfl | ⟨rfl, -⟩
    · exact hheld.append hmore
    · exact hheld.append hmore
  · refine ((finishes_expect (Want.solid_name _)).seals.plain _).bind fun front key _ => ?_
    refine (takes_schemaEntryTail held key).mono fun more next hnext => ?_
    have hfront : Gathers held.descriptions front held := ⟨[], List.nil_sublist _, by simp⟩
    exact hheld.append (hfront.append hnext)

/-- A schema block ends with its brace, and a comment behind it belongs to what follows. -/
theorem takes_schemaBlockTail (texts : List String) (span : Span) :
    Takes tokens done (schemaBlockTail texts span)
      fun used block => EndsSolid used ∧ Gathers texts used block := by
  have hinner : Takes tokens done innerComments fun used texts => texts = descriptionsOf used :=
    takes_innerComments fun comments hcomments => hcomments.descriptionsOf_eq.symm
  refine hinner.bind fun inner _ htexts => ?_
  subst htexts
  refine ((finishes_mark .braceOpen (by decide)).seals.plain _).bind fun front opening _ => ?_
  refine (takes_schemaEntries _ opening _).bind fun entries block hblock => ?_
  refine (finishes_mark .braceClose (by decide) _).bind fun behind _ hbehind => takes_pure ⟨?_, ?_⟩
  · rw [List.append_nil]
    exact ((hbehind.append_left entries).append_left front).append_left inner
  · obtain ⟨inside, hinside, hdescriptions⟩ := hblock
    refine ⟨inner ++ inside, ?_, by rw [hdescriptions, descriptionsOf_append, List.append_assoc]⟩
    refine (List.Sublist.refl inner).append (List.Sublist.trans ?_ (List.sublist_append_right _ _))
    exact hinside.trans (List.sublist_append_left _ _)

end Parser

end SchemaMerge
