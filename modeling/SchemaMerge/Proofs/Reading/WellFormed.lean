import SchemaMerge.Proofs.Merge.Keyed
import SchemaMerge.Proofs.Reading.Rules
import SchemaMerge.Proofs.Reading.Yields
import SchemaMerge.Reading.Document

/-!
# What is read is well formed

Each parser gives a well-formed node, from the literals (`yields_value`) up to the document
(`Document.wellFormed_of_ofText`).
-/

namespace SchemaMerge

theorem forall_mem_concat {α : Type} {good : α → Prop} {as : List α} (has : ∀ a ∈ as, good a)
    {last : α} (hlast : good last) : ∀ a ∈ as ++ [last], good a :=
  List.forall_mem_append.2 ⟨has, List.forall_mem_singleton.2 hlast⟩

namespace Parser

/-! ## Descriptions and comments -/

theorem yields_skipCommas : Yields skipCommas fun _ => True :=
  (yields_takeRun fun _ _ _ _ => trivial).bind fun _ _ => yields_pure trivial

/-- Descriptions are strings, or comments that were carried to them. -/
theorem yields_descriptions :
    Yields descriptions fun texts => ∀ text ∈ texts, IsDescription text := by
  refine (yields_swapCarried (List.forall_mem_nil _)).bind fun carried hcarried => ?_
  refine (yields_takeRun fun _ _ hgenuine => hgenuine.isDescription).bind fun texts htexts => ?_
  exact yields_pure (List.forall_mem_append.2
    ⟨fun text htext => (hcarried text htext).isDescription, htexts⟩)

theorem yields_innerComments : Yields innerComments fun texts => ∀ text ∈ texts, IsComment text :=
  yields_takeRun fun _ _ hgenuine => hgenuine.isComment

theorem yields_trailingComment :
    Yields trailingComment fun texts => ∀ text ∈ texts, IsComment text := by
  refine yields_skipCommas.bind fun _ _ => yields_feed.bind fun feed hfeed => ?_
  split
  · next comment hcomment =>
    exact yields_advance.bind fun _ _ =>
      yields_pure (List.forall_mem_singleton.2 (hfeed.trailing? hcomment))
  · exact yields_pure (List.forall_mem_nil _)

/-- Comments that are carried on are comments like those that are taken. -/
theorem yields_headerComments :
    Yields headerComments fun texts => ∀ text ∈ texts, IsComment text := by
  refine yields_feed.bind fun feed _ => yields_innerComments.bind fun comments hcomments => ?_
  refine (yields_nextIs _).bind fun brace _ => ?_
  split
  · exact yields_pure hcomments
  · refine (yields_swapCarried fun text htext => hcomments text (List.mem_of_mem_drop htext)).bind
      fun _ _ => yields_pure fun text htext => hcomments text (List.mem_of_mem_take htext)

/-! ## Rounds between brackets -/

theorem yields_closesBraces (expected : List String) (opening : Span) :
    Yields (closesBraces expected opening) fun _ => True := by
  refine yields_feed.bind fun feed _ => ?_
  split
  · exact yields_pure trivial
  · split
    · exact yields_pure trivial
    · split
      · exact yields_pure trivial
      · exact yields_fail _

section Turn

variable {α τ : Type} {stop : List String → α} {go : List String → τ} {good : α → Prop}
  {mid : τ → Prop}

/-- A turn ends a list or goes on to an entry, with descriptions in both cases. -/
theorem yields_turnInParens
    (hstop : ∀ texts, (∀ text ∈ texts, IsDescription text) → good (stop texts))
    (hgo : ∀ texts, (∀ text ∈ texts, IsDescription text) → mid (go texts)) :
    Yields (turnInParens stop go) (Sum.elim good mid) := by
  refine yields_skipCommas.bind fun _ _ => yields_descriptions.bind fun texts htexts => ?_
  refine yields_skipCommas.bind fun _ _ => (yields_nextIs _).bind fun close _ => ?_
  split
  · exact yields_pure (hstop texts htexts)
  · exact yields_pure (hgo texts htexts)

/-- A turn ends a body or goes on to a member, with descriptions in both cases. -/
theorem yields_turnInBraces {expected : List String} {opening : Span}
    (hstop : ∀ texts, (∀ text ∈ texts, IsDescription text) → good (stop texts))
    (hgo : ∀ texts, (∀ text ∈ texts, IsDescription text) → mid (go texts)) :
    Yields (turnInBraces stop go expected opening) (Sum.elim good mid) := by
  refine yields_skipCommas.bind fun _ _ => yields_descriptions.bind fun texts htexts => ?_
  refine (yields_closesBraces _ _).bind fun close _ => ?_
  split
  · exact yields_pure (hstop texts htexts)
  · exact yields_pure (hgo texts htexts)

end Turn

/-! ## Values, types and directives -/

theorem yields_name (what : String) : Yields (name what) IsName :=
  (yields_expect_name what).bind fun _ h => yields_pure h

/-- A list literal holds items, by induction on how deep lists may be nested in it. -/
theorem yields_listTail (separator : String) (depth : Nat) (opening : Span) :
    Yields (listTail separator depth opening)
      fun values => ∀ value ∈ values, IsItem separator (depth - 1) value := by
  induction depth generalizing opening with
  | zero => exact yields_fail _
  | succ depth ih =>
    refine (yields_loop (fun values => ∀ value ∈ values, IsItem separator depth value)
      (fun values => ∀ value ∈ values, IsItem separator depth value)
      (fun values => ∀ value ∈ values, IsItem separator depth value)
      (Sum.elim (fun _ => True) IsLiteral) (fun values hvalues => ?_)
      (yields_expect fun token item hgenuine hread => ?_) (fun values item hvalues hitem => ?_)
      (List.forall_mem_nil _)).bind fun values hvalues =>
        (yields_mark _).bind fun _ _ => yields_pure hvalues
    · refine yields_skipCommas.bind fun _ _ => (yields_nextIs _).bind fun close _ => ?_
      split <;> exact yields_pure hvalues
    · simp only [Want.listItem] at hread
      split at hread
      · cases hread
        trivial
      · obtain ⟨text, htext, rfl⟩ := Option.map_eq_some_iff.1 hread
        exact hgenuine.isLiteral htext
    · cases item with
      | inl opening =>
        cases depth with
        | zero => exact (@yields_fail _ (fun _ => False) _).bind fun _ h => h.elim
        | succ depth =>
          exact (ih opening).bind fun nested hnested =>
            yields_pure (forall_mem_concat hvalues (.inr ⟨nested, hnested, rfl⟩))
      | inr value =>
        exact yields_pure
          (forall_mem_concat hvalues (isItem_of_isLiteral hitem separator depth))

/-- A value is a literal, or a list whose items are literals and lists. -/
theorem yields_value (separator : String) :
    Yields (value separator) fun found => AreValues separator found.2 found.1 := by
  refine (yields_nextIs _).bind fun bracket _ => ?_
  split
  · refine (yields_mark _).bind fun opening _ => ?_
    exact (yields_listTail separator maxListDepth opening).bind fun values hvalues =>
      yields_pure hvalues
  · refine (@yields_expect _ IsLiteral _ fun token text hgenuine hread =>
      hgenuine.isLiteral hread).bind fun text htext => yields_pure ⟨text, htext, rfl⟩

theorem yields_optionalDefault :
    Yields optionalDefault fun default => ∀ d ∈ default, d.WellFormed := by
  refine (yields_takeIf _).bind fun equals _ => ?_
  split
  · refine (yields_value _).bind fun found hfound => yields_pure ?_
    rintro _ ⟨⟩
    exact hfound
  · exact yields_pure (by simp)

/-- A type is a name within lists and marks. -/
theorem yields_typeRef : Yields typeRef TypeRef.WellFormed := by
  refine (yields_takeIf _).bind fun bracket _ => ?_
  split
  · refine (yields_name _).bind fun name hname => (yields_takeIf _).bind fun bang _ => ?_
    refine (yields_mark _).bind fun _ _ => (yields_takeIf _).bind fun listBang _ => ?_
    exact yields_pure ⟨hname, fun h => by cases h⟩
  · refine (yields_name _).bind fun name hname => (yields_takeIf _).bind fun bang _ => ?_
    exact yields_pure ⟨hname, fun _ => rfl⟩

/-- Arguments given to a directive, and descriptions among them. -/
def AreDirectiveArguments (found : List DirectiveArgument × List String) : Prop :=
  (∀ a ∈ found.1, a.WellFormed) ∧ ∀ text ∈ found.2, IsDescription text

theorem yields_directiveArguments : Yields directiveArguments AreDirectiveArguments := by
  have hnil : AreDirectiveArguments ([], []) := ⟨List.forall_mem_nil _, List.forall_mem_nil _⟩
  refine (yields_takeIf _).bind fun paren _ => ?_
  split
  · refine (yields_loop AreDirectiveArguments AreDirectiveArguments AreDirectiveArguments _
      (fun found hfound => ?_) (yields_expect_name _) (fun found name hfound hname => ?_)
      hnil).bind fun found hfound => (yields_mark _).bind fun _ _ => yields_pure hfound
    · have hmore (texts : List String) (htexts : ∀ text ∈ texts, IsDescription text) :
          AreDirectiveArguments (found.1, found.2 ++ texts) :=
        ⟨hfound.1, List.forall_mem_append.2 ⟨hfound.2, htexts⟩⟩
      exact yields_turnInParens hmore hmore
    · refine (yields_mark _).bind fun _ _ => (yields_value _).bind fun value hvalue => ?_
      exact yields_pure ⟨forall_mem_concat hfound.1 ⟨hname, hvalue⟩, hfound.2⟩
  · exact yields_pure hnil

/-- Directives have names, and their arguments have names and values. -/
theorem yields_directives : Yields directives fun found => ∀ d ∈ found, d.WellFormed := by
  have hnil : ∀ d ∈ ([] : List Directive), d.WellFormed := List.forall_mem_nil _
  refine yields_loop _ (fun found => ∀ d ∈ found, d.WellFormed)
    (fun found => ∀ d ∈ found, d.WellFormed) _ (fun found hfound => ?_) (yields_mark _)
    (fun found _ hfound _ => ?_) hnil
  · refine (yields_nextIs _).bind fun sign _ => ?_
    split <;> exact yields_pure hfound
  · refine yields_descriptions.bind fun before hbefore => (yields_name _).bind fun name hname => ?_
    refine yields_directiveArguments.bind fun inner hinner => yields_pure ?_
    exact forall_mem_concat hfound
      ⟨hname, hinner.1, List.forall_mem_append.2 ⟨hbefore, hinner.2⟩⟩

/-! ## Members -/

/-- An argument is well-formed if the name and descriptions are that it is read with. -/
theorem yields_argumentTail {texts : List String} (htexts : ∀ text ∈ texts, IsDescription text)
    {name : String} (hname : IsName name) :
    Yields (argumentTail texts name) Argument.WellFormed := by
  refine (yields_mark _).bind fun _ _ => yields_innerComments.bind fun inner hinner => ?_
  refine yields_typeRef.bind fun type htype => ?_
  refine yields_optionalDefault.bind fun default hdefault => ?_
  refine yields_directives.bind fun directives hdirectives => yields_pure ?_
  exact ⟨hname, htype, hdefault, hdirectives, List.forall_mem_append.2
    ⟨htexts, fun text htext => (hinner text htext).isDescription⟩⟩

theorem yields_optionalArguments :
    Yields optionalArguments fun found => ∀ a ∈ found, a.WellFormed := by
  have hnil : ∀ a ∈ ([] : List Argument), a.WellFormed := List.forall_mem_nil _
  refine (yields_takeIf _).bind fun paren _ => ?_
  split
  · refine (yields_loop (fun found => ∀ a ∈ found, a.WellFormed)
      (fun found => ∀ a ∈ found, a.WellFormed)
      (fun entry : List Argument × List String => (∀ a ∈ entry.1, a.WellFormed) ∧
        ∀ text ∈ entry.2, IsDescription text) _
      (fun found hfound => ?_) (yields_expect_name _) (fun entry name hentry hname => ?_)
      hnil).bind fun found hfound => (yields_mark _).bind fun _ _ => yields_pure hfound
    · exact @yields_turnInParens _ _ (fun _ => found) (found, ·) _ _ (fun _ _ => hfound)
        fun _ htexts => ⟨hfound, htexts⟩
    · refine (yields_argumentTail hentry.2 hname).bind fun a ha => yields_pure ?_
      exact forall_mem_concat hentry.1 ha
  · exact yields_pure hnil

/-- Members are good if each is, given good descriptions and a name. -/
theorem yields_optionalMembers {α : Type} {what : String}
    {member : List String → String × Span → Parser α} {good : α → Prop}
    (h : ∀ texts name, (∀ text ∈ texts, IsDescription text) → IsName name.1 →
      Yields (member texts name) good) :
    Yields (optionalMembers what member) fun found => ∀ a ∈ found, good a := by
  have hnil : ∀ a ∈ ([] : List α), good a := List.forall_mem_nil _
  refine (yields_nextIs _).bind fun brace _ => ?_
  split
  · refine (yields_mark _).bind fun opening _ => ?_
    refine (yields_loop (fun found => ∀ a ∈ found, good a) (fun found => ∀ a ∈ found, good a)
      (fun entry : List α × List String => (∀ a ∈ entry.1, good a) ∧
        ∀ text ∈ entry.2, IsDescription text) _
      (fun found hfound => ?_) (yields_expect_name _) (fun entry name hentry hname => ?_)
      hnil).bind fun found hfound => (yields_mark _).bind fun _ _ => yields_pure hfound
    · exact @yields_turnInBraces _ _ (fun _ => found) (found, ·) _ _ _ _ (fun _ _ => hfound)
        fun _ htexts => ⟨hfound, htexts⟩
    · refine (h _ _ hentry.2 hname).bind fun a ha => yields_pure ?_
      exact forall_mem_concat hentry.1 ha
  · exact yields_pure hnil

/-- A field is well-formed if the name and descriptions are that it is read with. -/
theorem yields_fieldTail {texts : List String} (htexts : ∀ text ∈ texts, IsDescription text)
    {name : String × Span} (hname : IsName name.1) :
    Yields (fieldTail texts name) Field.WellFormed := by
  refine yields_optionalArguments.bind fun arguments harguments => ?_
  refine (yields_mark _).bind fun _ _ => yields_innerComments.bind fun inner hinner => ?_
  refine yields_typeRef.bind fun type htype => ?_
  refine yields_optionalDefault.bind fun default hdefault => ?_
  refine yields_directives.bind fun directives hdirectives => ?_
  refine yields_trailingComment.bind fun trailing htrailing => yields_pure ?_
  exact ⟨hname, harguments, htype, hdefault, hdirectives, htexts,
    List.forall_mem_append.2 ⟨hinner, htrailing⟩⟩

theorem yields_optionalFields : Yields optionalFields fun found => ∀ f ∈ found, f.WellFormed :=
  yields_optionalMembers fun _ _ htexts hname => yields_fieldTail htexts hname

theorem yields_enumValueTail {texts : List String} (htexts : ∀ text ∈ texts, IsDescription text)
    {name : String × Span} (hname : IsName name.1) :
    Yields (enumValueTail texts name) EnumValue.WellFormed := by
  refine yields_directives.bind fun directives hdirectives => ?_
  exact yields_trailingComment.bind fun comments hcomments =>
    yields_pure ⟨hname, hdirectives, htexts, hcomments⟩

theorem yields_optionalEnumValues :
    Yields optionalEnumValues fun found => ∀ v ∈ found, v.WellFormed :=
  yields_optionalMembers fun _ _ htexts hname => yields_enumValueTail htexts hname

/-- There is at least one name, because the loop starts with more to come. -/
theorem yields_separatedNames (separator : Punctuator) (what : String) :
    Yields (separatedNames separator what)
      fun names => (∀ name ∈ names, IsName name) ∧ names ≠ [] := by
  refine (yields_takeIf _).bind fun _ _ => ?_
  refine yields_loop (fun names => (∀ name ∈ names, IsName name) ∧ names ≠ [])
    (fun state => (∀ name ∈ state.1, IsName name) ∧ (state.2 = false → state.1 ≠ []))
    (fun names => ∀ name ∈ names, IsName name) _ (fun state hstate => yields_pure ?_)
    (yields_expect_name _) (fun names name hnames hname => ?_) ⟨List.forall_mem_nil _, by simp⟩
  · split
    · exact hstate.1
    · next hmore => exact ⟨hstate.1, hstate.2 (by simpa using hmore)⟩
  · refine (yields_takeIf _).bind fun more _ => yields_pure ⟨?_, fun _ => by simp⟩
    exact forall_mem_concat hnames hname

/-- An interface that is named again is not kept again. -/
theorem yields_optionalInterfaces :
    Yields optionalInterfaces fun names => (∀ name ∈ names, IsName name) ∧ names.Nodup := by
  refine (yields_takeIf _).bind fun implements _ => ?_
  split
  · refine (yields_separatedNames _ _).bind fun names hnames => yields_pure ⟨fun name hname => ?_,
      nodup_uniteNames List.nodup_nil names⟩
    exact hnames.1 name ((mem_uniteNames.1 hname).resolve_left List.not_mem_nil)
  · exact yields_pure ⟨List.forall_mem_nil _, List.nodup_nil⟩

theorem yields_optionalUnionMembers :
    Yields optionalUnionMembers fun names => ∀ name ∈ names, IsName name := by
  refine (yields_takeIf _).bind fun equals _ => ?_
  split
  · exact (yields_separatedNames _ _).mono fun _ h => h.1
  · exact yields_pure (List.forall_mem_nil _)

/-! ## Definitions -/

theorem wellFormed_addDescriptions {block : SchemaBlock} (h : block.WellFormed)
    {texts : List String} (htexts : ∀ text ∈ texts, IsDescription text) :
    (addDescriptions block texts).WellFormed :=
  ⟨h.rootTypes, List.forall_mem_append.2 ⟨h.descriptions, htexts⟩⟩

/-- Naming a type for an operation keeps a block well-formed. -/
theorem wellFormed_setRootType {block : SchemaBlock} (h : block.WellFormed) {type : String}
    (htype : IsName type) (operation : RootOperation) :
    (block.setRootType type operation).WellFormed := by
  refine ⟨fun other => ?_, by cases operation <;> exact h.descriptions⟩
  by_cases hother : other = operation
  · have hset : (block.setRootType type operation).rootType? other = some type := by
      subst hother
      cases other <;> rfl
    rw [hset]
    rintro _ ⟨⟩
    exact htype
  · have hset : (block.setRootType type operation).rootType? other = block.rootType? other := by
      cases operation <;> cases other <;> first | rfl | exact absurd rfl hother
    rw [hset]
    exact h.rootTypes other

/-- A schema block stays well-formed from entry to entry. -/
theorem yields_schemaEntryTail {block : SchemaBlock} (h : block.WellFormed) (key : String × Span) :
    Yields (schemaEntryTail block key) SchemaBlock.WellFormed := by
  unfold schemaEntryTail
  split
  · exact yields_fail _
  · next operation _ =>
    refine (yields_mark _).bind fun _ _ => yields_innerComments.bind fun inner hinner => ?_
    refine (yields_name _).bind fun type htype => ?_
    have hblock := wellFormed_addDescriptions h fun text htext => (hinner text htext).isDescription
    split
    · exact yields_fail _
    · exact yields_pure (wellFormed_setRootType hblock htype operation)

section

variable {texts : List String} (htexts : ∀ text ∈ texts, IsDescription text)
include htexts

theorem yields_schemaBlockTail (span : Span) :
    Yields (schemaBlockTail texts span) SchemaBlock.WellFormed := by
  refine yields_innerComments.bind fun inner hinner => (yields_mark _).bind fun opening _ => ?_
  have hstart : (⟨none, none, none, texts ++ inner, span⟩ : SchemaBlock).WellFormed := by
    refine ⟨fun operation => ?_, List.forall_mem_append.2
      ⟨htexts, fun text htext => (hinner text htext).isDescription⟩⟩
    cases operation <;> simp [SchemaBlock.rootType?]
  refine (yields_loop SchemaBlock.WellFormed SchemaBlock.WellFormed SchemaBlock.WellFormed _
    (fun block hblock => ?_) (yields_expect_name _)
    (fun block key hblock _ => yields_schemaEntryTail hblock key) hstart).bind
      fun block hblock => (yields_mark _).bind fun _ _ => yields_pure hblock
  exact @yields_turnInBraces _ _ (addDescriptions block) (addDescriptions block) _ _ _ _
    (fun _ => wellFormed_addDescriptions hblock) fun _ => wellFormed_addDescriptions hblock

theorem yields_directiveDefinitionTail :
    Yields (directiveDefinitionTail texts) DirectiveDefinition.WellFormed := by
  refine (yields_mark _).bind fun _ _ => (yields_expect_name _).bind fun name hname => ?_
  refine yields_optionalArguments.bind fun arguments harguments => ?_
  refine (yields_takeIf _).bind fun repeatable _ => (yields_keyword _).bind fun _ _ => ?_
  refine (yields_separatedNames _ _).bind fun locations hlocations => ?_
  refine yields_trailingComment.bind fun comments hcomments => yields_pure ?_
  exact ⟨hname, harguments, hlocations.1, hlocations.2, htexts, hcomments⟩

theorem yields_scalarTail : Yields (scalarTail texts) ScalarDefinition.WellFormed := by
  refine (yields_expect_name _).bind fun name hname => ?_
  refine yields_directives.bind fun directives hdirectives => ?_
  exact yields_trailingComment.bind fun comments hcomments =>
    yields_pure ⟨hname, hdirectives, htexts, hcomments⟩

theorem yields_enumTail : Yields (enumTail texts) EnumDefinition.WellFormed := by
  refine (yields_expect_name _).bind fun name hname => ?_
  refine yields_directives.bind fun directives hdirectives => ?_
  refine yields_headerComments.bind fun inner hinner => ?_
  refine yields_optionalEnumValues.bind fun values hvalues => ?_
  exact yields_trailingComment.bind fun trailing htrailing => yields_pure
    ⟨hname, hvalues, hdirectives, htexts, List.forall_mem_append.2 ⟨hinner, htrailing⟩⟩

theorem yields_fieldsDefinitionTail (what : String) :
    Yields (fieldsDefinitionTail what texts) FieldsDefinition.WellFormed := by
  refine (yields_expect_name _).bind fun name hname => ?_
  refine yields_directives.bind fun directives hdirectives => ?_
  refine yields_headerComments.bind fun inner hinner => ?_
  refine yields_optionalFields.bind fun fields hfields => ?_
  exact yields_trailingComment.bind fun trailing htrailing => yields_pure
    ⟨hname, hfields, hdirectives, htexts, List.forall_mem_append.2 ⟨hinner, htrailing⟩⟩

theorem yields_unionTail : Yields (unionTail texts) UnionDefinition.WellFormed := by
  refine (yields_expect_name _).bind fun name hname => ?_
  refine yields_directives.bind fun directives hdirectives => ?_
  refine yields_optionalUnionMembers.bind fun members hmembers => ?_
  exact yields_trailingComment.bind fun comments hcomments =>
    yields_pure ⟨hname, hmembers, hdirectives, htexts, hcomments⟩

theorem yields_typeTail (isExtension : Bool) :
    Yields (typeTail isExtension texts) TypeDefinition.WellFormed := by
  refine (yields_expect_name _).bind fun name hname => ?_
  refine yields_optionalInterfaces.bind fun interfaces hinterfaces => ?_
  refine yields_directives.bind fun directives hdirectives => ?_
  refine yields_headerComments.bind fun inner hinner => ?_
  refine yields_optionalFields.bind fun fields hfields => ?_
  exact yields_trailingComment.bind fun trailing htrailing => yields_pure
    ⟨hname, hinterfaces.1, hinterfaces.2, hfields, hdirectives, htexts,
      List.forall_mem_append.2 ⟨hinner, htrailing⟩⟩

/-! ## Documents -/

/-- A document stays well-formed from definition to definition. -/
theorem yields_definitionTail {document : Document} (h : document.WellFormed)
    (word : DefinitionWord × Span) :
    Yields (definitionTail document texts word) Document.WellFormed := by
  obtain ⟨word, span⟩ := word
  cases word with
  | schema => exact (yields_schemaBlockTail htexts span).bind fun _ ha =>
      yields_pure { h with schemaBlocks := forall_mem_concat h.schemaBlocks ha }
  | directive => exact (yields_directiveDefinitionTail htexts).bind fun _ ha =>
      yields_pure { h with directiveDefinitions := forall_mem_concat h.directiveDefinitions ha }
  | scalar => exact (yields_scalarTail htexts).bind fun _ ha =>
      yields_pure { h with scalars := forall_mem_concat h.scalars ha }
  | enum => exact (yields_enumTail htexts).bind fun _ ha =>
      yields_pure { h with enums := forall_mem_concat h.enums ha }
  | interface => exact (yields_fieldsDefinitionTail htexts _).bind fun _ ha =>
      yields_pure { h with interfaces := forall_mem_concat h.interfaces ha }
  | union => exact (yields_unionTail htexts).bind fun _ ha =>
      yields_pure { h with unions := forall_mem_concat h.unions ha }
  | input => exact (yields_fieldsDefinitionTail htexts _).bind fun _ ha =>
      yields_pure { h with inputs := forall_mem_concat h.inputs ha }
  | type => exact (yields_typeTail htexts _).bind fun _ ha =>
      yields_pure { h with types := forall_mem_concat h.types ha }
  | extend => exact (yields_keyword _).bind fun _ _ => (yields_typeTail htexts _).bind fun _ ha =>
      yields_pure { h with types := forall_mem_concat h.types ha }

end

/-- A document is read from nothing, definition by definition. -/
theorem yields_document : Yields document Document.WellFormed := by
  have hempty : Document.empty.WellFormed := by
    constructor <;> exact List.forall_mem_nil _
  refine yields_loop Document.WellFormed Document.WellFormed
    (fun entry : Document × List String => entry.1.WellFormed ∧
      ∀ text ∈ entry.2, IsDescription text) (fun _ => True) (fun d hd => ?_)
    (yields_expect fun _ _ _ _ => trivial)
    (fun entry word hentry _ => yields_definitionTail hentry.2 hentry.1 word) hempty
  refine yields_descriptions.bind fun texts htexts => (yields_nextIs _).bind fun atEnd _ => ?_
  split
  · exact yields_pure hd
  · exact yields_pure ⟨hd, htexts⟩

end Parser

/-- **A document that is read from a text is well formed.** -/
theorem Document.wellFormed_of_ofText {file text : String} {d : Document}
    (h : Document.ofText file text = .ok d) : d.WellFormed := by
  have hgenuine : (Feed.ofTokens file (Token.ofText file text)).Genuine :=
    ⟨genuine_of_mem_tokensFrom, List.forall_mem_nil _⟩
  simp only [Document.ofText, Document.ofTokens] at h
  split at h
  · next hrun =>
    cases h
    exact (Parser.yields_document _ _ _ hgenuine hrun).1
  · cases h

end SchemaMerge
