import SchemaMerge.Proofs.Merge.Keyed
import SchemaMerge.Proofs.RoundTrip.Header

/-!
# Reading printed definitions

For each category of definitions, what is printed behind the keyword (`scalarRest` and so on) and
the theorem that it is read back in front of what comes next. The schema block, the directive
definition, the scalar and the union end in front of the line break that ends them; the definitions
with a body are read by `leads_body`.
-/

namespace SchemaMerge.Parser

variable {unit : String}

/-! ## Names between marks -/

/-- Names that stand behind another one, each behind a mark. -/
def furtherNames (c : Char) (names : List String) : List Char :=
  names.flatMap fun name => ' ' :: c :: ' ' :: name.toList

theorem toList_intercalate_names {separator : String} {c : Char}
    (hseparator : separator.toList = [' ', c, ' ']) (first : String) (names : List String) :
    (String.intercalate separator (first :: names)).toList =
      first.toList ++ furtherNames c names := by
  rw [String.toList_intercalate, intercalate_map_cons, hseparator]
  rfl

theorem delimited_furtherNames (c : Char) (names : List String) {rest : List Char}
    (hrest : Delimited rest) : Delimited (furtherNames c names ++ rest) := by
  cases names with
  | nil => exact hrest
  | cons => exact delimited_cons rfl _

/-- The text that the loop over names finds when these names are left. -/
def NamesLeft (c : Char) (rest : List Char) : List String → List Char → Prop
  | [], cs => cs = rest
  | name :: names, cs =>
    ∃ gap, IsGap gap ∧ cs = gap ++ (name.toList ++ (furtherNames c names ++ rest))

section

variable {mark : Punctuator} {c : Char} (hmark : ∀ rest, Begins (c :: rest) (.punctuator mark) rest)
include hmark

/-- Behind a name stands a mark if more names are left. -/
theorem reads_takeIf_furtherNames (names : List String) {rest : List Char}
    (hrest : Follows [mark] rest) :
    ∃ mid, Reads (takeIf (.punctuator mark)) (furtherNames c names ++ rest) (· = !names.isEmpty)
      mid ∧ NamesLeft c rest names mid := by
  cases names with
  | nil =>
    exact ⟨rest, reads_takeIf_of_not (reads_nextIs_of_not_next (hrest.not_next _
      List.mem_cons_self)), rfl⟩
  | cons name names =>
    refine ⟨[' '] ++ (name.toList ++ (furtherNames c names ++ rest)), ?_, [' '], isGap_space, rfl⟩
    refine reads_takeIf_self ?_
    simpa [furtherNames] using
      (hmark (' ' :: (name.toList ++ (furtherNames c names ++ rest)))).gap isGap_space

/-- **Names with marks between them are read.** The loop goes on as long as a mark stands behind the
name. -/
theorem reads_separatedNames {separator what : String}
    (hseparator : separator.toList = [' ', c, ' ']) {names : List String}
    (h : ∀ name ∈ names, IsName name) (hne : names ≠ []) {gap rest : List Char} (hgap : IsGap gap)
    (hrest : Follows [mark] rest) :
    Reads (separatedNames mark what)
      (gap ++ ((String.intercalate separator names).toList ++ rest)) (· = names) rest := by
  obtain ⟨first, others, rfl⟩ := List.exists_cons_of_ne_nil hne
  have hbegins {gap : List Char} (hgap : IsGap gap) {name : String} (hname : IsName name)
      (names : List String) :=
    (begins_name hname (delimited_furtherNames c names hrest.delimited)).gap hgap
  have hfirst := hbegins hgap (h first List.mem_cons_self) others
  rw [toList_intercalate_names hseparator, List.append_assoc]
  refine (reads_takeIf_of_not (reads_nextIs_ne hfirst.next
    (ne_punctuator_of_name (name?_nameKind first) mark))).bind fun _ _ => ?_
  -- The flag in the state says whether a mark stood behind the last name, so whether any is left.
  refine @reads_loop _ _ _ _ String _ _ _
    (fun left state cs => ∃ done, state = (done, !left.isEmpty) ∧ done ++ left = first :: others ∧
      NamesLeft c rest left cs)
    _ _ ?_ ?_ (first :: others) _ _ ⟨[], rfl, rfl, gap, hgap, rfl⟩
  · rintro _ _ ⟨done, rfl, hall, rfl⟩
    exact reads_pure ⟨done, rfl, by simpa using hall⟩
  · rintro name left _ _ ⟨done, rfl, hall, gap, hgap, rfl⟩
    have hname : IsName name := h name (hall ▸ by simp)
    obtain ⟨mid, hmore, hleft⟩ := reads_takeIf_furtherNames hmark left hrest
    refine ⟨mid, Reads.mono (reads_round (· = (done ++ [name], !left.isEmpty)) done _
      (reads_pure rfl) ((reads_name (hbegins hgap hname left) (name?_nameKind name)).bind ?_)) ?_⟩
    · rintro ⟨_, span⟩ rfl
      exact hmore.bind_eq (reads_pure rfl)
    · rintro _ ⟨_, rfl, rfl⟩
      exact ⟨_, rfl, done ++ [name], rfl, by simpa using hall, hleft⟩

end

/-- The interfaces of a type are read back, each of which it names once. -/
theorem reads_optionalInterfaces {names : List String} (h : ∀ name ∈ names, IsName name)
    (hnodup : names.Nodup) {rest : List Char} (hrest : Follows [.ampersand] rest) {kind : TokenKind}
    (hk : Next rest kind) (hne : kind ≠ .keyword .implements) :
    Reads optionalInterfaces ((Printing.interfaces names).toList ++ rest) (· = names) rest := by
  by_cases hempty : names = []
  · subst hempty
    exact (reads_takeIf_of_not (reads_nextIs_ne hk hne)).bind_eq (reads_pure rfl)
  · have hbegins : Begins ((Printing.interfaces names).toList ++ rest) (.keyword .implements)
        ([' '] ++ ((String.intercalate " & " names).toList ++ rest)) := by
      simpa [Printing.interfaces, hempty, Keyword.text] using
        (begins_keyword .implements (delimited_cons rfl _)).gap isGap_space
    refine (reads_takeIf_self hbegins).bind_eq ?_
    refine (reads_separatedNames (fun _ => begins_mark rfl _) (c := '&') rfl h hempty isGap_space
      hrest).bind_eq (reads_pure ?_)
    exact uniteNames_of_nodup hnodup

/-- Union members that are there start with an equals sign. -/
theorem begins_unionMembers {names : List String} (hne : names ≠ []) (rest : List Char) :
    Begins ((Printing.unionMembers names).toList ++ rest) (.punctuator .equals)
      ([' '] ++ ((String.intercalate " | " names).toList ++ rest)) := by
  simpa [Printing.unionMembers, hne] using (begins_mark (c := '=') rfl _).gap isGap_space

/-- The members of a union are read back. -/
theorem reads_optionalUnionMembers {names : List String} (h : ∀ name ∈ names, IsName name)
    {rest : List Char} (hrest : Follows [.pipe, .equals] rest) :
    Reads optionalUnionMembers ((Printing.unionMembers names).toList ++ rest) (· = names) rest := by
  by_cases hempty : names = []
  · subst hempty
    exact (reads_takeIf_of_not (reads_nextIs_of_not_next (hrest.not_next .equals
      (by simp)))).bind_eq (reads_pure rfl)
  · refine (reads_takeIf_self (begins_unionMembers hempty rest)).bind_eq ?_
    exact reads_separatedNames (fun _ => begins_mark rfl _) (c := '|') rfl h hempty isGap_space
      (hrest.mono (by simp))

theorem follows_unionMembers {marks : List Punctuator} (hmarks : .equals ∉ marks)
    (names : List String) {rest : List Char} (hrest : Follows marks rest) :
    Follows marks ((Printing.unionMembers names).toList ++ rest) := by
  by_cases hempty : names = []
  · subst hempty
    exact hrest
  · refine (begins_unionMembers hempty rest).next.follows ?_ fun mark hm he => hmarks ?_
    · simpa [Printing.unionMembers, hempty] using delimited_cons rfl _
    · cases he
      exact hm

theorem delimited_interfaces (names : List String) {rest : List Char} (hrest : Delimited rest) :
    Delimited ((Printing.interfaces names).toList ++ rest) := by
  by_cases hempty : names = []
  · subst hempty
    exact hrest
  · simpa [Printing.interfaces, hempty] using delimited_cons rfl _

/-! ## Scalars and unions -/

section Behind

variable (hunit : IsIndent unit) {rest cs : List Char} {texts : List String}
  (hcs : Upcoming rest texts cs)
include hcs

/-- A definition that ends in front of the line break leaves the feed ready for what comes next. -/
theorem Reads.ready {α : Type} {p : Parser α} {text : List Char} {good : α → Prop}
    (h : Reads p text good ('\n' :: cs)) :
    Leads p (fun feed => feed.At text) fun a feed => good a ∧ feed.Ready texts rest :=
  Leads.mono h fun _ _ hfeed => ⟨hfeed.1, (hcs.gap isGap_line_feed).ready_of_at hfeed.2⟩

include hunit

/-- What is printed behind the keyword of a scalar. -/
def scalarRest (unit : String) (definition : ScalarDefinition) : List Char :=
  ' ' :: (definition.name.toList ++ ((Printing.directives unit 0 definition.directives).toList ++
    (Printing.trailingComment definition.comments).toList))

theorem leads_scalarTail {definition : ScalarDefinition} (h : definition.WellFormed) :
    Leads (scalarTail (definition.descriptions.take 1))
      (fun feed => feed.At (scalarRest unit definition ++ '\n' :: cs))
      fun found feed => withoutSpans found = withoutSpans definition.canonical ∧
        feed.Ready texts rest := by
  have hcomment := follows_trailingComment h.comments hcs.endsLine
  have hname := (begins_name h.name (delimited_directives unit 0 definition.directives
    hcomment.delimited)).gap isGap_space
  simp only [scalarRest, List.cons_append, List.append_assoc]
  refine Reads.ready hcs ((reads_name hname (name?_nameKind _)).bind ?_)
  rintro ⟨_, span⟩ rfl
  refine (reads_directives hunit 0 h.directives (hcomment.mono (by decide))).bind_eq ?_
  exact (reads_trailingComment_of_endsLine h.comments hcs.endsLine).bind_eq (reads_pure rfl)

/-- What is printed behind the keyword of a union. -/
def unionRest (unit : String) (definition : UnionDefinition) : List Char :=
  ' ' :: (definition.name.toList ++ ((Printing.directives unit 0 definition.directives).toList ++
    ((Printing.unionMembers definition.members).toList ++
      (Printing.trailingComment definition.comments).toList)))

theorem leads_unionTail {definition : UnionDefinition} (h : definition.WellFormed) :
    Leads (unionTail (definition.descriptions.take 1))
      (fun feed => feed.At (unionRest unit definition ++ '\n' :: cs))
      fun found feed => withoutSpans found = withoutSpans definition.canonical ∧
        feed.Ready texts rest := by
  have hcomment := follows_trailingComment h.comments hcs.endsLine
  have hmembers : Follows [.atSign, .parenOpen]
      ((Printing.unionMembers definition.members).toList ++
        ((Printing.trailingComment definition.comments).toList ++ '\n' :: cs)) :=
    follows_unionMembers (by simp) _ (hcomment.mono (by decide))
  have hname := (begins_name h.name (delimited_directives unit 0 definition.directives
    hmembers.delimited)).gap isGap_space
  simp only [unionRest, List.cons_append, List.append_assoc]
  refine Reads.ready hcs ((reads_name hname (name?_nameKind _)).bind ?_)
  rintro ⟨_, span⟩ rfl
  refine (reads_directives hunit 0 h.directives hmembers).bind_eq ?_
  refine (reads_optionalUnionMembers h.members (hcomment.mono (by decide))).bind_eq ?_
  exact (reads_trailingComment_of_endsLine h.comments hcs.endsLine).bind_eq (reads_pure rfl)

/-! ## Enums, interfaces and inputs -/

omit hunit in
theorem follows_body (lines : List String) {comments : List String}
    (hc : ∀ text ∈ comments, IsComment text) :
    Follows [.atSign, .parenOpen, .ampersand] ((Printing.members lines).toList ++
      ((Printing.trailingComment comments).toList ++ '\n' :: cs)) :=
  follows_members (by simp) _ ((follows_trailingComment hc hcs.endsLine).mono (by decide))

/-- **Directives and a body are read**, with the comments around the members. -/
theorem leads_directivesBody {α β δ ε : Type} {what : String}
    {member : List String → String × Span → Parser α}
    (build : List Directive → List String → List α → List String → β) {line : ε → String}
    {view : α → δ} {expected : ε → δ} {ds : List Directive} (hds : ∀ d ∈ ds, d.WellFormed)
    {entries : List ε}
    (hmembers : ∀ {rest : List Char}, ¬Next rest (.punctuator .braceOpen) →
      Reads (optionalMembers what member) ((Printing.members (entries.map line)).toList ++ rest)
        (fun found => found.map view = entries.map expected) rest)
    {comments : List String} (hc : ∀ text ∈ comments, IsComment text) :
    Leads
      (do
        let directives ← directives
        let inner ← headerComments
        let found ← optionalMembers what member
        let trailing ← trailingComment
        return build directives inner found trailing)
      (fun feed => feed.At ((Printing.directives unit 0 ds).toList ++
        ((Printing.members (entries.map line)).toList ++
          ((Printing.trailingComment comments).toList ++ '\n' :: cs))))
      fun built feed => (∃ inner found trailing, inner ++ trailing = comments.take 1 ∧
        found.map view = entries.map expected ∧
        built = build (canonicalDirectives ds) inner found trailing) ∧ feed.Ready texts rest := by
  have hbody := follows_body hcs (entries.map line) hc
  refine (reads_directives hunit 0 hds (hbody.mono (by simp))).leads_eq ?_
  exact leads_body (build (canonicalDirectives ds)) hmembers hc hcs

/-- What is printed behind the keyword of an enum. -/
def enumRest (unit : String) (definition : EnumDefinition) : List Char :=
  ' ' :: (definition.name.toList ++ ((Printing.directives unit 0 definition.directives).toList ++
    ((Printing.members (definition.values.map (Printing.enumValue unit))).toList ++
      (Printing.trailingComment definition.comments).toList)))

theorem leads_enumTail {definition : EnumDefinition} (h : definition.WellFormed) :
    Leads (enumTail (definition.descriptions.take 1))
      (fun feed => feed.At (enumRest unit definition ++ '\n' :: cs))
      fun found feed => withoutSpans found = withoutSpans definition.canonical ∧
        feed.Ready texts rest := by
  have hbody := follows_body hcs (definition.values.map (Printing.enumValue unit)) h.comments
  have hname := (begins_name h.name (delimited_directives unit 0 definition.directives
    hbody.delimited)).gap isGap_space
  simp only [enumRest, List.cons_append, List.append_assoc]
  refine (reads_name hname (name?_nameKind _)).leads ?_
  rintro ⟨_, span⟩ rfl
  refine Leads.mono (leads_directivesBody hunit hcs _ h.directives
    (reads_optionalEnumValues hunit h.values) h.comments) ?_
  rintro _ feed ⟨⟨inner, values, trailing, hcomments, hvalues, rfl⟩, hready⟩
  rw [List.map_id] at hvalues
  exact ⟨by rw [hcomments, hvalues]; rfl, hready⟩

/-- What is printed behind the keyword of an interface or input. -/
def fieldsDefinitionRest (unit : String) (definition : FieldsDefinition) : List Char :=
  ' ' :: (definition.name.toList ++ ((Printing.directives unit 0 definition.directives).toList ++
    ((Printing.members (definition.fields.map (Printing.field unit))).toList ++
      (Printing.trailingComment definition.comments).toList)))

theorem leads_fieldsDefinitionTail (what : String) {definition : FieldsDefinition}
    (h : definition.WellFormed) :
    Leads (fieldsDefinitionTail what (definition.descriptions.take 1))
      (fun feed => feed.At (fieldsDefinitionRest unit definition ++ '\n' :: cs))
      fun found feed => withoutSpans found = withoutSpans definition.canonical ∧
        feed.Ready texts rest := by
  have hbody := follows_body hcs (definition.fields.map (Printing.field unit)) h.comments
  have hname := (begins_name h.name (delimited_directives unit 0 definition.directives
    hbody.delimited)).gap isGap_space
  simp only [fieldsDefinitionRest, List.cons_append, List.append_assoc]
  refine (reads_name hname (name?_nameKind _)).leads ?_
  rintro ⟨_, span⟩ rfl
  refine Leads.mono (leads_directivesBody hunit hcs _ h.directives
    (reads_optionalFields hunit h.fields) h.comments) ?_
  rintro _ feed ⟨⟨inner, fields, trailing, hcomments, hfields, rfl⟩, hready⟩
  refine ⟨?_, hready⟩
  simp only [withoutSpans, FieldsDefinition.canonical, List.map_map, Function.comp_def] at hfields ⊢
  rw [hcomments, hfields]

/-! ## Types -/

omit hunit in
/-- Behind the name of a type without interfaces stands no keyword that would start them. -/
theorem next_behindInterfaces (unit : String) (ds : List Directive) (lines : List String)
    {comments : List String} (hc : ∀ text ∈ comments, IsComment text) :
    ∃ kind, Next ((Printing.directives unit 0 ds).toList ++ ((Printing.members lines).toList ++
      ((Printing.trailingComment comments).toList ++ '\n' :: cs))) kind ∧
      kind ≠ .keyword .implements := by
  have hcomment : ∃ kind, Next ((Printing.trailingComment comments).toList ++ '\n' :: cs) kind ∧
      kind ≠ .keyword .implements := by
    cases comments with
    | nil =>
      obtain ⟨kind, hk, hstart | ⟨text, htext⟩⟩ := (hcs.gap isGap_line_feed).next
      · exact ⟨kind, hk, hstart.ne_implements⟩
      · exact ⟨kind, hk, by rintro rfl; cases htext⟩
    | cons text others =>
      exact ⟨_, (begins_trailingComment (hc text List.mem_cons_self) others cs).next, by simp⟩
  have hmembers : ∃ kind, Next ((Printing.members lines).toList ++
      ((Printing.trailingComment comments).toList ++ '\n' :: cs)) kind ∧
      kind ≠ .keyword .implements := by
    by_cases hne : lines = []
    · subst hne
      exact hcomment
    · obtain ⟨_, hbegins⟩ := begins_members hne
        ((Printing.trailingComment comments).toList ++ '\n' :: cs)
      exact ⟨_, hbegins.next, by simp⟩
  rw [toList_directives]
  cases Printing.sortedDirectives ds with
  | nil => exact hmembers
  | cons d ds =>
    simp only [layout, List.map_cons, List.flatMap_cons, List.nil_append, List.append_assoc]
    exact ⟨_, (begins_directive unit 0 d _).next, by simp⟩

/-- What is printed behind the keyword of a type. -/
def typeRest (unit : String) (definition : TypeDefinition) : List Char :=
  ' ' :: (definition.name.toList ++ ((Printing.interfaces definition.interfaces).toList ++
    ((Printing.directives unit 0 definition.directives).toList ++
      ((Printing.members (definition.fields.map (Printing.field unit))).toList ++
        (Printing.trailingComment definition.comments).toList))))

theorem leads_typeTail {definition : TypeDefinition} (h : definition.WellFormed) :
    Leads (typeTail definition.isExtension (definition.descriptions.take 1))
      (fun feed => feed.At (typeRest unit definition ++ '\n' :: cs))
      fun found feed => withoutSpans found = withoutSpans definition.canonical ∧
        feed.Ready texts rest := by
  have hbody := follows_body hcs (definition.fields.map (Printing.field unit)) h.comments
  have hdirectives : Follows [.ampersand]
      ((Printing.directives unit 0 definition.directives).toList ++
        ((Printing.members (definition.fields.map (Printing.field unit))).toList ++
          ((Printing.trailingComment definition.comments).toList ++ '\n' :: cs))) :=
    follows_directives (by simp) unit 0 _ (hbody.mono (by simp))
  have hname := (begins_name h.name (delimited_interfaces definition.interfaces
    hdirectives.delimited)).gap isGap_space
  obtain ⟨kind, hk, hne⟩ := next_behindInterfaces hcs unit definition.directives
    (definition.fields.map (Printing.field unit)) h.comments
  simp only [typeRest, List.cons_append, List.append_assoc]
  refine (reads_name hname (name?_nameKind _)).leads ?_
  rintro ⟨_, span⟩ rfl
  refine (reads_optionalInterfaces h.interfaces h.interfaces_nodup hdirectives hk hne).leads_eq ?_
  refine Leads.mono (leads_directivesBody hunit hcs _ h.directives
    (reads_optionalFields hunit h.fields) h.comments) ?_
  rintro _ feed ⟨⟨inner, fields, trailing, hcomments, hfields, rfl⟩, hready⟩
  refine ⟨?_, hready⟩
  simp only [withoutSpans, TypeDefinition.canonical, List.map_map, Function.comp_def] at hfields ⊢
  rw [hcomments, hfields]

/-! ## Directive definitions -/

/-- What is printed behind the keyword of a directive definition. -/
def directiveDefinitionRest (unit : String) (definition : DirectiveDefinition) : List Char :=
  ' ' :: '@' :: (definition.name.toList ++
    ((Printing.arguments unit 0 definition.arguments).toList ++
      ((if definition.repeatable then " repeatable" else "").toList ++ (" on ".toList ++
        ((String.intercalate " | " definition.locations).toList ++
          (Printing.trailingComment definition.comments).toList)))))

omit hcs hunit in
/-- The word `on` of a directive definition, perhaps behind the word `repeatable`. -/
theorem reads_repeatable (repeatable : Bool) (rest : List Char) :
    let behind := " on ".toList ++ rest
    Reads (takeIf (.keyword .repeatable))
      ((if repeatable then " repeatable" else "").toList ++ behind) (· = repeatable) behind ∧
    Begins behind (.keyword .on) ([' '] ++ rest) ∧
    Follows [.parenOpen] ((if repeatable then " repeatable" else "").toList ++ behind) := by
  have hspace (cs : List Char) : Delimited (' ' :: cs) := delimited_cons rfl cs
  have hon : Begins (" on ".toList ++ rest) (.keyword .on) ([' '] ++ rest) := by
    simpa [Keyword.text] using (begins_keyword .on (hspace rest)).gap isGap_space
  cases repeatable with
  | false =>
    exact ⟨reads_takeIf_of_not (reads_nextIs_ne hon.next (by simp)), hon,
      hon.next.follows (hspace _) (by simp)⟩
  | true =>
    have hword : Begins (" repeatable".toList ++ (" on ".toList ++ rest)) (.keyword .repeatable)
        (" on ".toList ++ rest) := by
      simpa [Keyword.text] using (begins_keyword .repeatable (hspace _)).gap isGap_space
    exact ⟨reads_takeIf_self hword, hon, hword.next.follows (hspace _) (by simp)⟩

theorem leads_directiveDefinitionTail {definition : DirectiveDefinition}
    (h : definition.WellFormed) :
    Leads (directiveDefinitionTail (definition.descriptions.take 1))
      (fun feed => feed.At (directiveDefinitionRest unit definition ++ '\n' :: cs))
      fun found feed => withoutSpans found = withoutSpans definition.canonical ∧
        feed.Ready texts rest := by
  have hcomment := follows_trailingComment h.comments hcs.endsLine
  have hat (cs : List Char) : Begins (' ' :: '@' :: cs) (.punctuator .atSign) cs :=
    (begins_mark (c := '@') rfl cs).gap isGap_space
  obtain ⟨hrepeatable, hon, hafter⟩ := reads_repeatable definition.repeatable
    ((String.intercalate " | " definition.locations).toList ++
      ((Printing.trailingComment definition.comments).toList ++ '\n' :: cs))
  have hname := begins_name h.name (delimited_arguments hunit 0 h.arguments hafter.delimited)
  simp only [directiveDefinitionRest, List.cons_append, List.append_assoc]
  refine Reads.ready hcs ((reads_mark (hat _)).bind fun _ _ => ?_)
  refine (reads_name hname (name?_nameKind _)).bind ?_
  rintro ⟨_, span⟩ rfl
  refine (reads_optionalArguments hunit 0 h.arguments (hafter.not_next _
    List.mem_cons_self)).bind_eq ?_
  refine hrepeatable.bind_eq ((reads_keyword hon).bind fun _ _ => ?_)
  refine (reads_separatedNames (fun _ => begins_mark rfl _) (c := '|') rfl h.locations
    h.locations_ne_nil isGap_space (hcomment.mono (by decide))).bind_eq ?_
  exact (reads_trailingComment_of_endsLine h.comments hcs.endsLine).bind_eq (reads_pure rfl)

end Behind

/-! ## Schema blocks -/

/-- The operations that a block names a type for. -/
def namedOperations (block : SchemaBlock) : List RootOperation :=
  RootOperation.all.filter fun operation => (block.rootType? operation).isSome

/-- What is left of a block if it names types for these operations only. -/
def withOperations (block : SchemaBlock) (operations : List RootOperation) : SchemaBlock :=
  { block with
    query := if .query ∈ operations then block.query else none
    mutation := if .mutation ∈ operations then block.mutation else none
    subscription := if .subscription ∈ operations then block.subscription else none }

theorem rootType?_withOperations (block : SchemaBlock) (operations : List RootOperation)
    (operation : RootOperation) : (withOperations block operations).rootType? operation =
      if operation ∈ operations then block.rootType? operation else none := by
  cases operation <;> rfl

theorem setRootType_withOperations {block : SchemaBlock} {operation : RootOperation} {type : String}
    (h : block.rootType? operation = some type) (operations : List RootOperation) :
    (withOperations block operations).setRootType type operation =
      withOperations block (operations ++ [operation]) := by
  cases operation <;> simp [withOperations, SchemaBlock.setRootType, ← h, SchemaBlock.rootType?]

theorem withOperations_namedOperations (block : SchemaBlock) :
    withOperations block (namedOperations block) = block := by
  obtain ⟨query, mutation, subscription, descriptions, span⟩ := block
  cases query <;> cases mutation <;> cases subscription <;> rfl

theorem nodup_namedOperations (block : SchemaBlock) : (namedOperations block).Nodup :=
  List.Nodup.sublist List.filter_sublist (by decide)

theorem ofKey?_key (operation : RootOperation) :
    RootOperation.ofKey? operation.key = some operation := by cases operation <;> decide

theorem isName_key (operation : RootOperation) : IsName operation.key := by
  cases operation <;> exact ⟨_, _, rfl, rfl, List.all_eq_true.1 rfl⟩

/-- The entry for an operation, from its key on. -/
def rootEntry (block : SchemaBlock) (operation : RootOperation) : List Char :=
  operation.key.toList ++ (':' :: ' ' :: ((block.rootType? operation).getD "").toList)

/-- What is printed behind the keyword of a schema block. -/
def schemaBlockRest (unit : String) (block : SchemaBlock) : List Char :=
  ' ' :: '{' :: '\n' ::
    ((String.join (RootOperation.all.map (Printing.schemaEntry unit block))).toList ++ ['}'])

/-- The entries of a printed block are laid out with a line feed before each. -/
theorem schemaBlockRest_eq (unit : String) (block : SchemaBlock) :
    schemaBlockRest unit block = ' ' :: '{' ::
      (layout (rootEntry block) ((namedOperations block).map (memberLead unit 1 [], ·)) ++
        ['\n', '}']) := by
  have hentries : (String.join (RootOperation.all.map (Printing.schemaEntry unit block))).toList =
      (namedOperations block).flatMap fun operation =>
        (Printing.indentation unit 1).toList ++ rootEntry block operation ++ ['\n'] := by
    obtain ⟨query, mutation, subscription, descriptions, span⟩ := block
    cases query <;> cases mutation <;> cases subscription <;>
      simp [RootOperation.all, namedOperations, Printing.schemaEntry, SchemaBlock.rootType?,
        rootEntry]
  have hlines := @cons_line_feed_flatMap RootOperation
    (fun operation => (Printing.indentation unit 1).toList ++ rootEntry block operation ++ ['\n'])
    (fun operation => memberLead unit 1 [] ++ rootEntry block operation)
    (fun operation => by simp [memberLead, Printing.description]) (namedOperations block)
  rw [schemaBlockRest, hentries, ← List.cons_append, hlines]
  simp [layout, List.flatMap_map]

theorem addDescriptions_nil (block : SchemaBlock) : addDescriptions block [] = block := by
  rw [addDescriptions, List.append_nil]

theorem reads_schemaEntryTail {block : SchemaBlock} (h : block.WellFormed)
    {operation : RootOperation} (hmem : operation ∈ namedOperations block)
    {done : List RootOperation} (hnew : operation ∉ done) (span : Span) {behind : List Char}
    (hbehind : Delimited behind) :
    Reads (schemaEntryTail (withOperations block done) (operation.key, span))
      (':' :: ([' '] ++ (((block.rootType? operation).getD "").toList ++ behind)))
      (· = withOperations block (done ++ [operation])) behind := by
  obtain ⟨type, htype⟩ : ∃ type, block.rootType? operation = some type :=
    Option.isSome_iff_exists.1 (List.mem_filter.1 hmem).2
  have hname : IsName type := h.rootTypes operation type htype
  have hnext := ((begins_name hname hbehind).gap isGap_space).next
  have hcomment : (Scan.nameKind type).comment? = none := by
    unfold Scan.nameKind
    split <;> rfl
  have hfree : (withOperations block done).rootType? operation = none := by
    rw [rootType?_withOperations, if_neg hnew]
  rw [htype, Option.getD_some]
  simp only [schemaEntryTail, ofKey?_key]
  refine (reads_mark (begins_mark rfl _)).bind fun _ _ => ?_
  refine (reads_innerComments_nil hnext hcomment).bind_eq ?_
  refine (reads_name_of_isName hname isGap_space hbehind).bind_eq ?_
  simp only [addDescriptions_nil, hfree, Option.isSome_none, Bool.false_eq_true, if_false]
  exact reads_pure (setRootType_withOperations htype done)

/-- **A printed schema block is read back.** -/
theorem reads_schemaBlockTail (hunit : IsIndent unit) {block : SchemaBlock} (h : block.WellFormed)
    (rest : List Char) :
    Reads (schemaBlockTail block.descriptions block.span) (schemaBlockRest unit block ++ rest)
      (· = block) rest := by
  have hbegins (operation : RootOperation) {gap : List Char} (hgap : IsGap gap)
      (behind : List Char) : Begins (gap ++ (rootEntry block operation ++ behind))
        (Scan.nameKind operation.key)
        (':' :: ([' '] ++ (((block.rootType? operation).getD "").toList ++ behind))) := by
    simpa [rootEntry] using
      (begins_name (isName_key operation) (delimited_cons (c := ':') rfl _)).gap hgap
  rw [schemaBlockRest_eq]
  simp only [List.cons_append, List.append_assoc, List.nil_append]
  refine (reads_innerComments_nil (begins_openingBrace _).next rfl).bind_eq ?_
  refine (reads_mark (begins_openingBrace _)).bind fun opening _ => ?_
  refine Reads.bind_eq ?_ ((reads_mark (begins_closingBrace rest)).bind fun _ _ => reads_pure rfl)
  have hstart : (⟨none, none, none, block.descriptions ++ [], block.span⟩ : SchemaBlock) =
      withOperations block [] := by simp [withOperations]
  rw [hstart]
  refine Reads.mono (reads_entries (rootEntry block) (withOperations block) (withOperations block)
    id id EndsLine (fun done => ?_) ?_ (endsLine_closingBrace rest) ?_) ?_
  · have hstop := reads_turn_closingBrace (addDescriptions (withOperations block done))
      (addDescriptions (withOperations block done)) ["`query`", "`mutation`", "`subscription`"]
      opening rest
    rw [addDescriptions_nil] at hstop
    exact hstop
  · rintro ⟨lead, operation⟩ hentry done behind hbehind hprefix
    obtain ⟨hmem, rfl⟩ : operation ∈ namedOperations block ∧ lead = memberLead unit 1 [] := by
      simpa [eq_comm] using hentry
    have hprefix : done ++ [operation] <+: namedOperations block := by
      simpa [Function.comp_def] using hprefix
    have hnew : operation ∉ done := fun hdone =>
      (List.nodup_append.1 ((nodup_namedOperations block).sublist hprefix.sublist)).2.2 _ hdone _
        List.mem_cons_self rfl
    have hkind := name?_nameKind operation.key
    obtain ⟨gap, hgap, hturn⟩ := reads_turn_member (addDescriptions (withOperations block done))
      (addDescriptions (withOperations block done)) ["`query`", "`mutation`", "`subscription`"]
      opening (introduces_memberLead hunit 1 (List.forall_mem_nil _))
      (hbegins operation isGap_nil behind).next hkind
    rw [List.take_nil, addDescriptions_nil] at hturn
    refine Reads.mono (reads_round (· = withOperations block (done ++ [operation]))
      (withOperations block done) _ hturn ?_) ?_
    · refine (reads_name (hbegins operation hgap behind) hkind).bind ?_
      rintro ⟨_, span⟩ rfl
      exact reads_schemaEntryTail h hmem hnew span hbehind.follows.delimited
    · rintro _ ⟨_, rfl, rfl⟩
      exact ⟨operation, rfl, rfl⟩
  · rintro ⟨lead, operation⟩ hentry behind -
    obtain ⟨-, rfl⟩ : operation ∈ namedOperations block ∧ lead = memberLead unit 1 [] := by
      simpa [eq_comm] using List.mem_of_mem_tail hentry
    exact endsLine_memberLead hunit 1 (List.forall_mem_nil _)
      (hbegins operation isGap_nil behind).next (name?_nameKind operation.key)
  · rintro _ ⟨operations, rfl, hoperations⟩
    have hall : operations = namedOperations block := by
      simpa [Function.comp_def] using hoperations
    rw [hall, withOperations_namedOperations]

/-- A schema block is read back with its first description. -/
theorem leads_schemaBlockTail (hunit : IsIndent unit) {block : SchemaBlock} (h : block.WellFormed)
    (span : Span) {rest cs : List Char} {texts : List String} (hcs : Upcoming rest texts cs) :
    Leads (schemaBlockTail (block.descriptions.take 1) span)
      (fun feed => feed.At (schemaBlockRest unit block ++ '\n' :: cs))
      fun found feed => withoutSpans found = withoutSpans block.canonical ∧
        feed.Ready texts rest := by
  have hcanonical : ({ block.canonical with span } : SchemaBlock).WellFormed :=
    ⟨h.rootTypes, fun text htext => h.descriptions text (List.mem_of_mem_take htext)⟩
  refine Reads.ready hcs (Reads.mono (reads_schemaBlockTail hunit hcanonical _) ?_)
  rintro _ rfl
  rfl

end SchemaMerge.Parser
