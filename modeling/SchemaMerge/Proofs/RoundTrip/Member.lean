import SchemaMerge.Proofs.RoundTrip.Value
import SchemaMerge.Reading.Member

/-!
# Reading printed members

Arguments, fields and enum values are printed with their first description before them. `Introduces`
says that what is printed before a member is read as its descriptions. A member on a line of its own
is followed by `EndsLine`: a line break and then a token that continues nothing.
-/

namespace SchemaMerge.Parser

/-! ## Ends of lines -/

/-- The marks that would continue what stands before them. -/
def continuingMarks : List Punctuator :=
  [.comma, .bang, .equals, .atSign, .parenOpen, .pipe, .ampersand, .braceOpen]

/-- The text goes on in the next line, and not with a mark that continues anything. -/
def EndsLine (cs : List Char) : Prop :=
  ∃ rest kind, cs = '\n' :: rest ∧ Next rest kind ∧
    ∀ mark ∈ continuingMarks, kind ≠ .punctuator mark

theorem endsLine_of_next {rest : List Char} {kind : TokenKind} (h : Next rest kind)
    (hk : ∀ mark ∈ continuingMarks, kind ≠ .punctuator mark) : EndsLine ('\n' :: rest) :=
  ⟨rest, kind, rfl, h, hk⟩

theorem EndsLine.follows {cs : List Char} (h : EndsLine cs) : Follows continuingMarks cs := by
  obtain ⟨rest, kind, rfl, hnext, hk⟩ := h
  exact Next.follows ((next_gap_append isGap_line_feed).2 hnext) (delimited_cons rfl rest) hk

/-- The comment of a node is read at the end of its line. -/
theorem reads_trailingComment_of_endsLine {comments : List String}
    (hc : ∀ text ∈ comments, IsComment text) {behind : List Char} (h : EndsLine behind) :
    Reads trailingComment ((Printing.trailingComment comments).toList ++ behind)
      (· = comments.take 1) behind := by
  obtain ⟨rest, kind, rfl, hnext, hk⟩ := h
  exact reads_trailingComment hc hnext (hk .comma (by decide))

theorem follows_trailingComment {comments : List String} (hc : ∀ text ∈ comments, IsComment text)
    {behind : List Char} (h : EndsLine behind) :
    Follows continuingMarks ((Printing.trailingComment comments).toList ++ behind) := by
  cases comments with
  | nil => exact h.follows
  | cons text others =>
    obtain ⟨rest, kind, rfl, -, -⟩ := h
    have hcomment := begins_trailingComment (hc text List.mem_cons_self) others rest
    refine hcomment.next.follows ?_ (by simp)
    simpa [Printing.trailingComment] using delimited_cons rfl _

/-! ## What stands before a member -/

/-- The text before a member is read as these descriptions, commas aside. -/
def Introduces (lead : List Char) (texts : List String) : Prop :=
  ∀ cs kind name, Next cs kind → kind.name? = some name → ∃ mid gap, IsGap gap ∧
    Reads skipCommas (lead ++ cs) (fun _ => True) mid ∧
    Reads descriptions mid (· = texts) (gap ++ cs)

/-- A gap or a separator introduces a member without descriptions. -/
theorem introduces_nil {lead : List Char} (h : IsGap lead ∨ IsSeparator lead) :
    Introduces lead [] := by
  intro cs kind name hk hname
  obtain ⟨gap, hgap, hskip⟩ := reads_skipCommas_lead h hk (ne_punctuator_of_name hname _)
  exact ⟨_, gap, hgap, hskip, reads_descriptions_nil ((next_gap_append hgap).2 hk)
    (description?_of_name hname)⟩

/-- The line break, description and indentation before a member on a line of its own. -/
def memberLead (unit : String) (depth : Nat) (descriptions : List String) : List Char :=
  '\n' :: (Printing.description unit depth descriptions).toList ++
    (Printing.indentation unit depth).toList

/-- The first token of a line with a member is its description or its name. -/
theorem next_memberLead {unit : String} (hunit : IsIndent unit) (depth : Nat)
    {descriptions : List String} (hd : ∀ text ∈ descriptions, IsDescription text) {cs : List Char}
    {kind : TokenKind} {name : String} (hk : Next cs kind) (hname : kind.name? = some name) :
    ∃ first rest, memberLead unit depth descriptions ++ cs = '\n' :: rest ∧ Next rest first ∧
      ∀ mark, first ≠ .punctuator mark := by
  have hindent := isGap_indentation hunit depth
  cases descriptions with
  | nil =>
    exact ⟨kind, _, rfl, by simpa [Printing.description] using (next_gap_append hindent).2 hk,
      ne_punctuator_of_name hname⟩
  | cons text others =>
    obtain ⟨textKind, hspells, htext⟩ := hd text List.mem_cons_self
    have hbegins := begins_description hspells htext hindent
      ((Printing.indentation unit depth).toList ++ cs)
    refine ⟨textKind, _, rfl, by simpa [Printing.description] using hbegins.next, ?_⟩
    rintro mark rfl
    cases htext

theorem introduces_memberLead {unit : String} (hunit : IsIndent unit) (depth : Nat)
    {descriptions : List String} (hd : ∀ text ∈ descriptions, IsDescription text) :
    Introduces (memberLead unit depth descriptions) (descriptions.take 1) := by
  intro cs kind name hk hname
  obtain ⟨first, rest, hcs, hfirst, hne⟩ := next_memberLead hunit depth hd hk hname
  obtain ⟨gap, hgap, hread⟩ := reads_description hunit depth hd isGap_line_feed hk
    (description?_of_name hname)
  have hnext : Next (memberLead unit depth descriptions ++ cs) first := by
    rw [hcs]
    exact (next_gap_append isGap_line_feed).2 hfirst
  exact ⟨_, gap, hgap, reads_skipCommas_nil hnext (hne _), hread⟩

/-- A member on a line of its own ends the line before it. -/
theorem endsLine_memberLead {unit : String} (hunit : IsIndent unit) (depth : Nat)
    {descriptions : List String} (hd : ∀ text ∈ descriptions, IsDescription text) {cs : List Char}
    {kind : TokenKind} {name : String} (hk : Next cs kind) (hname : kind.name? = some name) :
    EndsLine (memberLead unit depth descriptions ++ cs) := by
  obtain ⟨first, rest, hcs, hfirst, hne⟩ := next_memberLead hunit depth hd hk hname
  exact ⟨rest, first, hcs, hfirst, fun mark _ => hne mark⟩

/-! ## Arguments -/

/-- What is printed behind the name of an argument. -/
abbrev argumentRest (unit : String) (depth : Nat) (argument : Argument) : List Char :=
  typed unit depth argument.type argument.default argument.directives

theorem toList_argument (unit : String) (depth : Nat) (argument : Argument) :
    (Printing.argument unit depth argument).toList =
      argument.name.toList ++ argumentRest unit depth argument := by
  simp [Printing.argument, typed]

theorem begins_argument (unit : String) (depth : Nat) {argument : Argument}
    (h : argument.WellFormed) {gap : List Char} (hgap : IsGap gap) (behind : List Char) :
    Begins (gap ++ ((Printing.argument unit depth argument).toList ++ behind))
      (Scan.nameKind argument.name) (argumentRest unit depth argument ++ behind) := by
  rw [toList_argument, List.append_assoc]
  exact (begins_name h.name (delimited_cons rfl _)).gap hgap

theorem reads_argumentTail {unit : String} (hunit : IsIndent unit) (depth : Nat)
    {argument : Argument} (h : argument.WellFormed) {behind : List Char}
    (hbehind : Follows typedMarks behind) :
    Reads (argumentTail (argument.descriptions.take 1) argument.name)
      (argumentRest unit depth argument ++ behind) (· = argument.canonical) behind := by
  refine reads_typed hunit depth h.type h.default h.directives hbehind (reads_pure ?_)
  simp [Argument.canonical]

/-- The text before an argument ends the argument before it. -/
def EndsArgument (lead : List Char) : Prop :=
  ∀ cs kind name, Next cs kind → kind.name? = some name → Follows typedMarks (lead ++ cs)

theorem endsArgument_separator : EndsArgument [',', ' '] := by
  intro cs kind name _ _
  have hcomma : Begins (',' :: ' ' :: cs) (.punctuator .comma) (' ' :: cs) := begins_mark rfl _
  refine hcomma.next.follows (delimited_cons rfl _) ?_
  simp [typedMarks]

theorem endsArgument_memberLead {unit : String} (hunit : IsIndent unit) (depth : Nat)
    {descriptions : List String} (hd : ∀ text ∈ descriptions, IsDescription text) :
    EndsArgument (memberLead unit depth descriptions) := fun _ _ _ hk hname =>
  (endsLine_memberLead hunit depth hd hk hname).follows.mono (by decide)

/-- Arguments laid out between their parentheses. -/
theorem toList_arguments {unit : String} (hunit : IsIndent unit) (depth : Nat)
    {arguments : List Argument} (h : ∀ a ∈ arguments, a.WellFormed) (hne : arguments ≠ []) :
    ∃ depth' entries gap, (Printing.arguments unit depth arguments).toList = '(' ::
        (layout (fun argument => (Printing.argument unit depth' argument).toList) entries ++
          (gap ++ [')'])) ∧
      entries.map Prod.snd = arguments ∧ IsGap gap ∧
      (∀ entry ∈ entries, Introduces entry.1 (entry.2.descriptions.take 1)) ∧
      ∀ entry ∈ entries.tail, EndsArgument entry.1 := by
  have hempty : arguments.isEmpty = false := by simpa using hne
  cases hwrap : Printing.wrapsArguments arguments with
  | true =>
    refine ⟨depth + 1, arguments.map fun argument =>
      (memberLead unit (depth + 1) argument.descriptions, argument), _, ?_, ?_,
      isGap_line_feed.append (isGap_indentation hunit depth), ?_, ?_⟩
    · simp only [Printing.arguments, hempty, Bool.false_eq_true, if_false, hwrap, if_true]
      exact toList_wrapped unit depth (fun argument => by simp [memberLead]) arguments
    · simp [Function.comp_def]
    · simp only [List.forall_mem_map]
      exact fun a ha => introduces_memberLead hunit _ (h a ha).descriptions
    · rw [← List.map_tail, List.forall_mem_map]
      exact fun a ha => endsArgument_memberLead hunit _ (h a (List.mem_of_mem_tail ha)).descriptions
  | false =>
    refine ⟨depth, separated [',', ' '] arguments, [], ?_, map_snd_separated _ _, isGap_nil,
      fun entry hentry => ?_, ?_⟩
    · simp only [Printing.arguments, hempty, Bool.false_eq_true, if_false, hwrap]
      exact toList_inline (Printing.argument unit depth) arguments
    · have hmem : entry.2 ∈ arguments := by
        rw [← map_snd_separated [',', ' '] arguments]
        exact List.mem_map_of_mem hentry
      have hdescriptions : entry.2.descriptions = [] := by
        simp only [Printing.wrapsArguments, Bool.or_eq_false_iff, List.any_eq_false] at hwrap
        simpa using hwrap.2 _ hmem
      rw [hdescriptions]
      exact introduces_nil (lead_of_mem_separated (.inr rfl) entry hentry)
    · intro entry hentry
      rw [fst_of_mem_tail_separated entry hentry]
      exact endsArgument_separator

/-- **Printed arguments are read back.** -/
theorem reads_optionalArguments {unit : String} (hunit : IsIndent unit) (depth : Nat)
    {arguments : List Argument} (h : ∀ a ∈ arguments, a.WellFormed) {rest : List Char}
    (hrest : ¬Next rest (.punctuator .parenOpen)) :
    Reads optionalArguments ((Printing.arguments unit depth arguments).toList ++ rest)
      (· = arguments.map Argument.canonical) rest := by
  by_cases hne : arguments = []
  · subst hne
    exact (reads_takeIf_of_not (reads_nextIs_of_not_next hrest)).bind_eq (reads_pure rfl)
  · obtain ⟨depth', entries, gap, htext, hsnd, hgap, hlead, hends⟩ :=
      toList_arguments hunit depth h hne
    rw [htext, List.cons_append, List.append_assoc, List.append_assoc, List.singleton_append]
    have hclose : Begins (gap ++ ')' :: rest) (.punctuator .parenClose) rest :=
      (begins_mark rfl rest).gap hgap
    have hafter : Follows typedMarks (gap ++ ')' :: rest) :=
      hclose.next.follows (hgap.delimited_append (delimited_cons rfl rest)) (by simp [typedMarks])
    refine (reads_takeIf_self (begins_mark rfl _)).bind_eq ?_
    refine Reads.bind_eq ?_ ((reads_mark hclose).bind fun _ _ => reads_pure rfl)
    refine Reads.mono (reads_entries _ id id id Argument.canonical (Follows typedMarks)
      (fun done => ?_) ?_ hafter ?_) ?_
    · exact reads_turn_closingParen (fun _ => done) (done, ·) hclose.next
    · intro entry hentry done behind hbehind _
      have hwell : entry.2.WellFormed := h _ (hsnd ▸ List.mem_map_of_mem hentry)
      have hname := name?_nameKind entry.2.name
      have hne := ne_punctuator_of_name hname
      obtain ⟨mid, gap, hgap, hskip, hread⟩ := hlead entry hentry _ _ _
        (begins_argument unit depth' hwell isGap_nil behind).next hname
      have hbegins := begins_argument unit depth' hwell hgap behind
      refine Reads.mono (reads_round (· = done ++ [entry.2.canonical])
        (done, entry.2.descriptions.take 1) _
        (hskip.bind fun _ _ => hread.bind_eq <|
          (reads_skipCommas_nil hbegins.next (hne _)).bind fun _ _ =>
            (reads_nextIs_ne hbegins.next (hne _)).bind_eq (reads_pure rfl)) ?_) ?_
      · refine (reads_name hbegins hname).bind ?_
        rintro ⟨_, span⟩ rfl
        exact (reads_argumentTail hunit depth' hwell hbehind).bind_eq (reads_pure rfl)
      · rintro _ ⟨next, rfl, rfl⟩
        exact ⟨_, rfl, rfl⟩
    · intro entry hentry behind _
      have hwell : entry.2.WellFormed :=
        h _ (hsnd ▸ List.mem_map_of_mem (List.mem_of_mem_tail hentry))
      exact hends entry hentry _ _ _ (begins_argument unit depth' hwell isGap_nil behind).next
        (name?_nameKind _)
    · rintro _ ⟨values, rfl, hvalues⟩
      rw [← hsnd]
      simpa [Function.comp_def] using hvalues

/-! ## Members between braces -/

theorem reads_closesBraces {cs : List Char} {kind : TokenKind} (hk : Next cs kind)
    (h : kind = .punctuator .braceClose ∨ ∃ name, kind.name? = some name)
    (expected : List String) (opening : Span) :
    Reads (closesBraces expected opening) cs (· = decide (kind = .punctuator .braceClose)) cs := by
  intro feed hfeed
  obtain ⟨span, hnext⟩ := hfeed.next? hk
  rcases h with rfl | ⟨name, hname⟩
  · refine ⟨true, feed, ?_, by simp, hfeed⟩
    simp only [closesBraces, bind_run, feed_run, hnext]
    rfl
  · have hne := ne_punctuator_of_name hname .braceClose
    refine ⟨false, feed, ?_, by simp [hne], hfeed⟩
    simp only [closesBraces, bind_run, feed_run, hnext, if_neg hne, hname, Option.isSome_some,
      if_true]
    rfl

theorem begins_openingBrace (rest : List Char) :
    Begins (' ' :: '{' :: rest) (.punctuator .braceOpen) rest :=
  (begins_mark (c := '{') rfl rest).gap isGap_space

theorem begins_closingBrace (rest : List Char) :
    Begins ('\n' :: '}' :: rest) (.punctuator .braceClose) rest :=
  (begins_mark (c := '}') rfl rest).gap isGap_line_feed

theorem endsLine_closingBrace (rest : List Char) : EndsLine ('\n' :: '}' :: rest) :=
  endsLine_of_next (begins_mark (c := '}') rfl rest).next (by decide)

section Turn

variable {α τ : Type} (stop : List String → α) (go : List String → τ) (expected : List String)
  (opening : Span)

/-- In front of the closing brace the loop between braces stops. -/
theorem reads_turn_closingBrace (rest : List Char) :
    Reads (turnInBraces stop go expected opening) ('\n' :: '}' :: rest) (· = .inl (stop []))
      ('\n' :: '}' :: rest) := by
  have hclose := begins_closingBrace rest
  refine (reads_skipCommas_nil hclose.next (by simp)).bind fun _ _ => ?_
  refine (reads_descriptions_nil hclose.next rfl).bind_eq ?_
  exact (reads_closesBraces hclose.next (.inl rfl) _ _).bind_eq (reads_pure rfl)

/-- In front of a member it goes on, with the descriptions of the member. -/
theorem reads_turn_member {lead cs : List Char} {texts : List String}
    (hlead : Introduces lead texts) {kind : TokenKind} {name : String} (hk : Next cs kind)
    (hname : kind.name? = some name) :
    ∃ gap, IsGap gap ∧ Reads (turnInBraces stop go expected opening) (lead ++ cs)
      (· = .inr (go texts)) (gap ++ cs) := by
  obtain ⟨mid, gap, hgap, hskip, hread⟩ := hlead cs kind name hk hname
  have hcloses := reads_closesBraces ((next_gap_append hgap).2 hk) (.inr ⟨name, hname⟩) expected
    opening
  rw [decide_eq_false (ne_punctuator_of_name hname _)] at hcloses
  exact ⟨gap, hgap, hskip.bind fun _ _ => hread.bind_eq (hcloses.bind_eq (reads_pure rfl))⟩

end Turn

section Members

variable {ε α δ : Type} {unit what : String} {member : List String → String × Span → Parser α}
  {line name : ε → String} {descriptions : ε → List String} {tail : ε → List Char}
  {view : α → δ} {expected : ε → δ}

/-- **Members are read back**, if each is read behind its name in front of the end of its line. -/
theorem reads_optionalMembers (hunit : IsIndent unit) {entries : List ε}
    (hline : ∀ entry, '\n' :: (line entry).toList =
      memberLead unit 1 (descriptions entry) ++ ((name entry).toList ++ tail entry) ++ ['\n'])
    (hname : ∀ entry ∈ entries, IsName (name entry))
    (hdescriptions : ∀ entry ∈ entries, ∀ text ∈ descriptions entry, IsDescription text)
    (htail : ∀ entry ∈ entries, ∀ behind, EndsLine behind → Delimited (tail entry ++ behind))
    (hmember : ∀ entry ∈ entries, ∀ span behind, EndsLine behind →
      Reads (member ((descriptions entry).take 1) (name entry, span)) (tail entry ++ behind)
        (fun found => view found = expected entry) behind)
    {rest : List Char} (hrest : ¬Next rest (.punctuator .braceOpen)) :
    Reads (optionalMembers what member) ((Printing.members (entries.map line)).toList ++ rest)
      (fun found => found.map view = entries.map expected) rest := by
  by_cases hne : entries = []
  · subst hne
    exact (reads_nextIs_of_not_next hrest).bind_eq (reads_pure rfl)
  · rw [toList_members hline hne]
    simp only [List.cons_append, List.append_assoc, List.nil_append]
    refine (reads_nextIs_self (begins_openingBrace _).next).bind_eq ?_
    refine (reads_mark (begins_openingBrace _)).bind fun opening _ => ?_
    refine Reads.bind ?_ fun found hfound =>
      (reads_mark (begins_closingBrace rest)).bind fun _ _ => reads_pure hfound
    refine Reads.mono (reads_entries _ id id view expected EndsLine (fun done =>
      reads_turn_closingBrace _ _ _ _ rest) ?_ (endsLine_closingBrace rest) ?_) ?_
    · rintro ⟨lead, entry⟩ hentry done behind hbehind -
      obtain ⟨hmem, rfl⟩ : entry ∈ entries ∧ lead = memberLead unit 1 (descriptions entry) := by
        simpa [eq_comm] using hentry
      have hbegins (gap : List Char) (hgap : IsGap gap) :
          Begins (gap ++ (((name entry).toList ++ tail entry) ++ behind))
            (Scan.nameKind (name entry)) (tail entry ++ behind) := by
        rw [List.append_assoc]
        exact (begins_name (hname entry hmem) (htail entry hmem behind hbehind)).gap hgap
      have hkind := name?_nameKind (name entry)
      obtain ⟨gap, hgap, hturn⟩ := reads_turn_member (fun _ => done) (done, ·) [what] opening
        (introduces_memberLead hunit 1 (hdescriptions entry hmem)) (hbegins [] isGap_nil).next hkind
      refine Reads.mono (reads_round (fun next => ∃ value, next = done ++ [value] ∧
        view value = expected entry) (done, (descriptions entry).take 1) _ hturn ?_) ?_
      · refine (reads_name (hbegins gap hgap) hkind).bind ?_
        rintro ⟨_, span⟩ rfl
        exact (hmember entry hmem span behind hbehind).bind fun value hvalue =>
          reads_pure ⟨value, rfl, hvalue⟩
      · rintro _ ⟨_, rfl, value, rfl, hvalue⟩
        exact ⟨value, rfl, hvalue⟩
    · rintro ⟨lead, entry⟩ hentry behind hbehind
      obtain ⟨hmem, rfl⟩ : entry ∈ entries ∧ lead = memberLead unit 1 (descriptions entry) := by
        simpa [eq_comm] using List.mem_of_mem_tail hentry
      have hbegins := begins_name (hname entry hmem) (htail entry hmem behind hbehind)
      simpa using endsLine_memberLead hunit 1 (hdescriptions entry hmem) hbegins.next
        (name?_nameKind (name entry))
    · rintro _ ⟨values, rfl, hvalues⟩
      simpa [Function.comp_def] using hvalues

end Members

/-! ## Fields -/

/-- What is printed behind the name of a field, up to the end of its line. -/
def fieldRest (unit : String) (field : Field) : List Char :=
  (Printing.arguments unit 1 field.arguments).toList ++
    (typed unit 1 field.type field.default field.directives ++
      (Printing.trailingComment field.comments).toList)

theorem delimited_arguments {unit : String} (hunit : IsIndent unit) (depth : Nat)
    {arguments : List Argument} (h : ∀ a ∈ arguments, a.WellFormed) {rest : List Char}
    (hrest : Delimited rest) :
    Delimited ((Printing.arguments unit depth arguments).toList ++ rest) := by
  by_cases hne : arguments = []
  · subst hne
    exact hrest
  · obtain ⟨depth', entries, gap, htext, -⟩ := toList_arguments hunit depth h hne
    rw [htext]
    exact delimited_cons rfl _

theorem reads_fieldTail {unit : String} (hunit : IsIndent unit) {field : Field}
    (h : field.WellFormed) (span : Span) {behind : List Char} (hbehind : EndsLine behind) :
    Reads (fieldTail (field.descriptions.take 1) (field.name, span))
      (fieldRest unit field ++ behind)
      (fun found => withoutSpans found = withoutSpans field.canonical) behind := by
  have hcolon (cs : List Char) : Begins (typed unit 1 field.type field.default field.directives ++
      cs) (.punctuator .colon) _ := begins_mark rfl _
  have hcomment := follows_trailingComment h.comments hbehind
  simp only [fieldRest, List.append_assoc]
  refine (reads_optionalArguments hunit 1 h.arguments fun hn => by
    cases (hcolon _).next.unique hn).bind_eq ?_
  refine reads_typed hunit 1 h.type h.default h.directives (hcomment.mono (by decide)) ?_
  refine (reads_trailingComment_of_endsLine h.comments hbehind).bind_eq (reads_pure ?_)
  rfl

/-- **Printed fields are read back.** -/
theorem reads_optionalFields {unit : String} (hunit : IsIndent unit) {fields : List Field}
    (h : ∀ f ∈ fields, f.WellFormed) {rest : List Char}
    (hrest : ¬Next rest (.punctuator .braceOpen)) :
    Reads optionalFields
      ((Printing.members (fields.map (Printing.field unit))).toList ++ rest)
      (fun found => found.map withoutSpans = fields.map fun f => withoutSpans f.canonical)
      rest := by
  refine @reads_optionalMembers _ _ _ unit _ _ _ Field.name Field.descriptions (fieldRest unit) _ _
    hunit _ (fun f => ?_) (fun f hf => (h f hf).name)
    (fun f hf => (h f hf).descriptions) (fun f hf behind _ => ?_)
    (fun f hf span behind => reads_fieldTail hunit (h f hf) span) _ hrest
  · simp [Printing.field, memberLead, fieldRest, typed]
  · rw [fieldRest, List.append_assoc]
    exact delimited_arguments hunit 1 (h f hf).arguments (delimited_cons rfl _)

/-! ## Enum values -/

/-- What is printed behind an enum value, up to the end of its line. -/
def enumValueRest (unit : String) (value : EnumValue) : List Char :=
  (Printing.directives unit 1 value.directives).toList ++
    (Printing.trailingComment value.comments).toList

theorem reads_enumValueTail {unit : String} (hunit : IsIndent unit) {value : EnumValue}
    (h : value.WellFormed) (span : Span) {behind : List Char} (hbehind : EndsLine behind) :
    Reads (enumValueTail (value.descriptions.take 1) (value.name, span))
      (enumValueRest unit value ++ behind) (· = value.canonical) behind := by
  have hcomment := follows_trailingComment h.comments hbehind
  rw [enumValueRest, List.append_assoc]
  refine (reads_directives hunit 1 h.directives (hcomment.mono (by decide))).bind_eq ?_
  refine (reads_trailingComment_of_endsLine h.comments hbehind).bind_eq (reads_pure ?_)
  rfl

/-- **Printed enum values are read back.** -/
theorem reads_optionalEnumValues {unit : String} (hunit : IsIndent unit) {values : List EnumValue}
    (h : ∀ v ∈ values, v.WellFormed) {rest : List Char}
    (hrest : ¬Next rest (.punctuator .braceOpen)) :
    Reads optionalEnumValues
      ((Printing.members (values.map (Printing.enumValue unit))).toList ++ rest)
      (fun found => found.map id = values.map EnumValue.canonical) rest := by
  refine @reads_optionalMembers _ _ _ unit _ _ _ EnumValue.name EnumValue.descriptions
    (enumValueRest unit) _ _ hunit _ (fun v => ?_)
    (fun v hv => (h v hv).name) (fun v hv => (h v hv).descriptions) (fun v hv behind hends => ?_)
    (fun v hv span behind => reads_enumValueTail hunit (h v hv) span) _ hrest
  · simp [Printing.enumValue, memberLead, enumValueRest]
  · rw [enumValueRest, List.append_assoc]
    exact delimited_directives unit 1 v.directives
      (follows_trailingComment (h v hv).comments hends).delimited

end SchemaMerge.Parser
