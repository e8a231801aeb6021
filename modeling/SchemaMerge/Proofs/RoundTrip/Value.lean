import SchemaMerge.Proofs.RoundTrip.Canonical
import SchemaMerge.Proofs.RoundTrip.Layout

/-!
# Reading printed values, types and directives

For each function that prints a value, a default, a type or directives, the parser that reads it
back. The text that follows is left open; `Follows` says what it may not start with. A nested list
is read item by item by induction on its depth (`reads_listTail`).
-/

namespace SchemaMerge.Parser

/-! ## Literals and lists -/

/-- The token of a literal is no mark. -/
theorem ne_punctuator_of_literal {kind : TokenKind} {text : String}
    (h : kind.literal? = some text) (mark : Punctuator) : kind ≠ .punctuator mark := by
  rintro rfl
  cases h

theorem endsBefore_literal {kind : TokenKind} {text : String} {rest : List Char}
    (h : kind.literal? = some text) (hrest : Delimited rest) : kind.EndsBefore rest := by
  cases kind with
  | string =>
    refine hrest.mono fun c hc => ?_
    simp only [decide_eq_true_eq]
    rintro rfl
    exact absurd hc (by decide)
  | blockString => trivial
  | keyword | name | integer | float => exact hrest
  | _ => cases h

theorem begins_literal {text : String} (h : IsLiteral text) {rest : List Char}
    (hrest : Delimited rest) :
    ∃ kind, Begins (text.toList ++ rest) kind rest ∧ kind.literal? = some text := by
  obtain ⟨kind, hspells, hliteral⟩ := h
  exact ⟨kind, begins_of_spells hspells (endsBefore_literal hliteral hrest), hliteral⟩

/-- The first token of an item is a literal or an opening bracket. -/
theorem next_item {separator : String} {depth : Nat} {text : String}
    (h : IsItem separator depth text) {rest : List Char} (hrest : Delimited rest) :
    ∃ kind, Next (text.toList ++ rest) kind ∧ kind ≠ .punctuator .comma ∧
      kind ≠ .punctuator .bracketClose := by
  have hliteral (h : IsLiteral text) : ∃ kind, Next (text.toList ++ rest) kind ∧
      kind ≠ .punctuator .comma ∧ kind ≠ .punctuator .bracketClose := by
    obtain ⟨kind, hbegins, hk⟩ := begins_literal h hrest
    exact ⟨kind, hbegins.next, ne_punctuator_of_literal hk _, ne_punctuator_of_literal hk _⟩
  cases depth with
  | zero => exact hliteral h
  | succ depth =>
    rcases h with h | ⟨items, -, rfl⟩
    · exact hliteral h
    · have hbegins : Begins ('[' :: ((String.intercalate separator items).toList ++ ']' :: rest))
          (.punctuator .bracketOpen) _ := begins_mark rfl _
      exact ⟨_, by simpa using hbegins.next, by simp, by simp⟩

/-- The item of a list literal behind its first token. -/
def listItemTail (separator : String) (depth : Nat) (values : List String) :
    Span ⊕ String → Parser (List String)
  | .inl opening => do
    let nested ← listTail separator depth opening
    return values ++ ["[" ++ String.intercalate separator nested ++ "]"]
  | .inr value => return values ++ [value]

/-- An item is read in front of what may follow it. -/
def ReadsItem (separator : String) (depth : Nat) (text : String) : Prop :=
  ∀ gap rest values, IsGap gap → Delimited rest →
    Reads (expect Want.listItem >>= listItemTail separator depth values)
      (gap ++ (text.toList ++ rest)) (· = values ++ [text]) rest

theorem readsItem_literal {separator : String} {depth : Nat} {text : String} (h : IsLiteral text) :
    ReadsItem separator depth text := by
  intro gap rest values hgap hrest
  obtain ⟨kind, hbegins, hk⟩ := begins_literal h hrest
  refine Reads.bind_eq (a := .inr text) (reads_expect (hbegins.gap hgap) fun span => ?_)
    (reads_pure rfl)
  exact ⟨.inr text, by simp [Want.listItem, ne_punctuator_of_literal hk, hk], rfl⟩

/-- A list whose items are read is read. -/
theorem reads_listTail_of_items {separator : String} (hseparator : IsSeparator separator.toList)
    {depth : Nat} {items : List String} (h : ∀ item ∈ items, IsItem separator depth item)
    (hread : ∀ item ∈ items, ReadsItem separator depth item) (rest : List Char) (opening : Span) :
    Reads (listTail separator (depth + 1) opening)
      ((String.intercalate separator items).toList ++ ']' :: rest) (· = items) rest := by
  have hclose : Begins (']' :: rest) (.punctuator .bracketClose) rest := begins_mark rfl rest
  rw [listTail, String.toList_intercalate, ← layout_separated String.toList]
  refine Reads.bind_eq ?_ ((reads_mark hclose).bind fun _ _ => reads_pure rfl)
  refine (reads_entries String.toList id id id id Delimited (fun values => ?_) ?_
    (delimited_cons rfl _) ?_).mono ?_
  · exact (reads_skipCommas_nil hclose.next (by simp)).bind fun _ _ =>
      (reads_nextIs_self hclose.next).bind_eq (reads_pure rfl)
  · intro entry hentry values behind hbehind _
    have hitem : entry.2 ∈ items := by
      rw [← map_snd_separated separator.toList items]
      exact List.mem_map_of_mem hentry
    obtain ⟨kind, hnext, hcomma, hbracket⟩ := next_item (h _ hitem) hbehind
    obtain ⟨gap, hgap, hskip⟩ :=
      reads_skipCommas_lead (lead_of_mem_separated hseparator entry hentry) hnext hcomma
    have hclosed := reads_nextIs_ne ((next_gap_append hgap).2 hnext) hbracket
    refine Reads.mono (reads_round _ _ _ (hskip.bind fun _ _ => hclosed.bind_eq (reads_pure rfl))
      (hread _ hitem gap behind values hgap hbehind)) ?_
    rintro _ ⟨next, rfl, rfl⟩
    exact ⟨entry.2, rfl, rfl⟩
  · intro entry hentry behind _
    rw [fst_of_mem_tail_separated entry hentry]
    exact hseparator.setsApart.delimited _
  · rintro _ ⟨values, rfl, hvalues⟩
    simpa [map_snd_separated, show (fun entry : List Char × String => entry.2) = Prod.snd from rfl]
      using hvalues

/-- **A printed list literal is read back**, to any depth that is allowed. -/
theorem reads_listTail {separator : String} (hseparator : IsSeparator separator.toList)
    {depth : Nat} {items : List String} (h : ∀ item ∈ items, IsItem separator depth item)
    (rest : List Char) (opening : Span) :
    Reads (listTail separator (depth + 1) opening)
      ((String.intercalate separator items).toList ++ ']' :: rest) (· = items) rest := by
  induction depth generalizing items rest opening with
  | zero =>
    exact reads_listTail_of_items hseparator h (fun item hi => readsItem_literal (h item hi)) rest
      opening
  | succ depth ih =>
    refine reads_listTail_of_items hseparator h (fun item hi => ?_) rest opening
    rcases h item hi with hliteral | ⟨nested, hnested, rfl⟩
    · exact readsItem_literal hliteral
    · intro gap rest values hgap _
      have hopen : Begins (gap ++ (("[" ++ String.intercalate separator nested ++ "]").toList ++
          rest)) (.punctuator .bracketOpen)
          ((String.intercalate separator nested).toList ++ ']' :: rest) := by
        simpa using (begins_mark (c := '[') rfl _).gap hgap
      have hbracket : Reads (expect Want.listItem) _ (fun item => ∃ span, item = .inl span) _ :=
        reads_expect hopen fun span => ⟨.inl span, by simp [Want.listItem], span, rfl⟩
      refine hbracket.bind ?_
      rintro _ ⟨span, rfl⟩
      exact (ih hnested rest span).bind_eq (reads_pure rfl)

/-! ## Values -/

/-- The values of a printed value. -/
theorem reads_value {separator : String} (hseparator : IsSeparator separator.toList)
    {isList : Bool} {values : List String} (h : AreValues separator isList values)
    {gap rest : List Char} (hgap : IsGap gap) (hrest : Delimited rest) :
    Reads (value separator)
      (gap ++ ((Printing.values separator isList values).toList ++ rest)) (· = (values, isList))
      rest := by
  cases isList with
  | true =>
    have hopen : Begins (gap ++ ((Printing.values separator true values).toList ++ rest))
        (.punctuator .bracketOpen)
        ((String.intercalate separator values).toList ++ ']' :: rest) := by
      simpa [Printing.values] using (begins_mark (c := '[') rfl _).gap hgap
    refine (reads_nextIs_self hopen.next).bind_eq ?_
    refine (reads_mark hopen).bind fun opening _ => ?_
    exact (reads_listTail hseparator h rest opening).bind_eq (reads_pure rfl)
  | false =>
    obtain ⟨text, htext, rfl⟩ := h
    obtain ⟨kind, hbegins, hk⟩ := begins_literal htext hrest
    have hbegins : Begins (gap ++ ((Printing.values separator false [text]).toList ++ rest)) kind
        rest := by simpa [Printing.values] using hbegins.gap hgap
    refine (reads_nextIs_ne hbegins.next (ne_punctuator_of_literal hk _)).bind_eq ?_
    refine Reads.bind_eq (reads_expect hbegins fun span => ⟨text, hk, rfl⟩) (reads_pure rfl)

/-- The default behind a type. -/
theorem reads_optionalDefault {default : Option DefaultValue}
    (h : ∀ d ∈ default, d.WellFormed) {rest : List Char} (hrest : Follows [.equals] rest) :
    Reads optionalDefault ((Printing.defaultValue default).toList ++ rest) (· = default) rest := by
  cases default with
  | none =>
    refine (reads_takeIf_of_not (reads_nextIs_of_not_next ?_)).bind_eq (reads_pure rfl)
    simpa [Printing.defaultValue] using hrest.not_next .equals
  | some d =>
    have hbegins : Begins ((Printing.defaultValue (some d)).toList ++ rest) (.punctuator .equals)
        ([' '] ++ ((Printing.values ", " d.isList d.values).toList ++ rest)) := by
      simpa [Printing.defaultValue] using (begins_mark (c := '=') rfl _).gap isGap_space
    refine (reads_takeIf_self hbegins).bind_eq ?_
    exact (reads_value (.inr rfl) (h d rfl) isGap_space hrest.delimited).bind_eq (reads_pure rfl)

theorem follows_defaultValue {default : Option DefaultValue} {marks : List Punctuator}
    (hmarks : .equals ∉ marks) {rest : List Char} (hrest : Follows marks rest) :
    Follows marks ((Printing.defaultValue default).toList ++ rest) := by
  refine hrest.append fun hne => ?_
  cases default with
  | none => simp [Printing.defaultValue] at hne
  | some d =>
    have hbegins : Begins ((Printing.defaultValue (some d)).toList ++ rest) (.punctuator .equals)
        ([' '] ++ ((Printing.values ", " d.isList d.values).toList ++ rest)) := by
      simpa [Printing.defaultValue] using (begins_mark (c := '=') rfl _).gap isGap_space
    refine hbegins.next.follows ?_ fun mark hm he => hmarks ?_
    · simpa [Printing.defaultValue] using delimited_cons rfl _
    · cases he
      exact hm

/-! ## Types -/

theorem description?_of_name {kind : TokenKind} {text : String} (h : kind.name? = some text) :
    kind.description? = none := by
  cases kind with
  | keyword | name => rfl
  | _ => cases h

theorem ne_punctuator_of_name {kind : TokenKind} {text : String} (h : kind.name? = some text)
    (mark : Punctuator) : kind ≠ .punctuator mark := by
  rintro rfl
  cases h

/-- A name is read behind a gap. -/
theorem reads_name_of_isName {text what : String} (h : IsName text) {gap rest : List Char}
    (hgap : IsGap gap) (hrest : Delimited rest) :
    Reads (name what) (gap ++ (text.toList ++ rest)) (· = text) rest :=
  (reads_name ((begins_name h hrest).gap hgap) (name?_nameKind text)).bind
    fun _ hfound => reads_pure hfound

theorem reads_bang (nullable : Bool) {rest : List Char}
    (hrest : ¬Next rest (.punctuator .bang)) :
    Reads (takeIf (.punctuator .bang)) ((if nullable then "" else "!").toList ++ rest)
      (· = !nullable) rest := by
  cases nullable with
  | true => exact reads_takeIf_of_not (reads_nextIs_of_not_next hrest)
  | false => exact reads_takeIf_self (begins_mark rfl rest)

theorem delimited_bang (nullable : Bool) {rest : List Char} (hrest : Delimited rest) :
    Delimited ((if nullable then "" else "!").toList ++ rest) := by
  cases nullable with
  | true => exact hrest
  | false => exact delimited_cons rfl rest

/-- **A printed type is read back.** -/
theorem reads_typeRef {type : TypeRef} (h : type.WellFormed) {gap rest : List Char}
    (hgap : IsGap gap) (hrest : Follows [.bang] rest) :
    Reads typeRef (gap ++ (type.text.toList ++ rest)) (· = type) rest := by
  have hbang := hrest.not_next .bang List.mem_cons_self
  obtain ⟨name, nullable, isList, listNullable⟩ := type
  cases isList with
  | true =>
    have hopen : Begins (gap ++ ((⟨name, nullable, true, listNullable⟩ : TypeRef).text.toList ++
        rest)) (.punctuator .bracketOpen) (name.toList ++ ((if nullable then "" else "!").toList ++
          (']' :: ((if listNullable then "" else "!").toList ++ rest)))) := by
      simpa [TypeRef.text] using (begins_mark (c := '[') rfl _).gap hgap
    have hclose : Begins (']' :: ((if listNullable then "" else "!").toList ++ rest))
        (.punctuator .bracketClose) _ := begins_mark rfl _
    refine (reads_takeIf_self hopen).bind_eq ?_
    have hdelimited : Delimited (']' :: ((if listNullable then "" else "!").toList ++ rest)) :=
      delimited_cons rfl _
    refine (reads_name_of_isName h.name isGap_nil (delimited_bang nullable hdelimited)).bind_eq ?_
    refine (reads_bang nullable fun hn => by cases hclose.next.unique hn).bind_eq ?_
    refine (reads_mark hclose).bind fun _ _ => ?_
    refine (reads_bang listNullable hbang).bind_eq (reads_pure ?_)
    simp [TypeRef.list]
  | false =>
    obtain rfl : listNullable = false := h.listNullable rfl
    have htext : gap ++ ((⟨name, nullable, false, false⟩ : TypeRef).text.toList ++ rest) =
        gap ++ (name.toList ++ ((if nullable then "" else "!").toList ++ rest)) := by
      simp [TypeRef.text]
    have hdelimited := delimited_bang nullable hrest.delimited
    have hbegins := (begins_name h.name hdelimited).gap hgap
    have hne := ne_punctuator_of_name (name?_nameKind name) .bracketOpen
    rw [htext]
    refine (reads_takeIf_of_not (reads_nextIs_ne hbegins.next hne)).bind_eq ?_
    refine (reads_name_of_isName h.name hgap hdelimited).bind_eq ?_
    refine (reads_bang nullable hbang).bind_eq (reads_pure ?_)
    simp [TypeRef.named]

/-- The first token of a printed type is no comment. -/
theorem next_typeRef {type : TypeRef} (h : type.WellFormed) {gap rest : List Char}
    (hgap : IsGap gap) (hrest : Delimited rest) :
    ∃ kind, Next (gap ++ (type.text.toList ++ rest)) kind ∧ kind.comment? = none := by
  obtain ⟨name, nullable, isList, listNullable⟩ := type
  cases isList with
  | true =>
    have hopen := (begins_mark (c := '[') rfl (name.toList ++ ((if nullable then "" else "!").toList
      ++ (']' :: ((if listNullable then "" else "!").toList ++ rest))))).gap hgap
    exact ⟨_, by simpa [TypeRef.text] using hopen.next, rfl⟩
  | false =>
    have hname := (begins_name h.name (delimited_bang nullable hrest)).gap hgap
    refine ⟨_, by simpa [TypeRef.text] using hname.next, ?_⟩
    unfold Scan.nameKind
    split <;> rfl

/-! ## Directives -/

/-- The arguments given to a directive, laid out between their parentheses. -/
theorem toList_directiveArguments {unit : String} (hunit : IsIndent unit) (depth : Nat)
    {arguments : List DirectiveArgument} (hne : arguments ≠ []) :
    ∃ entries gap, (Printing.directiveArguments unit depth arguments).toList = '(' ::
        (layout (fun argument => (Printing.directiveArgument argument).toList) entries ++
          (gap ++ [')'])) ∧
      entries.map Prod.snd = arguments ∧ IsGap gap ∧
      (∀ entry ∈ entries, IsGap entry.1 ∨ IsSeparator entry.1) ∧
      ∀ entry ∈ entries.tail, SetsApart entry.1 := by
  have hempty : arguments.isEmpty = false := by simpa using hne
  by_cases hwrap : Printing.maxInlineEntries < arguments.length
  · have hindent := isGap_indentation hunit
    refine ⟨arguments.map fun argument =>
      ('\n' :: (Printing.indentation unit (depth + 1)).toList, argument), _, ?_, ?_,
      isGap_line_feed.append (hindent depth), ?_, ?_⟩
    · simp only [Printing.directiveArguments, hempty, Bool.false_eq_true, if_false, if_pos hwrap]
      exact toList_wrapped unit depth (fun argument => by simp) arguments
    · simp [Function.comp_def]
    · simp only [List.forall_mem_map]
      exact fun _ _ => .inl (isGap_line_feed.append (hindent (depth + 1)))
    · rw [← List.map_tail, List.forall_mem_map]
      exact fun _ _ => ⟨'\n', _, rfl, rfl⟩
  · refine ⟨separated [',', ' '] arguments, [], ?_, map_snd_separated _ _, isGap_nil,
      lead_of_mem_separated (.inr rfl), fun entry hentry => ?_⟩
    · simp only [Printing.directiveArguments, hempty, Bool.false_eq_true, if_false, if_neg hwrap]
      exact toList_inline Printing.directiveArgument arguments
    · rw [fst_of_mem_tail_separated entry hentry]
      exact IsSeparator.setsApart (.inr rfl)

/-- The name of a printed argument, and what stands behind it. -/
theorem begins_directiveArgument {argument : DirectiveArgument} (h : argument.WellFormed)
    {gap : List Char} (hgap : IsGap gap) (behind : List Char) :
    Begins (gap ++ ((Printing.directiveArgument argument).toList ++ behind))
      (Scan.nameKind argument.name)
      (':' :: ([' '] ++ ((Printing.values "," argument.isList argument.values).toList ++
        behind))) := by
  simpa [Printing.directiveArgument] using
    (begins_name h.name (delimited_cons (c := ':') rfl _)).gap hgap

theorem delimited_directiveArguments {unit : String} (hunit : IsIndent unit) (depth : Nat)
    (arguments : List DirectiveArgument) {rest : List Char} (hrest : Delimited rest) :
    Delimited ((Printing.directiveArguments unit depth arguments).toList ++ rest) := by
  by_cases hne : arguments = []
  · subst hne
    exact hrest
  · obtain ⟨entries, gap, htext, -⟩ := toList_directiveArguments hunit depth hne
    rw [htext]
    exact delimited_cons rfl _

/-- In front of the closing parenthesis a loop between parentheses stops. -/
theorem reads_turn_closingParen {α τ : Type} (stop : List String → α) (go : List String → τ)
    {cs : List Char} (hclose : Next cs (.punctuator .parenClose)) :
    Reads (turnInParens stop go) cs (· = .inl (stop [])) cs := by
  refine (reads_skipCommas_nil hclose (by simp)).bind fun _ _ => ?_
  refine (reads_descriptions_nil hclose rfl).bind_eq ?_
  refine (reads_skipCommas_nil hclose (by simp)).bind fun _ _ => ?_
  exact (reads_nextIs_self hclose).bind_eq (reads_pure rfl)

theorem reads_directiveArguments {unit : String} (hunit : IsIndent unit) (depth : Nat)
    {arguments : List DirectiveArgument} (h : ∀ a ∈ arguments, a.WellFormed) {rest : List Char}
    (hrest : ¬Next rest (.punctuator .parenOpen)) :
    Reads directiveArguments ((Printing.directiveArguments unit depth arguments).toList ++ rest)
      (· = (arguments, [])) rest := by
  by_cases hne : arguments = []
  · subst hne
    exact (reads_takeIf_of_not (reads_nextIs_of_not_next hrest)).bind_eq (reads_pure rfl)
  · obtain ⟨entries, gap, htext, hsnd, hgap, hlead, hapart⟩ :=
      toList_directiveArguments hunit depth hne
    rw [htext, List.cons_append, List.append_assoc, List.append_assoc, List.singleton_append]
    have hclose : Begins (gap ++ ')' :: rest) (.punctuator .parenClose) rest :=
      (begins_mark rfl rest).gap hgap
    refine (reads_takeIf_self (begins_mark rfl _)).bind_eq ?_
    refine Reads.bind_eq ?_ ((reads_mark hclose).bind fun _ _ => reads_pure rfl)
    refine Reads.mono (reads_entries _ (fun done => (done, [])) (fun done => (done, [])) id id
      Delimited (fun done => ?_) ?_ (hgap.delimited_append (delimited_cons rfl rest)) ?_) ?_
    · exact reads_turn_closingParen (fun texts => (done, [] ++ texts)) (fun texts =>
        (done, [] ++ texts)) hclose.next
    · intro entry hentry done behind hbehind _
      have hwell : entry.2.WellFormed := h _ (hsnd ▸ List.mem_map_of_mem hentry)
      have hnext := (begins_directiveArgument hwell isGap_nil behind).next
      have hname := name?_nameKind entry.2.name
      have hne := ne_punctuator_of_name hname
      obtain ⟨gap, hgap, hskip⟩ := reads_skipCommas_lead (hlead entry hentry) hnext (hne _)
      have hbegins := begins_directiveArgument hwell hgap behind
      refine Reads.mono (reads_round (· = (done ++ [entry.2], [])) (done, []) _
        (hskip.bind fun _ _ =>
          (reads_descriptions_nil hbegins.next (description?_of_name hname)).bind_eq <|
            (reads_skipCommas_nil hbegins.next (hne _)).bind fun _ _ =>
              (reads_nextIs_ne hbegins.next (hne _)).bind_eq (reads_pure rfl)) ?_) ?_
      · refine (reads_name hbegins hname).bind fun found hfound => ?_
        refine (reads_mark (begins_mark rfl _)).bind fun _ _ => ?_
        refine (reads_value (.inl rfl) hwell.values isGap_space hbehind).bind_eq (reads_pure ?_)
        simp [hfound]
      · rintro _ ⟨next, rfl, rfl⟩
        exact ⟨entry.2, rfl, rfl⟩
    · exact fun entry hentry _ _ => (hapart entry hentry).delimited _
    · rintro _ ⟨values, rfl, hvalues⟩
      rw [List.map_id] at hvalues
      rw [hvalues]
      simp only [id, ← hsnd]

theorem canonicalDirectives_eq (ds : List Directive) :
    canonicalDirectives ds = (Printing.sortedDirectives ds).map Directive.skeleton := by
  symm
  apply List.map_mergeSort
  exact fun _ _ _ _ => rfl

/-- A directive behind what it is applied to. -/
def directiveText (unit : String) (depth : Nat) (directive : Directive) : List Char :=
  (" @" ++ directive.name ++ Printing.directiveArguments unit depth directive.arguments).toList

theorem toList_directives (unit : String) (depth : Nat) (ds : List Directive) :
    (Printing.directives unit depth ds).toList =
      layout (directiveText unit depth) ((Printing.sortedDirectives ds).map ([], ·)) := by
  simp [Printing.directives, layout, directiveText, List.flatMap_map]

theorem begins_directive (unit : String) (depth : Nat) (directive : Directive)
    (behind : List Char) :
    Begins (directiveText unit depth directive ++ behind) (.punctuator .atSign)
      (directive.name.toList ++
        ((Printing.directiveArguments unit depth directive.arguments).toList ++ behind)) := by
  simpa [directiveText] using (begins_mark (c := '@') rfl _).gap isGap_space

theorem follows_directive {marks : List Punctuator} (hmarks : .atSign ∉ marks) (unit : String)
    (depth : Nat) (directive : Directive) (behind : List Char) :
    Follows marks (directiveText unit depth directive ++ behind) := by
  refine (begins_directive unit depth directive behind).next.follows ?_ fun mark hm he => ?_
  · simpa [directiveText] using delimited_cons rfl _
  · cases he
    exact hmarks hm

/-- **Printed directives are read back** in the order in which they are printed. -/
theorem reads_directives {unit : String} (hunit : IsIndent unit) (depth : Nat)
    {ds : List Directive} (h : ∀ d ∈ ds, d.WellFormed) {rest : List Char}
    (hrest : Follows [.atSign, .parenOpen] rest) :
    Reads directives ((Printing.directives unit depth ds).toList ++ rest)
      (· = canonicalDirectives ds) rest := by
  have hopen : Follows [.parenOpen] rest := hrest.mono (by simp)
  rw [toList_directives]
  refine Reads.mono (reads_entries _ id id id Directive.skeleton (Follows [.parenOpen])
    (fun done => ?_) ?_ hopen ?_) ?_
  · exact (reads_nextIs_of_not_next (hrest.not_next _ List.mem_cons_self)).bind_eq (reads_pure rfl)
  · rintro ⟨lead, d⟩ hentry done behind hbehind -
    obtain ⟨hd, rfl⟩ : d ∈ ds ∧ lead = [] := by
      simpa [Printing.sortedDirectives] using hentry
    have hwell := h d hd
    have hbegins := begins_directive unit depth d behind
    have harguments := reads_directiveArguments hunit depth hwell.arguments
      (hbehind.not_next _ List.mem_cons_self)
    refine Reads.mono (reads_round (· = done ++ [d.skeleton]) done _
      ((reads_nextIs_self hbegins.next).bind_eq (reads_pure rfl)) ?_) ?_
    · have hdelimited :=
        delimited_directiveArguments hunit depth d.arguments hbehind.delimited
      have hname := begins_name hwell.name hdelimited
      refine (reads_mark hbegins).bind fun _ _ => ?_
      refine (reads_descriptions_nil hname.next
        (description?_of_name (name?_nameKind d.name))).bind_eq ?_
      refine (reads_name_of_isName hwell.name isGap_nil hdelimited).bind_eq ?_
      exact harguments.bind_eq (reads_pure rfl)
    · rintro _ ⟨next, rfl, rfl⟩
      exact ⟨d.skeleton, rfl, rfl⟩
  · rintro ⟨lead, d⟩ hentry behind _
    obtain ⟨-, rfl⟩ : d ∈ ds ∧ lead = [] := by
      simpa [Printing.sortedDirectives] using List.mem_of_mem_tail hentry
    exact follows_directive (by simp) unit depth d behind
  · rintro _ ⟨values, rfl, hvalues⟩
    rw [canonicalDirectives_eq]
    simpa [Function.comp_def] using hvalues

/-- Directives that are there start with a delimiter and an at sign. -/
theorem follows_directives {marks : List Punctuator} (hmarks : .atSign ∉ marks) (unit : String)
    (depth : Nat) (ds : List Directive) {rest : List Char} (hrest : Follows marks rest) :
    Follows marks ((Printing.directives unit depth ds).toList ++ rest) := by
  rw [toList_directives]
  refine after_layout hrest ?_
  rintro ⟨lead, d⟩ hentry behind _
  obtain ⟨-, rfl⟩ : d ∈ ds ∧ lead = [] := by simpa [Printing.sortedDirectives] using hentry
  exact follows_directive hmarks unit depth d behind

theorem delimited_directives (unit : String) (depth : Nat) (ds : List Directive) {rest : List Char}
    (hrest : Delimited rest) :
    Delimited ((Printing.directives unit depth ds).toList ++ rest) :=
  (follows_directives List.not_mem_nil unit depth ds ⟨hrest, List.forall_mem_nil _⟩).delimited

/-! ## What stands behind the name of a member -/

/-- A type with what follows it. -/
def typed (unit : String) (depth : Nat) (type : TypeRef) (default : Option DefaultValue)
    (directives : List Directive) : List Char :=
  ':' :: ' ' :: (type.text.toList ++ (Printing.defaultValue default).toList ++
    (Printing.directives unit depth directives).toList)

/-- The marks that would continue a type with what follows it. -/
def typedMarks : List Punctuator := [.bang, .equals, .atSign, .parenOpen]

/-- A type, its default and its directives are read, whatever is read then. -/
theorem reads_typed {β : Type} {next : List String → TypeRef → Option DefaultValue →
      List Directive → Parser β} {good : β → Prop} {unit : String} (hunit : IsIndent unit)
    (depth : Nat) {type : TypeRef} (htype : type.WellFormed) {default : Option DefaultValue}
    (hdefault : ∀ d ∈ default, d.WellFormed) {ds : List Directive} (hds : ∀ d ∈ ds, d.WellFormed)
    {behind rest : List Char} (hbehind : Follows typedMarks behind)
    (hnext : Reads (next [] type default (canonicalDirectives ds)) behind good rest) :
    Reads
      (do
        let _ ← expect (.mark .colon)
        let inner ← innerComments
        let type ← typeRef
        let default ← optionalDefault
        let directives ← directives
        next inner type default directives)
      (typed unit depth type default ds ++ behind) good rest := by
  have hdirectives : Follows [.bang, .equals]
      ((Printing.directives unit depth ds).toList ++ behind) :=
    follows_directives (by simp) unit depth ds (hbehind.mono (by simp [typedMarks]))
  have hafter : Follows [.bang] ((Printing.defaultValue default).toList ++
      ((Printing.directives unit depth ds).toList ++ behind)) :=
    follows_defaultValue (by simp) (hdirectives.mono (by simp))
  have hcolon : Begins (typed unit depth type default ds ++ behind) (.punctuator .colon)
      ([' '] ++ (type.text.toList ++ ((Printing.defaultValue default).toList ++
        ((Printing.directives unit depth ds).toList ++ behind)))) := by
    simpa [typed] using begins_mark (c := ':') rfl _
  obtain ⟨kind, hkind, hcomment⟩ := next_typeRef htype isGap_space hafter.delimited
  refine (reads_mark hcolon).bind fun _ _ => ?_
  refine (reads_innerComments_nil hkind hcomment).bind_eq ?_
  refine (reads_typeRef htype isGap_space hafter).bind_eq ?_
  refine (reads_optionalDefault hdefault (hdirectives.mono (by simp))).bind_eq ?_
  exact (reads_directives hunit depth hds (hbehind.mono (by simp [typedMarks]))).bind_eq hnext

end SchemaMerge.Parser
