import SchemaMerge.Printing.Document
import SchemaMerge.Proofs.Reading.Rules
import SchemaMerge.Proofs.RoundTrip.WellFormed

/-!
# Between the parts of a printed text

What a parser finds between the parts of a printed text: gaps, commas, descriptions and trailing
comments, and what has to follow a part so that it ends where it was printed to end.
-/

namespace SchemaMerge

/-! ## What follows a part -/

/-- The text may follow a word, and its next token is none of the marks. -/
structure Follows (marks : List Punctuator) (cs : List Char) : Prop where
  delimited : Delimited cs
  not_next : ∀ mark ∈ marks, ¬Next cs (.punctuator mark)

theorem Follows.mono {marks others : List Punctuator} {cs : List Char} (h : Follows marks cs)
    (hsub : others ⊆ marks) : Follows others cs :=
  ⟨h.delimited, fun mark hm => h.not_next mark (hsub hm)⟩

theorem Next.follows {marks : List Punctuator} {cs : List Char} {kind : TokenKind}
    (h : Next cs kind) (hd : Delimited cs) (hk : ∀ mark ∈ marks, kind ≠ .punctuator mark) :
    Follows marks cs := ⟨hd, fun mark hm hn => hk mark hm (h.unique hn)⟩

theorem delimited_cons {c : Char} (h : endsWord c = true) (cs : List Char) :
    Delimited (c :: cs) := by
  rintro _ ⟨⟩
  exact h

/-- A part that is not there, or starts with a delimiter and none of the marks, changes nothing. -/
theorem Follows.append {marks : List Punctuator} {part rest : List Char} (h : Follows marks rest)
    (hpart : part ≠ [] → Follows marks (part ++ rest)) : Follows marks (part ++ rest) := by
  cases part with
  | nil => exact h
  | cons c part => exact hpart (by simp)

/-! ## Gaps -/

/-- A level of indentation is made of spaces and tabs. -/
def IsIndent (unit : String) : Prop := ∀ c ∈ unit.toList, c = ' ' ∨ c = '\t'

theorem mem_indentation {unit : String} (h : IsIndent unit) (depth : Nat) :
    ∀ c ∈ (Printing.indentation unit depth).toList, c = ' ' ∨ c = '\t' := by
  intro c hc
  simp only [Printing.indentation, String.toList_join, List.mem_flatMap] at hc
  obtain ⟨s, hs, hc⟩ := hc
  exact h c ((List.mem_replicate.1 hs).2 ▸ hc)

theorem isGap_indentation {unit : String} (h : IsIndent unit) (depth : Nat) :
    IsGap (Printing.indentation unit depth).toList :=
  fun c hc => (mem_indentation h depth c hc).imp_right .inl

theorem isGap_line_feed : IsGap ['\n'] := by simp [IsGap]

theorem isGap_space : IsGap [' '] := by simp [IsGap]

/-! ## Entries and what stands before them -/

/-- What may stand between two entries on one line. -/
def IsSeparator (separator : List Char) : Prop := separator = [','] ∨ separator = [',', ' ']

section

variable {α : Type}

/-- Printed entries, each behind its lead. -/
def layout (text : α → List Char) (entries : List (List Char × α)) : List Char :=
  entries.flatMap fun entry => entry.1 ++ text entry.2

/-- The entries with a separator before each but the first. -/
def separated (separator : List Char) : List α → List (List Char × α)
  | [] => []
  | first :: rest => ([], first) :: rest.map (separator, ·)

/-- All parts but the first stand behind a separator. -/
theorem intercalate_map_cons (separator : List Char) (text : α → List Char) (first : α)
    (rest : List α) :
    separator.intercalate ((first :: rest).map text) =
      text first ++ rest.flatMap fun entry => separator ++ text entry := by
  induction rest generalizing first with
  | nil => simp
  | cons second rest ih =>
    rw [List.map_cons, List.map_cons, List.intercalate_cons_cons, ← List.map_cons, ih]
    simp

theorem layout_separated (text : α → List Char) (separator : List Char) (entries : List α) :
    layout text (separated separator entries) = separator.intercalate (entries.map text) := by
  cases entries with
  | nil => rfl
  | cons first rest =>
    rw [intercalate_map_cons]
    simp [layout, separated, List.flatMap_map]

theorem map_snd_separated (separator : List Char) (entries : List α) :
    (separated separator entries).map Prod.snd = entries := by
  cases entries <;> simp [separated, Function.comp_def]

theorem lead_of_mem_separated {separator : List Char} (h : IsSeparator separator)
    {entries : List α} :
    ∀ entry ∈ separated separator entries, IsGap entry.1 ∨ IsSeparator entry.1 := by
  cases entries with
  | nil => simp [separated]
  | cons first rest => simp [separated, isGap_nil, h]

/-- The lead sets an entry apart from the word before it. -/
def SetsApart (lead : List Char) : Prop := ∃ c cs, lead = c :: cs ∧ endsWord c = true

theorem IsSeparator.setsApart {separator : List Char} (h : IsSeparator separator) :
    SetsApart separator := by
  rcases h with rfl | rfl <;> exact ⟨',', _, rfl, rfl⟩

theorem fst_of_mem_tail_separated {separator : List Char} {entries : List α} :
    ∀ entry ∈ (separated separator entries).tail, entry.1 = separator := by
  cases entries with
  | nil => simp [separated]
  | cons first rest => simp [separated]

theorem SetsApart.delimited {lead : List Char} (h : SetsApart lead) (cs : List Char) :
    Delimited (lead ++ cs) := by
  obtain ⟨c, cs, rfl, hc⟩ := h
  exact delimited_cons hc _

/-- Entries on one line are laid out with a comma before each but the first. -/
theorem toList_inline (text : α → String) (entries : List α) :
    (Printing.inline (entries.map text)).toList = '(' ::
      (layout (fun entry => (text entry).toList) (separated [',', ' '] entries) ++ [')']) := by
  simp [Printing.inline, layout_separated, Function.comp_def]

/-- Lines behind a line feed each begin with one, and the last is followed by one. -/
theorem cons_line_feed_flatMap {line broken : α → List Char}
    (h : ∀ entry, '\n' :: line entry = broken entry ++ ['\n']) (entries : List α) :
    '\n' :: entries.flatMap line = entries.flatMap broken ++ ['\n'] := by
  induction entries with
  | nil => rfl
  | cons entry entries ih =>
    calc '\n' :: (entry :: entries).flatMap line
        = ('\n' :: line entry) ++ entries.flatMap line := by simp
      _ = broken entry ++ ('\n' :: entries.flatMap line) := by rw [h]; simp
      _ = (entry :: entries).flatMap broken ++ ['\n'] := by rw [ih]; simp

/-- Entries on lines of their own are laid out with a line feed before each. -/
theorem toList_wrapped (unit : String) (depth : Nat) {line : α → String}
    {lead text : α → List Char}
    (h : ∀ entry, '\n' :: (line entry).toList = lead entry ++ text entry) (entries : List α) :
    (Printing.wrapped unit depth (entries.map line)).toList = '(' ::
      (layout text (entries.map fun entry => (lead entry, entry)) ++
        ('\n' :: (Printing.indentation unit depth).toList ++ [')'])) := by
  have hlayout : layout text (entries.map fun entry => (lead entry, entry)) =
      entries.flatMap fun entry => '\n' :: (line entry).toList := by
    simp [layout, List.flatMap_map, h]
  have hlines := @cons_line_feed_flatMap α (fun entry => (line entry).toList ++ ['\n'])
    (fun entry => '\n' :: (line entry).toList) (fun entry => by simp) entries
  rw [hlayout]
  calc (Printing.wrapped unit depth (entries.map line)).toList
      = '(' :: ('\n' :: (entries.flatMap fun entry => (line entry).toList ++ ['\n'])) ++
          ((Printing.indentation unit depth).toList ++ [')']) := by
        simp [Printing.wrapped, List.flatMap_map]
    _ = _ := by rw [hlines]; simp

/-- Members on lines of their own are laid out with a line feed before each. -/
theorem toList_members {line : α → String} {lead text : α → List Char}
    (h : ∀ entry, '\n' :: (line entry).toList = lead entry ++ text entry ++ ['\n'])
    {entries : List α} (hne : entries ≠ []) :
    (Printing.members (entries.map line)).toList = ' ' :: '{' ::
      (layout text (entries.map fun entry => (lead entry, entry)) ++ ['\n', '}']) := by
  have hlines := cons_line_feed_flatMap h entries
  have hempty : (entries.map line).isEmpty = false := by simpa using hne
  have hlayout : layout text (entries.map fun entry => (lead entry, entry)) =
      entries.flatMap fun entry => lead entry ++ text entry := by
    simp [layout, List.flatMap_map]
  rw [hlayout]
  calc (Printing.members (entries.map line)).toList
      = ' ' :: '{' :: ('\n' :: entries.flatMap fun entry => (line entry).toList) ++ ['}'] := by
        simp only [Printing.members, hempty]
        simp [List.flatMap_map]
    _ = _ := by rw [hlines]; simp

end

namespace Parser

/-! ## Loops over printed entries -/

theorem after_layout {ε : Type} {text : ε → List Char} {after : List Char → Prop}
    {close : List Char} (hclose : after close) {entries : List (List Char × ε)}
    (h : ∀ entry ∈ entries, ∀ behind, after behind → after (entry.1 ++ (text entry.2 ++ behind))) :
    after (layout text entries ++ close) := by
  induction entries with
  | nil => exact hclose
  | cons entry entries ih =>
    rw [List.forall_mem_cons] at h
    simpa [layout] using h.1 _ (ih h.2)

/-- **A loop reads the entries that are laid out in front of it.** `state` is its state when some
values have been read. Each round reads one entry in front of what may stand `after` it, and gives
what is `expected` of the entry as far as `view` shows it. -/
theorem reads_entries {α β γ δ σ τ ε : Type} {turn : σ → Parser (α ⊕ τ)} {want : Want β}
    {body : τ → β → Parser σ} (text : ε → List Char) (state : List γ → σ) (result : List γ → α)
    (view : γ → δ) (expected : ε → δ) (after : List Char → Prop) {close rest : List Char}
    {entries : List (List Char × ε)}
    (hend : ∀ done, Reads (turn (state done)) close (· = .inl (result done)) rest)
    (hround : ∀ entry ∈ entries, ∀ done behind, after behind →
      done.map view ++ [expected entry.2] <+: (entries.map fun entry => expected entry.2) →
      Reads (round turn want body (state done)) (entry.1 ++ (text entry.2 ++ behind))
        (fun turned => ∃ value, turned = .inr (state (done ++ [value])) ∧
          view value = expected entry.2) behind)
    (hclose : after close)
    (hafter : ∀ entry ∈ entries.tail, ∀ behind, after behind →
      after (entry.1 ++ (text entry.2 ++ behind))) :
    Reads (loop turn want body (state [])) (layout text entries ++ close)
      (fun found => ∃ values, found = result values ∧
        values.map view = entries.map fun entry => expected entry.2) rest := by
  -- The entries left are the end of all entries, so `hafter` speaks of every one but the first.
  have hloop := @reads_loop α β σ τ (List Char × ε) turn want body
    (fun left now cs => ∃ done, now = state done ∧ cs = layout text left ++ close ∧
      (done.map view ++ left.map fun entry => expected entry.2) =
        (entries.map fun entry => expected entry.2) ∧
      (∀ entry ∈ left, entry ∈ entries) ∧ ∀ entry ∈ left.tail, entry ∈ entries.tail)
    (fun found => ∃ values, found = result values ∧
      values.map view = entries.map fun entry => expected entry.2) rest ?_ ?_ entries
  · exact hloop ⟨[], rfl, rfl, rfl, fun _ h => h, fun _ h => h⟩
  · rintro _ _ ⟨done, rfl, rfl, hall, -, -⟩
    exact (hend done).mono fun _ h => ⟨_, h, done, rfl, by simpa using hall⟩
  · rintro entry left _ _ ⟨done, rfl, rfl, hall, hmem, htail⟩
    have hbehind : after (layout text left ++ close) :=
      after_layout hclose fun e he => hafter e (htail e he)
    have hcs : layout text (entry :: left) ++ close =
        entry.1 ++ (text entry.2 ++ (layout text left ++ close)) := by simp [layout]
    rw [List.forall_mem_cons] at hmem
    refine ⟨layout text left ++ close, ?_⟩
    rw [hcs]
    refine (hround entry hmem.1 done _ hbehind ⟨_, by simpa using hall⟩).mono ?_
    rintro _ ⟨value, rfl, hvalue⟩
    exact ⟨_, rfl, done ++ [value], rfl, rfl, by simpa [hvalue] using hall, hmem.2,
      fun e he => htail e (List.mem_of_mem_tail he)⟩

/-! ## Commas -/

theorem reads_skipCommas_nil {cs : List Char} {kind : TokenKind} (hk : Next cs kind)
    (hne : kind ≠ .punctuator .comma) : Reads skipCommas cs (fun _ => True) cs :=
  (reads_takeRun_nil hk (if_neg hne)).bind fun _ _ => reads_pure trivial

theorem reads_skipCommas_comma {cs mid : List Char} {kind : TokenKind}
    (hcs : Begins cs (.punctuator .comma) mid) (hk : Next mid kind)
    (hne : kind ≠ .punctuator .comma) : Reads skipCommas cs (fun _ => True) mid :=
  (reads_takeRun_cons hcs (if_pos rfl) (reads_takeRun_nil hk (if_neg hne))).bind fun _ _ =>
    reads_pure trivial

/-- Before an entry stands a gap or a separator. -/
theorem reads_skipCommas_lead {lead cs : List Char} (hlead : IsGap lead ∨ IsSeparator lead)
    {kind : TokenKind} (hk : Next cs kind) (hne : kind ≠ .punctuator .comma) :
    ∃ gap, IsGap gap ∧ Reads skipCommas (lead ++ cs) (fun _ => True) (gap ++ cs) := by
  have hcomma (cs : List Char) : Begins (',' :: cs) (.punctuator .comma) cs := begins_mark rfl cs
  rcases hlead with hgap | rfl | rfl
  · exact ⟨lead, hgap, reads_skipCommas_nil ((next_gap_append hgap).2 hk) hne⟩
  · exact ⟨[], isGap_nil, reads_skipCommas_comma (hcomma cs) hk hne⟩
  · exact ⟨[' '], isGap_space,
      reads_skipCommas_comma (hcomma _) ((next_gap_append isGap_space).2 hk) hne⟩

/-! ## Descriptions and comments -/

theorem reads_swapCarried {cs : List Char} : Reads (swapCarried []) cs (· = []) cs :=
  fun feed hfeed => ⟨feed.carried, _, rfl, hfeed.carried, ⟨rfl, hfeed.exists_tracker⟩⟩

theorem reads_descriptions {cs rest : List Char} {texts : List String}
    (h : Reads (takeRun TokenKind.description?) cs (· = texts) rest) :
    Reads descriptions cs (· = texts) rest :=
  reads_swapCarried.bind_eq (h.bind_eq (reads_pure rfl))

theorem reads_descriptions_nil {cs : List Char} {kind : TokenKind} (hk : Next cs kind)
    (hd : kind.description? = none) : Reads descriptions cs (· = []) cs :=
  reads_descriptions (reads_takeRun_nil hk hd)

theorem endsBefore_description {kind : TokenKind} {text : String} {rest : List Char}
    (h : kind.description? = some text) : kind.EndsBefore ('\n' :: rest) := by
  cases kind with
  | string | comment =>
    rintro _ ⟨⟩
    rfl
  | blockString => trivial
  | _ => cases h

/-- A description on a line of its own. -/
theorem begins_description {kind : TokenKind} {text : String} (hspells : Spells text.toList kind)
    (htext : kind.description? = some text) {gap : List Char} (hgap : IsGap gap)
    (rest : List Char) : Begins (gap ++ (text.toList ++ '\n' :: rest)) kind ('\n' :: rest) :=
  (begins_of_spells hspells (endsBefore_description htext)).gap hgap

/-- The printed description of a node is read in front of it. -/
theorem reads_description {unit : String} (hunit : IsIndent unit) (depth : Nat)
    {descriptions : List String} (hd : ∀ text ∈ descriptions, IsDescription text)
    {gap cs : List Char} (hgap : IsGap gap) {kind : TokenKind} (hk : Next cs kind)
    (hkd : kind.description? = none) :
    ∃ gap', IsGap gap' ∧ Reads Parser.descriptions
      (gap ++ (Printing.description unit depth descriptions).toList ++
        (Printing.indentation unit depth).toList ++ cs) (· = descriptions.take 1) (gap' ++ cs) := by
  have hindent := isGap_indentation hunit depth
  cases descriptions with
  | nil =>
    refine ⟨gap ++ (Printing.indentation unit depth).toList, hgap.append hindent, ?_⟩
    have hcs := (next_gap_append (hgap.append hindent)).2 hk
    simpa [Printing.description] using reads_descriptions_nil hcs hkd
  | cons text others =>
    obtain ⟨textKind, hspells, htext⟩ := hd text List.mem_cons_self
    have hrest := (next_gap_append (isGap_line_feed.append hindent)).2 hk
    refine ⟨_, isGap_line_feed.append hindent, reads_descriptions ?_⟩
    have hbegins := begins_description hspells htext (hgap.append hindent)
      ((Printing.indentation unit depth).toList ++ cs)
    simpa [Printing.description] using
      reads_takeRun_cons hbegins htext (reads_takeRun_nil hrest hkd)

theorem reads_innerComments_nil {cs : List Char} {kind : TokenKind} (hk : Next cs kind)
    (hc : kind.comment? = none) : Reads innerComments cs (· = []) cs :=
  reads_takeRun_nil hk hc

/-- The printed comment of a node. -/
theorem begins_trailingComment {text : String} (h : IsComment text) (others : List String)
    (rest : List Char) :
    Begins ((Printing.trailingComment (text :: others)).toList ++ '\n' :: rest) (.comment text)
      ('\n' :: rest) := by
  simpa [Printing.trailingComment] using begins_description h rfl isGap_space rest

/-- The printed comment of a node trails it. -/
theorem trailing?_of_printed {comments : List String} (hc : ∀ text ∈ comments, IsComment text)
    {feed : Feed} {rest : List Char}
    (hfeed : feed.At ((Printing.trailingComment comments).toList ++ '\n' :: rest)) :
    feed.trailing? = comments.head? := by
  cases comments with
  | nil => exact hfeed.trailing?_of_line_feed
  | cons text others =>
    have hat : feed.At ([' '] ++ text.toList ++ '\n' :: rest) := by
      simpa [Printing.trailingComment] using hfeed
    exact hat.trailing?_of_comment (by simp) (hc text List.mem_cons_self)
      (endsBefore_description rfl)

/-- The printed comment of a node is read behind it. -/
theorem reads_trailingComment {comments : List String} (hc : ∀ text ∈ comments, IsComment text)
    {rest : List Char} {kind : TokenKind} (hk : Next rest kind)
    (hne : kind ≠ .punctuator .comma) :
    Reads trailingComment ((Printing.trailingComment comments).toList ++ '\n' :: rest)
      (· = comments.take 1) ('\n' :: rest) := by
  cases comments with
  | nil =>
    have hnext : Next ('\n' :: rest) kind := (next_gap_append isGap_line_feed).2 hk
    refine (reads_skipCommas_nil hnext hne).bind fun _ _ feed hfeed => ?_
    refine ⟨[], feed, ?_, rfl, hfeed⟩
    simp only [bind_run, feed_run, hfeed.trailing?_of_line_feed, pure_run]
  | cons text others =>
    have hbegins := begins_trailingComment (hc text List.mem_cons_self) others rest
    refine (reads_skipCommas_nil hbegins.next (by simp)).bind fun _ _ feed hfeed => ?_
    refine ⟨[text], feed.advance, ?_, rfl, hfeed.before.advance hbegins⟩
    simp only [bind_run, feed_run, trailing?_of_printed hc hfeed, List.head?_cons, advance_run,
      pure_run]

end Parser

end SchemaMerge
