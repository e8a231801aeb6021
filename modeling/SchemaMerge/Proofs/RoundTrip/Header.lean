import SchemaMerge.Proofs.RoundTrip.Member
import SchemaMerge.Reading.Document

/-!
# Behind the header of a printed definition

A definition without a body is followed by the line break that ends it, and then perhaps by a
comment that describes the next definition. Its parser takes that comment before it sees that no
body comes, and hands it on. So a feed behind a definition is not always in front of a text: `Ready`
says which descriptions will be found on it, and in front of what. `Upcoming` says the same of a
text.

## Results

* `leads_headerComments`: behind a header without a body the comment of the definition is read, and
  the feed is ready for what comes next.
* `leads_body`: header comments, members and trailing comment together.
-/

namespace SchemaMerge

/-! ## What comes next -/

/-- The kinds of token with which a definition or the end of the text starts. -/
def StartsBlock (kind : TokenKind) : Prop :=
  kind = .endOfText ∨ ∃ word : DefinitionWord, kind = .keyword word.keyword

/-- The text holds at most one description, and goes on with `rest`, where a definition starts or
the text ends. -/
inductive Upcoming (rest : List Char) : List String → List Char → Prop
  | bare {gap : List Char} {kind : TokenKind} (hgap : IsGap gap) (hk : Next rest kind)
      (hstart : StartsBlock kind) : Upcoming rest [] (gap ++ rest)
  | described {gap : List Char} {kind textKind : TokenKind} {text : String} (hgap : IsGap gap)
      (hk : Next rest kind) (hstart : StartsBlock kind) (hspells : Spells text.toList textKind)
      (htext : textKind.description? = some text) :
      Upcoming rest [text] (gap ++ (text.toList ++ '\n' :: rest))

/-- On the feed the descriptions are found, in front of `rest`. -/
def Feed.Ready (texts : List String) (rest : List Char) (feed : Feed) : Prop :=
  ∃ gap feed', IsGap gap ∧ Parser.descriptions.run feed = .ok (texts, feed') ∧
    feed'.Before (gap ++ rest)

/-- Nothing on the feed belongs to the definition before it. -/
structure Feed.Idle (feed : Feed) : Prop where
  exists_next : ∃ token, feed.next? = some token ∧ ∀ mark, token.kind ≠ .punctuator mark
  trailing? : feed.trailing? = none

namespace StartsBlock

variable {kind : TokenKind}

theorem ne_punctuator (h : StartsBlock kind) (mark : Punctuator) : kind ≠ .punctuator mark := by
  rcases h with rfl | ⟨word, rfl⟩ <;> simp

theorem description? (h : StartsBlock kind) : kind.description? = none := by
  rcases h with rfl | ⟨word, rfl⟩ <;> rfl

theorem comment? (h : StartsBlock kind) : kind.comment? = none := by
  rcases h with rfl | ⟨word, rfl⟩ <;> rfl

theorem ne_implements (h : StartsBlock kind) : kind ≠ .keyword .implements := by
  rcases h with rfl | ⟨word, rfl⟩
  · simp
  · cases word <;> simp [DefinitionWord.keyword]

end StartsBlock

namespace Upcoming

variable {rest cs : List Char} {texts : List String}

theorem gap {gap : List Char} (hgap : IsGap gap) (h : Upcoming rest texts cs) :
    Upcoming rest texts (gap ++ cs) := by
  cases h with
  | bare hgap' hk hstart =>
    rw [← List.append_assoc]
    exact bare (hgap.append hgap') hk hstart
  | described hgap' hk hstart hspells htext =>
    rw [← List.append_assoc]
    exact described (hgap.append hgap') hk hstart hspells htext

/-- The token that comes next starts a definition or is the description of one. -/
theorem next (h : Upcoming rest texts cs) :
    ∃ kind, Next cs kind ∧ (StartsBlock kind ∨ ∃ text, kind.description? = some text) := by
  cases h with
  | bare hgap hk hstart => exact ⟨_, (next_gap_append hgap).2 hk, .inl hstart⟩
  | described hgap hk hstart hspells htext =>
    exact ⟨_, (Parser.begins_description hspells htext hgap rest).next, .inr ⟨_, htext⟩⟩

theorem not_next (h : Upcoming rest texts cs) (mark : Punctuator) :
    ¬Next cs (.punctuator mark) := by
  obtain ⟨kind, hk, hstart | ⟨text, htext⟩⟩ := h.next
  · exact fun hn => hstart.ne_punctuator mark (hk.unique hn)
  · rintro hn
    cases hk.unique hn
    cases htext

/-- A line break before what comes next ends the line. -/
theorem endsLine (h : Upcoming rest texts cs) : Parser.EndsLine ('\n' :: cs) := by
  obtain ⟨kind, hk, -⟩ := h.next
  exact Parser.endsLine_of_next hk fun mark _ he => h.not_next mark (he ▸ hk)

/-- The feed in front of a text is ready for it, with the comments that it carries. -/
theorem ready (h : Upcoming rest texts cs) {feed : Feed} (hfeed : feed.Before cs)
    (carried : List String) : ({ feed with carried } : Feed).Ready (carried ++ texts) rest := by
  have hrun {as : List String} {feed' : Feed}
      (htake : (Parser.takeRun TokenKind.description?).run feed = .ok (as, feed')) :
      Parser.descriptions.run { feed with carried } = .ok (carried ++ as, feed') := by
    simp only [Parser.descriptions, Parser.bind_run, Parser.swapCarried_run, hfeed.with_carried_nil,
      htake, Parser.pure_run]
  cases h with
  | bare hgap hk hstart =>
    obtain ⟨span, hnext⟩ := hfeed.next? ((next_gap_append hgap).2 hk)
    exact ⟨_, feed, hgap, hrun (Parser.takeRun_run_of_next? hnext hstart.description?), hfeed⟩
  | described hgap hk hstart hspells htext =>
    have hbegins := Parser.begins_description hspells htext hgap rest
    have hrest := (next_gap_append isGap_line_feed).2 hk
    obtain ⟨_, feed', htake, rfl, hrest⟩ := Parser.leads_takeRun_cons hbegins htext
      (Parser.reads_takeRun_nil hrest hstart.description?) feed hfeed
    exact ⟨['\n'], feed', isGap_line_feed, hrun htake, hrest.before⟩

theorem ready_of_at (h : Upcoming rest texts cs) {feed : Feed} (hfeed : feed.At cs) :
    feed.Ready texts rest := by
  have hready := h.ready hfeed.before []
  rwa [hfeed.before.with_carried_nil] at hready

end Upcoming

namespace Parser

/-! ## Comments behind a header -/

theorem comment?_of_description {kind : TokenKind} {text comment : String}
    (ht : kind.description? = some text) (hc : kind.comment? = some comment) :
    kind.comment? = some text := by
  cases kind with
  | comment => exact ht
  | _ => cases hc

/-- The comments in front of what comes next: one that describes a definition, or none. -/
theorem reads_innerComments {rest cs : List Char} {texts : List String}
    (h : Upcoming rest texts cs) :
    ∃ carried left mid, texts = carried ++ left ∧ Upcoming rest left mid ∧
      Reads innerComments ('\n' :: cs) (· = carried) ('\n' :: mid) := by
  obtain ⟨kind, hk, -⟩ := h.next
  have hnext : Next ('\n' :: cs) kind := (next_gap_append isGap_line_feed).2 hk
  cases hcomment : kind.comment? with
  | none => exact ⟨[], texts, cs, rfl, h, reads_takeRun_nil hnext hcomment⟩
  | some comment =>
    cases h with
    | bare hgap hk' hstart =>
      cases hk.unique ((next_gap_append hgap).2 hk')
      rw [hstart.comment?] at hcomment
      cases hcomment
    | described hgap hk' hstart hspells htext =>
      have hbegins := begins_description hspells htext (isGap_line_feed.append hgap) rest
      cases hnext.unique hbegins.next
      have hrest := (next_gap_append isGap_line_feed).2 hk'
      refine ⟨[_], [], rest, rfl, .bare isGap_nil hk' hstart, ?_⟩
      exact reads_takeRun_cons hbegins (comment?_of_description htext hcomment)
        (reads_takeRun_nil hrest hstart.comment?)

/-- **Behind a header without a body** the comment of the definition is read, and the feed is ready
for what comes next. -/
theorem leads_headerComments {comments : List String} (hc : ∀ text ∈ comments, IsComment text)
    {rest cs : List Char} {texts : List String} (h : Upcoming rest texts cs) :
    Leads headerComments
      (fun feed => feed.At ((Printing.trailingComment comments).toList ++ '\n' :: cs))
      fun found feed => found = comments.take 1 ∧ feed.Idle ∧ feed.Ready texts rest := by
  obtain ⟨carried, left, mid, rfl, hmid, hcarried⟩ := reads_innerComments h
  have hread : Reads innerComments ((Printing.trailingComment comments).toList ++ '\n' :: cs)
      (· = comments.take 1 ++ carried) ('\n' :: mid) := by
    cases comments with
    | nil => exact hcarried
    | cons text others =>
      exact reads_takeRun_cons (begins_trailingComment (hc text List.mem_cons_self) others cs) rfl
        hcarried
  intro feed hfeed
  obtain ⟨_, feed', hinner, rfl, hfeed'⟩ := hread feed hfeed
  have hidle (carried : List String) : ({ feed' with carried } : Feed).Idle := by
    obtain ⟨kind, hk, -⟩ := hmid.next
    obtain ⟨span, hnext⟩ := hfeed'.next? ((next_gap_append isGap_line_feed).2 hk)
    exact ⟨⟨_, hnext, fun mark he => hmid.not_next mark (he ▸ hk)⟩,
      hfeed'.trailing?_of_line_feed⟩
  -- Only a comment on the line of the header is the definition's; the other one is carried on.
  refine ⟨comments.take 1, { feed' with carried }, ?_, rfl, hidle carried,
    (hmid.gap isGap_line_feed).ready hfeed'.before carried⟩
  have hbrace : feed'.nextIs (.punctuator .braceOpen) = false :=
    hfeed'.nextIs_punctuator_of_not_next ((hmid.gap isGap_line_feed).not_next _)
  simp only [headerComments, nextIs, bind_run, feed_run, pure_run, hbrace, hinner,
    trailing?_of_printed hc hfeed]
  cases comments with
  | nil =>
    cases carried with
    | nil => simp [hfeed'.before.with_carried_nil]
    | cons => simp
  | cons => simp

/-- In front of a body no comment is read. -/
theorem reads_headerComments_of_brace {cs rest : List Char}
    (hcs : Begins cs (.punctuator .braceOpen) rest) : Reads headerComments cs (· = []) cs := by
  intro feed hfeed
  obtain ⟨_, feed', hinner, rfl, hfeed'⟩ := reads_innerComments_nil hcs.next rfl feed hfeed
  refine ⟨[], feed', ?_, rfl, hfeed'⟩
  simp [headerComments, nextIs, hinner]

/-! ## Bodies -/

theorem optionalMembers_run_of_idle {α : Type} (what : String)
    (member : List String → String × Span → Parser α) {feed : Feed} (h : feed.Idle) :
    (optionalMembers what member).run feed = .ok ([], feed) := by
  obtain ⟨token, hnext, hne⟩ := h.exists_next
  simp [optionalMembers, nextIs, Feed.nextIs, hnext, hne]

theorem trailingComment_run_of_idle {feed : Feed} (h : feed.Idle) :
    trailingComment.run feed = .ok ([], feed) := by
  obtain ⟨token, hnext, hne⟩ := h.exists_next
  have hcommas : skipCommas.run feed = .ok ((), feed) := by
    rw [skipCommas, bind_run, takeRun_run_of_next? hnext (if_neg (hne .comma))]
    rfl
  simp only [trailingComment, bind_run, hcommas, feed_run, h.trailing?, pure_run]

/-- Members that are there start with a brace. -/
theorem begins_members {lines : List String} (hne : lines ≠ []) (rest : List Char) :
    ∃ rest', Begins ((Printing.members lines).toList ++ rest) (.punctuator .braceOpen) rest' := by
  have hempty : lines.isEmpty = false := by simpa using hne
  refine ⟨'\n' :: ((String.join lines).toList ++ '}' :: rest), ?_⟩
  simpa [Printing.members, hempty] using (begins_mark (c := '{') rfl _).gap isGap_space

theorem follows_members {marks : List Punctuator} (hmarks : .braceOpen ∉ marks)
    (lines : List String) {rest : List Char} (hrest : Follows marks rest) :
    Follows marks ((Printing.members lines).toList ++ rest) := by
  by_cases hne : lines = []
  · subst hne
    exact hrest
  · obtain ⟨rest', hbegins⟩ := begins_members hne rest
    have hempty : lines.isEmpty = false := by simpa using hne
    refine hbegins.next.follows ?_ fun mark hm he => hmarks ?_
    · simpa [Printing.members, hempty] using delimited_cons rfl _
    · cases he
      exact hm

/-- **The comments and the members of a definition are read** behind its header, with or without a
body. -/
theorem leads_body {α β δ ε : Type} {what : String}
    {member : List String → String × Span → Parser α}
    (build : List String → List α → List String → β) {line : ε → String} {view : α → δ}
    {expected : ε → δ} {entries : List ε}
    (hmembers : ∀ {rest : List Char}, ¬Next rest (.punctuator .braceOpen) →
      Reads (optionalMembers what member) ((Printing.members (entries.map line)).toList ++ rest)
        (fun found => found.map view = entries.map expected) rest)
    {comments : List String} (hc : ∀ text ∈ comments, IsComment text) {rest cs : List Char}
    {texts : List String} (h : Upcoming rest texts cs) :
    Leads
      (do
        let inner ← headerComments
        let found ← optionalMembers what member
        let trailing ← trailingComment
        return build inner found trailing)
      (fun feed => feed.At ((Printing.members (entries.map line)).toList ++
        ((Printing.trailingComment comments).toList ++ '\n' :: cs)))
      fun built feed => (∃ inner found trailing, inner ++ trailing = comments.take 1 ∧
        found.map view = entries.map expected ∧ built = build inner found trailing) ∧
        feed.Ready texts rest := by
  by_cases hne : entries = []
  · subst hne
    intro feed hfeed
    obtain ⟨_, feed', hinner, rfl, hidle, hready⟩ := leads_headerComments hc h feed hfeed
    refine ⟨_, feed', ?_, ⟨_, [], [], List.append_nil _, rfl, rfl⟩, hready⟩
    simp only [bind_run, hinner, optionalMembers_run_of_idle what member hidle,
      trailingComment_run_of_idle hidle, pure_run]
  · have hbehind := follows_trailingComment hc h.endsLine
    obtain ⟨_, hbegins⟩ := @begins_members (entries.map line) (by simpa using hne)
      ((Printing.trailingComment comments).toList ++ '\n' :: cs)
    refine (reads_headerComments_of_brace hbegins).leads_eq ?_
    refine (hmembers (hbehind.not_next .braceOpen (by decide))).leads fun found hfound => ?_
    refine (reads_trailingComment_of_endsLine hc h.endsLine).leads_eq ?_
    exact leads_pure fun feed hfeed =>
      ⟨⟨[], found, _, rfl, hfound, rfl⟩, (h.gap isGap_line_feed).ready_of_at hfeed⟩

end Parser

end SchemaMerge
