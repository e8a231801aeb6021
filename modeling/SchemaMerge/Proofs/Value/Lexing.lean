import SchemaMerge.Proofs.Reading.Joined
import SchemaMerge.Proofs.Token.Lossless
import SchemaMerge.Proofs.Value.Storing

/-!
# The tokens of a stored value

A value is stored as text: a literal as its token, a list inside a list literal with its brackets
and with the separator of the place where it stands. Each such text is the text of a tree
(`exists_tree_of_isItem`), and has no tokens but those that write this tree and the end of the text
(`ValueTree.lexesTo_text`). For a list this is proved along its items, in front of anything that may
follow its closing bracket.
-/

namespace SchemaMerge

/-! ## The texts of trees -/

/-- The value as an item of a list literal that is stored. -/
def ValueTree.text (separator : String) : ValueTree → String
  | literal text => text
  | list items => "[" ++ String.intercalate separator (items.values separator) ++ "]"

/-- One more item in front of others. -/
def ValueTree.cons : ValueTree → Items → Items
  | literal text, rest => .literal text rest
  | list inner, rest => .list inner rest

section

variable {separator : String}

theorem ValueTree.values_cons (tree : ValueTree) (rest : Items) :
    (tree.cons rest).values separator = tree.text separator :: rest.values separator := by
  cases tree <;> rfl

theorem ValueTree.Literals.cons {tree : ValueTree} {rest : Items} (h : tree.Literals)
    (hrest : rest.Literals) : (tree.cons rest).Literals := by
  cases tree <;> exact ⟨h, hrest⟩

/-- Texts of trees are the values of a list literal. -/
theorem exists_items_of_trees {texts : List String}
    (h : ∀ text ∈ texts, ∃ tree : ValueTree, tree.Literals ∧ tree.text separator = text) :
    ∃ items : Items, items.Literals ∧ items.values separator = texts := by
  induction texts with
  | nil => exact ⟨.nil, trivial, rfl⟩
  | cons text texts ih =>
    rw [List.forall_mem_cons] at h
    obtain ⟨⟨tree, htree, rfl⟩, hrest⟩ := h
    obtain ⟨items, hitems, rfl⟩ := ih hrest
    exact ⟨tree.cons items, htree.cons hitems, tree.values_cons items⟩

/-- An item of a list literal is the text of a tree. -/
theorem exists_tree_of_isItem {depth : Nat} {text : String} (h : IsItem separator depth text) :
    ∃ tree : ValueTree, tree.Literals ∧ tree.text separator = text := by
  induction depth generalizing text with
  | zero => exact ⟨.literal text, h, rfl⟩
  | succ depth ih =>
    rcases h with hliteral | ⟨texts, htexts, rfl⟩
    · exact ⟨.literal text, hliteral, rfl⟩
    · obtain ⟨items, hitems, rfl⟩ := exists_items_of_trees fun text htext => ih (htexts text htext)
      exact ⟨.list items, hitems, rfl⟩

end

/-! ## The tokens of items -/

/-- Commas may stand in front of the items of a list literal. -/
theorem Items.Written.comma {items : Items} {tokens : List Token} (h : items.Written tokens)
    {comma : Token} (hcomma : comma.kind = .punctuator .comma) :
    items.Written (comma :: tokens) := by
  cases h with
  | nil hcommas => exact .nil (List.forall_mem_cons.2 ⟨hcomma, hcommas⟩)
  | literal hcommas htoken hrest =>
    exact .literal (List.forall_mem_cons.2 ⟨hcomma, hcommas⟩) htoken hrest
  | list hcommas hopening hinner hclosing hrest =>
    exact .list (List.forall_mem_cons.2 ⟨hcomma, hcommas⟩) hopening hinner hclosing hrest

/-- The text starts with tokens that write the items and with a closing bracket, in front of
`behind`. -/
def Items.Leads (items : Items) (cs behind : List Char) : Prop :=
  ∀ file tracker, ∃ tokens closing later,
    tokensFrom file tracker cs = tokens ++ closing :: tokensFrom file later behind ∧
      items.Written tokens ∧ closing.kind = .punctuator .bracketClose

section

variable {items : Items} {cs behind : List Char}

theorem Items.Leads.gap {gap : List Char} (h : items.Leads cs behind)
    (hgap : ∀ c ∈ gap, isIgnored c = true) : items.Leads (gap ++ cs) behind := by
  intro file tracker
  rw [tokensFrom_gap_append hgap]
  exact h file _

/-- The tokens of a text that starts with a mark. -/
theorem exists_tokensFrom_mark {c : Char} {mark : Punctuator} (h : Punctuator.ofChar? c = some mark)
    (file : String) (tracker : Tracker) (rest : List Char) :
    ∃ token, token.kind = .punctuator mark ∧
      tokensFrom file tracker (c :: rest) = token :: tokensFrom file (tracker.step c) rest :=
  (Spells.mark h).exists_tokensFrom_append (endsBefore_mark h rest) file tracker

theorem Items.Leads.comma (h : items.Leads cs behind) : items.Leads (',' :: cs) behind := by
  intro file tracker
  obtain ⟨comma, hcomma, hcons⟩ := exists_tokensFrom_mark (c := ',') rfl file tracker cs
  obtain ⟨tokens, closing, later, htokens, hwritten, hclosing⟩ := h file (tracker.step ',')
  refine ⟨comma :: tokens, closing, later, ?_, hwritten.comma hcomma, hclosing⟩
  rw [hcons, htokens, List.cons_append]

/-- Behind the last item stands the closing bracket. -/
theorem Items.leads_nil (behind : List Char) : Items.nil.Leads (']' :: behind) behind := by
  intro file tracker
  obtain ⟨closing, hclosing, hcons⟩ := exists_tokensFrom_mark (c := ']') rfl file tracker behind
  exact ⟨[], closing, _, hcons, .nil (List.forall_mem_nil _), hclosing⟩

variable {separator : String} (hseparator : IsSeparator separator.toList)
include hseparator

/-- In front of the items left stands a separator. -/
theorem Items.Leads.charsBehind (h : items.Leads (items.chars separator behind) behind) :
    items.Leads (items.charsBehind separator behind) behind := by
  have hspace : ∀ c ∈ [' '], isIgnored c = true := List.forall_mem_singleton.2 rfl
  have hbehind : items.Leads (separator.toList ++ items.chars separator behind) behind := by
    rcases hseparator with hsep | hsep
    · rw [hsep]
      exact h.comma
    · rw [hsep]
      exact (h.gap hspace).comma
  cases items with
  | nil => exact Items.leads_nil behind
  | literal | list => exact hbehind

/-- **Items that are stored are read again**, in front of anything behind their bracket. -/
theorem Items.leads_chars (h : items.Literals) (behind : List Char) :
    items.Leads (items.chars separator behind) behind := by
  -- Behind the items of a list among the items stand the items left, so `behind` is any text.
  induction items generalizing behind with
  | nil =>
    rw [chars_nil]
    exact leads_nil behind
  | literal text rest ih =>
    intro file tracker
    obtain ⟨⟨kind, hspells, hliteral⟩, hrest⟩ := h
    have hends := Parser.endsBefore_literal hliteral (delimited_charsBehind hseparator rest behind)
    obtain ⟨tokens, closing, later, htokens, hwritten, hclosing⟩ :=
      (ih hrest behind).charsBehind hseparator file (tracker.advance text.toList)
    obtain ⟨token, rfl, hcons⟩ := hspells.exists_tokensFrom_append hends file tracker
    refine ⟨token :: tokens, closing, later, ?_, .literal (List.forall_mem_nil _) hliteral hwritten,
      hclosing⟩
    rw [chars_literal, hcons, htokens, List.cons_append]
  | list inner rest ihinner ihrest =>
    intro file tracker
    obtain ⟨hinner, hrest⟩ := h
    obtain ⟨opening, hopening, hcons⟩ := exists_tokensFrom_mark (c := '[') rfl file tracker
      (inner.chars separator (rest.charsBehind separator behind))
    obtain ⟨inside, bracket, middle, hinside, hwritten, hbracket⟩ :=
      ihinner hinner (rest.charsBehind separator behind) file (tracker.step '[')
    obtain ⟨tokens, closing, later, htokens, hwrittenRest, hclosing⟩ :=
      (ihrest hrest behind).charsBehind hseparator file middle
    refine ⟨opening :: (inside ++ bracket :: tokens), closing, later, ?_,
      .list (List.forall_mem_nil _) hopening hwritten hbracket hwrittenRest, hclosing⟩
    rw [chars_list, hcons, hinside, htokens]
    simp

end

/-! ## The tokens of a value -/

/-- The tokens of the text are the ones given and its end. -/
def LexesTo (file text : String) (tokens : List Token) : Prop :=
  ∃ last, Token.ofText file text = tokens ++ [last] ∧ last.kind = .endOfText

theorem tokensFrom_nil (file : String) (tracker : Tracker) :
    ∃ last, tokensFrom file tracker [] = [last] ∧ last.kind = .endOfText := by
  rw [tokensFrom_eq]
  exact ⟨_, rfl, rfl⟩

/-- A text that spells a token lexes to it. -/
theorem Spells.lexesTo {text : String} {kind : TokenKind} (h : Spells text.toList kind)
    (file : String) : ∃ token, LexesTo file text [token] ∧ token.kind = kind := by
  obtain ⟨token, hkind, htokens⟩ := h.exists_tokensFrom_append kind.endsBefore_nil file .start
  obtain ⟨last, hlast, hend⟩ := tokensFrom_nil file (Tracker.start.advance text.toList)
  rw [hlast, List.append_nil] at htokens
  exact ⟨token, ⟨last, htokens, hend⟩, hkind⟩

/-- **The text of a value lexes to tokens that write the value.** -/
theorem ValueTree.lexesTo_text {separator : String} (hseparator : IsSeparator separator.toList)
    {tree : ValueTree} (h : tree.Literals) (file : String) :
    ∃ tokens, LexesTo file (tree.text separator) tokens ∧ tree.Written tokens := by
  cases tree with
  | literal text =>
    obtain ⟨kind, hspells, hliteral⟩ := h
    obtain ⟨token, hlexes, rfl⟩ := hspells.lexesTo file
    exact ⟨[token], hlexes, .literal hliteral⟩
  | list items =>
    have htext : ((ValueTree.list items).text separator).toList =
        '[' :: items.chars separator [] := by simp [ValueTree.text, Items.chars]
    obtain ⟨opening, hopening, hcons⟩ := exists_tokensFrom_mark (c := '[') rfl file .start
      (items.chars separator [])
    obtain ⟨inside, closing, later, hinside, hwritten, hclosing⟩ :=
      Items.leads_chars hseparator h [] file (Tracker.start.step '[')
    obtain ⟨last, hlast, hend⟩ := tokensFrom_nil file later
    refine ⟨opening :: (inside ++ [closing]), ⟨last, ?_, hend⟩, .list hopening hwritten hclosing⟩
    rw [Token.ofText, htext, hcons, hinside, hlast]
    simp

end SchemaMerge
