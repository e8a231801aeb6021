import SchemaMerge.Proofs.Value.Reading

/-!
# What is stored of a list literal

A list inside a list literal is stored as one text, with the separator of the place where it stands.
No two trees are stored alike: a literal is found again in front of what follows it, whatever it
holds between its quotes, so the text of a list can be taken apart along its items (`chars_inj`).
Printed values are read as the same values again.

## Results

* `valuePlaces_exact`: defaults and the arguments of directives read values exactly up to the depth
  that is allowed, and store them without loss.
-/

namespace SchemaMerge

/-! ## Literals at the leaves -/

/-- All leaves are literals as they are read from a text. -/
def Items.Literals : Items → Prop
  | nil => True
  | literal text rest => IsLiteral text ∧ rest.Literals
  | list inner rest => inner.Literals ∧ rest.Literals

@[inherit_doc Items.Literals]
def ValueTree.Literals : ValueTree → Prop
  | literal text => IsLiteral text
  | list items => items.Literals

theorem Items.isItem_of_mem_values {items : Items} (h : items.Literals) (separator : String)
    {depth : Nat} (hdepth : items.depth ≤ depth) :
    ∀ text ∈ items.values separator, IsItem separator depth text := by
  induction items generalizing depth with
  | nil => exact List.forall_mem_nil _
  | literal text rest ih =>
    exact List.forall_mem_cons.2 ⟨isItem_of_isLiteral h.1 separator depth, ih h.2 hdepth⟩
  | list inner rest ihinner ihrest =>
    obtain ⟨hinner, hrest⟩ := Nat.max_le.1 hdepth
    obtain ⟨depth, rfl⟩ : ∃ d, depth = d + 1 := Nat.exists_eq_add_one_of_ne_zero (by omega)
    refine List.forall_mem_cons.2 ⟨.inr ?_, ihrest h.2 hrest⟩
    exact ⟨inner.values separator, ihinner h.1 (Nat.le_of_succ_le_succ hinner), rfl⟩

theorem ValueTree.areValues_stored {tree : ValueTree} (h : tree.Literals) (separator : String)
    (hdepth : tree.depth ≤ Parser.maxListDepth) :
    AreValues separator (tree.stored separator).2 (tree.stored separator).1 := by
  cases tree with
  | literal text => exact ⟨text, h, rfl⟩
  | list items => exact Items.isItem_of_mem_values h separator (Nat.le_of_succ_le_succ hdepth)

/-! ## Taking a text apart -/

/-- A literal is found again in front of a delimiter. -/
theorem literal_append_inj {text other : String} (h : IsLiteral text) (ho : IsLiteral other)
    {behind others : List Char} (hbehind : Delimited behind) (hothers : Delimited others)
    (heq : text.toList ++ behind = other.toList ++ others) : text = other ∧ behind = others := by
  obtain ⟨kind, hspells, hliteral⟩ := h
  obtain ⟨otherKind, hotherSpells, hotherLiteral⟩ := ho
  have hscan := scan_append_rest hspells (Parser.endsBefore_literal hliteral hbehind)
  rw [heq, scan_append_rest hotherSpells (Parser.endsBefore_literal hotherLiteral hothers)] at hscan
  simp only [Scan.token, Scan.mk.injEq] at hscan
  exact ⟨String.toList_inj.1 hscan.2.1.symm, hscan.2.2.1.symm⟩

namespace Items

variable {separator : String}

/-- The items as they are written when they are stored, the closing bracket and what follows it. -/
def chars (separator : String) (items : Items) (behind : List Char) : List Char :=
  (String.intercalate separator (items.values separator)).toList ++ ']' :: behind

/-- What is written behind an item. -/
def charsBehind (separator : String) : Items → List Char → List Char
  | nil, behind => ']' :: behind
  | items, behind => separator.toList ++ items.chars separator behind

theorem chars_nil (behind : List Char) : nil.chars separator behind = ']' :: behind := by
  simp [chars, values]

theorem chars_literal (text : String) (rest : Items) (behind : List Char) :
    (literal text rest).chars separator behind =
      text.toList ++ rest.charsBehind separator behind := by
  cases rest <;> simp [chars, charsBehind, values]

theorem chars_list (inner rest : Items) (behind : List Char) :
    (list inner rest).chars separator behind =
      '[' :: inner.chars separator (rest.charsBehind separator behind) := by
  cases rest <;> simp [chars, charsBehind, values]

theorem delimited_charsBehind (hseparator : IsSeparator separator.toList) (items : Items)
    (behind : List Char) : Delimited (items.charsBehind separator behind) := by
  cases items with
  | nil => exact delimited_cons rfl behind
  | literal | list => exact hseparator.setsApart.delimited _

/-- Behind an item stands the closing bracket, or the separator and the items left. -/
theorem charsBehind_inj (hseparator : IsSeparator separator.toList) {items others : Items}
    {behind otherBehind : List Char}
    (hchars : items.chars separator behind = others.chars separator otherBehind →
      items = others ∧ behind = otherBehind)
    (heq : items.charsBehind separator behind = others.charsBehind separator otherBehind) :
    items = others ∧ behind = otherBehind := by
  have hne (cs ds : List Char) : ']' :: cs ≠ separator.toList ++ ds := by
    rcases hseparator with hsep | hsep <;> simp [hsep]
  cases items with
  | nil =>
    cases others with
    | nil => exact ⟨rfl, (List.cons.inj heq).2⟩
    | literal | list => exact absurd heq (hne _ _)
  | literal | list =>
    cases others with
    | nil => exact absurd heq.symm (hne _ _)
    | literal | list => exact hchars (List.append_cancel_left heq)

/-- A literal is no bracket. -/
theorem literal_append_ne {text : String} (h : IsLiteral text) {c : Char} {mark : Punctuator}
    (hmark : Punctuator.ofChar? c = some mark) {behind : List Char} (hbehind : Delimited behind)
    (others : List Char) : text.toList ++ behind ≠ c :: others := by
  intro heq
  obtain ⟨kind, hbegins, hliteral⟩ := Parser.begins_literal h hbehind
  rw [heq] at hbegins
  have hkind := hbegins.next.unique (begins_mark hmark others).next
  exact Parser.ne_punctuator_of_literal hliteral mark hkind

/-- **The text of a list can be taken apart along its items.** -/
theorem chars_inj (hseparator : IsSeparator separator.toList) {items others : Items}
    (h : items.Literals) (ho : others.Literals) {behind otherBehind : List Char}
    (heq : items.chars separator behind = others.chars separator otherBehind) :
    items = others ∧ behind = otherBehind := by
  have hdelimited := delimited_charsBehind hseparator
  induction items generalizing others behind otherBehind with
  | nil =>
    rw [chars_nil] at heq
    cases others with
    | nil =>
      rw [chars_nil] at heq
      exact ⟨rfl, (List.cons.inj heq).2⟩
    | literal text rest =>
      rw [chars_literal] at heq
      exact absurd heq.symm (literal_append_ne ho.1 rfl (hdelimited _ _) _)
    | list inner rest =>
      rw [chars_list] at heq
      exact absurd (List.cons.inj heq).1 (by decide)
  | literal text rest ih =>
    rw [chars_literal] at heq
    cases others with
    | nil =>
      rw [chars_nil] at heq
      exact absurd heq (literal_append_ne h.1 rfl (hdelimited _ _) _)
    | literal otherText otherRest =>
      rw [chars_literal] at heq
      obtain ⟨rfl, hrest⟩ := literal_append_inj h.1 ho.1 (hdelimited _ _) (hdelimited _ _) heq
      obtain ⟨rfl, hbehind⟩ := charsBehind_inj hseparator (ih h.2 ho.2) hrest
      exact ⟨rfl, hbehind⟩
    | list inner otherRest =>
      rw [chars_list] at heq
      exact absurd heq (literal_append_ne h.1 rfl (hdelimited _ _) _)
  | list inner rest ihinner ihrest =>
    rw [chars_list] at heq
    cases others with
    | nil =>
      rw [chars_nil] at heq
      exact absurd (List.cons.inj heq).1 (by decide)
    | literal text otherRest =>
      rw [chars_literal] at heq
      exact absurd heq.symm (literal_append_ne ho.1 rfl (hdelimited _ _) _)
    | list otherInner otherRest =>
      rw [chars_list] at heq
      obtain ⟨rfl, hinside⟩ := ihinner h.1 ho.1 (List.cons.inj heq).2
      obtain ⟨rfl, hbehind⟩ := charsBehind_inj hseparator (ihrest h.2 ho.2) hinside
      exact ⟨rfl, hbehind⟩

theorem values_injective (hseparator : IsSeparator separator.toList) {items others : Items}
    (h : items.Literals) (ho : others.Literals)
    (heq : items.values separator = others.values separator) : items = others := by
  have hchars : items.chars separator [] = others.chars separator [] := by
    rw [chars, chars, heq]
  exact (chars_inj hseparator h ho hchars).1

end Items

/-- **No two values are stored alike.** -/
theorem ValueTree.stored_injective {separator : String} (hseparator : IsSeparator separator.toList)
    {tree other : ValueTree} (h : tree.Literals) (ho : other.Literals)
    (heq : tree.stored separator = other.stored separator) : tree = other := by
  cases tree with
  | literal text =>
    cases other with
    | literal otherText =>
      obtain rfl : text = otherText := by simpa [stored] using heq
      rfl
    | list => exact absurd (Prod.mk.inj heq).2 (by decide)
  | list items =>
    cases other with
    | literal => exact absurd (Prod.mk.inj heq).2 (by decide)
    | list others =>
      have hvalues := (Prod.mk.inj heq).1
      rw [Items.values_injective hseparator h ho hvalues]

/-- Brackets, commas and quotes inside a string are not mistaken for those of a list. -/
example :
    (ValueTree.list (.list (.literal "\"a,[b\"" (.list .nil .nil)) (.literal "C" .nil))).stored ","
      = (["[\"a,[b\",[]]", "C"], true) := by decide

/-! ## The places of values -/

/-- A place in which values are written. -/
structure ValuePlace (ε β : Type) where
  /-- The tokens write the values, with commas anywhere between the items of list literals. -/
  Written : ε → List Token → Prop
  /-- The values that are written. -/
  trees : ε → List ValueTree
  /-- The texts are such as are read from a text. -/
  Genuine : ε → Prop
  stored : ε → β
  parser : Parser β
  printed : β → String
  /-- What may stand behind the printed text. -/
  Ends : List Char → Prop

namespace ValuePlace

/-- In the place values are read exactly up to the depth that is allowed, and stored without
loss. -/
structure Exact {ε β : Type} (place : ValuePlace ε β) : Prop where
  /-- What is nested no deeper than allowed is read with all its tokens. -/
  gives : ∀ {source tokens}, place.Written source tokens →
    (∀ tree ∈ place.trees source, tree.depth ≤ Parser.maxListDepth) →
      ∀ behind, Parser.Gives tokens behind place.parser (place.stored source)
  /-- What is nested deeper is refused at the first bracket that opens a list deeper than
  allowed. -/
  refuses : ∀ {source tokens}, place.Written source tokens →
    (∃ tree ∈ place.trees source, Parser.maxListDepth < tree.depth) →
      ∀ behind, ∃ opening, Parser.firstTooDeep 0 tokens = some opening ∧
        Parser.Refuses (tokens ++ behind) place.parser (Parser.nestingTooDeep opening.span)
  /-- What is stored is printed so that it is read again. -/
  again : ∀ {source}, place.Genuine source →
    (∀ tree ∈ place.trees source, tree.depth ≤ Parser.maxListDepth) →
      ∀ {rest}, place.Ends rest →
        Parser.Reads place.parser ((place.printed (place.stored source)).toList ++ rest)
          (· = place.stored source) rest
  /-- What is stored tells what was written. -/
  injective : ∀ {source other}, place.Genuine source → place.Genuine other →
    place.stored source = place.stored other → source = other

/-- The place behind the equals sign of a default. -/
def default : ValuePlace ValueTree (Option DefaultValue) where
  Written := Parser.WrittenDefault
  trees tree := [tree]
  Genuine := ValueTree.Literals
  stored tree := some ⟨(tree.stored ", ").1, (tree.stored ", ").2⟩
  parser := Parser.optionalDefault
  printed := Printing.defaultValue
  Ends := Follows [.equals]

/-- The place between the parentheses behind a directive. Printed, it stands at `depth`. -/
def arguments (unit : String) (depth : Nat) :
    ValuePlace (List (String × ValueTree)) (List DirectiveArgument × List String) where
  Written := Parser.WrittenInParens
  trees arguments := arguments.map Prod.snd
  Genuine arguments := ∀ argument ∈ arguments, IsName argument.1 ∧ argument.2.Literals
  stored arguments := (arguments.map storedArgument, [])
  parser := Parser.directiveArguments
  printed found := Printing.directiveArguments unit depth found.1
  Ends rest := ¬Next rest (.punctuator .parenOpen)

theorem exact_default : default.Exact where
  gives h hdepth behind := Parser.gives_optionalDefault h (by simpa [default] using hdepth) behind
  refuses h hdepth behind :=
    Parser.refuses_optionalDefault h (by simpa [default] using hdepth) behind
  again {tree} hgenuine hdepth rest hrest := by
    have hshallow := hdepth tree List.mem_cons_self
    have hvalues := ValueTree.areValues_stored hgenuine ", " hshallow
    refine Parser.reads_optionalDefault ?_ hrest
    rintro _ ⟨⟩
    exact hvalues
  injective h ho heq := by
    have hstored := DefaultValue.mk.inj (Option.some.inj heq)
    exact ValueTree.stored_injective (.inr rfl) h ho (Prod.ext hstored.1 hstored.2)

/-- The arguments of a directive are stored one by one. -/
theorem storedArguments_injective {named others : List (String × ValueTree)}
    (h : ∀ argument ∈ named, argument.2.Literals) (ho : ∀ argument ∈ others, argument.2.Literals)
    (heq : named.map storedArgument = others.map storedArgument) : named = others := by
  induction named generalizing others with
  | nil => exact (List.map_eq_nil_iff.1 heq.symm).symm
  | cons first rest ih =>
    cases others with
    | nil => exact absurd heq (by simp)
    | cons other otherRest =>
      rw [List.forall_mem_cons] at h ho
      obtain ⟨hfirst, hrest⟩ := List.cons.inj heq
      obtain ⟨hname, hvalues, hlist⟩ := DirectiveArgument.mk.inj hfirst
      have htree := ValueTree.stored_injective (.inl rfl) h.1 ho.1 (Prod.ext hvalues hlist)
      rw [Prod.ext hname htree, ih h.2 ho.2 hrest]

theorem exact_arguments {unit : String} (hunit : IsIndent unit) (depth : Nat) :
    (arguments unit depth).Exact where
  gives h hdepth behind :=
    Parser.gives_directiveArguments h (List.forall_mem_map.1 hdepth) behind
  refuses h hdepth behind := by
    obtain ⟨_, hmem, hdeep⟩ := hdepth
    obtain ⟨argument, hargument, rfl⟩ := List.mem_map.1 hmem
    exact Parser.refuses_directiveArguments h ⟨argument, hargument, hdeep⟩ behind
  again {source} hgenuine hdepth rest hrest := by
    refine Parser.reads_directiveArguments hunit depth ?_ hrest
    intro argument hmem
    obtain ⟨named, hnamed, rfl⟩ := List.mem_map.1 hmem
    obtain ⟨hname, hliterals⟩ := hgenuine named hnamed
    have hshallow := hdepth named.2 (List.mem_map_of_mem hnamed)
    exact ⟨hname, ValueTree.areValues_stored hliterals "," hshallow⟩
  injective h ho heq :=
    storedArguments_injective (fun argument hmem => (h argument hmem).2)
      (fun argument hmem => (ho argument hmem).2) (Prod.mk.inj heq).1

end ValuePlace

/-- **Values are read exactly up to the depth that is allowed and stored without loss**, as defaults
and as arguments of directives. -/
theorem valuePlaces_exact : ValuePlace.default.Exact ∧
    ∀ unit depth, IsIndent unit → (ValuePlace.arguments unit depth).Exact :=
  ⟨ValuePlace.exact_default, fun _ depth hunit => ValuePlace.exact_arguments hunit depth⟩

/-- A list in a list, as the argument of a directive, with brackets and commas between quotes, with
two commas behind an item and one behind the last. -/
theorem valuePlaces_exact_quoted :
    let inner := Items.literal "\"a,[b\"" (.list .nil .nil)
    let tree := ValueTree.list (.list inner (.literal "C" .nil))
    let innerKinds : List TokenKind := [.string "\"a,[b\"", .punctuator .comma, .punctuator .comma,
      .punctuator .bracketOpen, .punctuator .bracketClose]
    let itemKinds := [.punctuator .bracketOpen] ++ innerKinds ++ [.punctuator .bracketClose,
      .name "C", .punctuator .comma]
    let kinds := [.punctuator .parenOpen, .name "x", .punctuator .colon,
      .punctuator .bracketOpen] ++ itemKinds ++ [.punctuator .bracketClose, .punctuator .parenClose]
    let tokens := kinds.map fun kind => (⟨kind, default⟩ : Token)
    IsIndent "  " ∧ (ValuePlace.arguments "  " 0).Written [("x", tree)] tokens ∧
      (∀ value ∈ [("x", tree)].map Prod.snd, value.depth ≤ Parser.maxListDepth) ∧
        ∀ behind, Parser.Gives tokens behind Parser.directiveArguments
          ([⟨"x", ["[\"a,[b\",[]]", "C"], true⟩], []) := by
  intro inner tree innerKinds itemKinds kinds tokens
  let token : TokenKind → Token := fun kind => ⟨kind, default⟩
  have hnone : AllCommas [] := List.forall_mem_nil _
  have hcommas (n : Nat) : AllCommas (List.replicate n (token (.punctuator .comma))) := by
    intro comma hmem
    rw [List.eq_of_mem_replicate hmem]
  have hinner : inner.Written (innerKinds.map token) :=
    .literal hnone rfl (.list (hcommas 2) rfl (.nil hnone) rfl (.nil hnone))
  have hitems : (Items.list inner (.literal "C" .nil)).Written (itemKinds.map token) :=
    .list hnone rfl hinner rfl (.literal hnone rfl (.nil (hcommas 1)))
  have hwritten : (ValuePlace.arguments "  " 0).Written [("x", tree)] tokens :=
    ⟨_, _, _, rfl, .cons hnone rfl rfl (.list rfl hitems rfl) (.nil hnone), rfl, rfl⟩
  have hindent : IsIndent "  " := by simp [IsIndent]
  have hdepth : ∀ value ∈ [("x", tree)].map Prod.snd, value.depth ≤ Parser.maxListDepth := by
    decide
  exact ⟨hindent, hwritten, hdepth,
    (valuePlaces_exact.2 "  " 0 hindent).gives hwritten hdepth⟩

end SchemaMerge
