import SchemaMerge.Proofs.Reading.Takes
import SchemaMerge.Proofs.RoundTrip.Value

/-!
# Reading list literals

A value is a literal or a list literal, which is a tree of lists with literals at its leaves.
`ValueTree.Written` says which tokens write it, with commas anywhere between the items.

`Gives used behind p a` says that `p` takes the tokens of `used` and no more and gives `a`;
`Refuses tokens p diagnostic` says that it fails. A tree that is nested no deeper than allowed is
given as its stored values (`gives_value`). A deeper one is refused at the first bracket, in the
order of the tokens, that opens a list deeper than allowed (`refuses_value`). Both are proved along
the items of a list literal; the lists that are still open and the depth that is still allowed add
up to the limit.
-/

namespace SchemaMerge

/-! ## Trees -/

/-- The items of a list literal, in order. -/
inductive Items
  | nil
  | literal (text : String) (rest : Items)
  | list (inner rest : Items)
deriving DecidableEq

/-- A literal, or a list literal with its items. -/
inductive ValueTree
  | literal (text : String)
  | list (items : Items)
deriving DecidableEq

namespace Items

/-- How deep lists are nested among the items. -/
def depth : Items → Nat
  | nil => 0
  | literal _ rest => rest.depth
  | list inner rest => max (inner.depth + 1) rest.depth

/-- The items as they are stored: a list among them is one text. -/
def values (separator : String) : Items → List String
  | nil => []
  | literal text rest => text :: rest.values separator
  | list inner rest =>
    ("[" ++ String.intercalate separator (inner.values separator) ++ "]") :: rest.values separator

/-- The tokens write the items, with commas anywhere before an item and behind the last one. -/
inductive Written : Items → List Token → Prop
  | nil {commas : List Token} : AllCommas commas → Written nil commas
  | literal {commas tokens : List Token} {token : Token} {text : String} {rest : Items} :
    AllCommas commas → token.kind.literal? = some text → Written rest tokens →
      Written (literal text rest) (commas ++ token :: tokens)
  | list {commas inside tokens : List Token} {opening closing : Token} {inner rest : Items} :
    AllCommas commas → opening.kind = .punctuator .bracketOpen → Written inner inside →
      closing.kind = .punctuator .bracketClose → Written rest tokens →
        Written (list inner rest) (commas ++ opening :: (inside ++ closing :: tokens))

end Items

namespace ValueTree

/-- How deep lists are nested, the outermost included. -/
def depth : ValueTree → Nat
  | literal _ => 0
  | list items => items.depth + 1

/-- The values that are stored, and the mark that they are those of a list literal. -/
def stored (separator : String) : ValueTree → List String × Bool
  | literal text => ([text], false)
  | list items => (items.values separator, true)

/-- The tokens write the value. -/
inductive Written : ValueTree → List Token → Prop
  | literal {token : Token} {text : String} :
    token.kind.literal? = some text → Written (literal text) [token]
  | list {inside : List Token} {opening closing : Token} {items : Items} :
    opening.kind = .punctuator .bracketOpen → items.Written inside →
      closing.kind = .punctuator .bracketClose →
        Written (list items) (opening :: (inside ++ [closing]))

end ValueTree

/-- The tokens write named values between parentheses, with commas anywhere before a name and behind
the last value. -/
inductive WrittenArguments : List (String × ValueTree) → List Token → Prop
  | nil {commas : List Token} : AllCommas commas → WrittenArguments [] commas
  | cons {commas inside tokens : List Token} {word colon : Token} {name : String}
    {tree : ValueTree} {rest : List (String × ValueTree)} :
    AllCommas commas → word.kind.name? = some name → colon.kind = .punctuator .colon →
      tree.Written inside → WrittenArguments rest tokens →
        WrittenArguments ((name, tree) :: rest) (commas ++ word :: colon :: (inside ++ tokens))

/-- A named value as the argument of a directive that is stored. -/
def storedArgument (argument : String × ValueTree) : DirectiveArgument :=
  ⟨argument.1, (argument.2.stored ",").1, (argument.2.stored ",").2⟩

namespace Parser

/-- The first bracket that opens a list deeper than allowed, when `levels` lists are open. -/
def firstTooDeep : Nat → List Token → Option Token
  | _, [] => none
  | levels, token :: tokens =>
    if token.kind = .punctuator .bracketOpen then
      if levels < maxListDepth then firstTooDeep (levels + 1) tokens else some token
    else if token.kind = .punctuator .bracketClose then firstTooDeep (levels - 1) tokens
    else firstTooDeep levels tokens

/-! ## What is given for tokens -/

section

variable {α β : Type} {used more behind tokens : List Token}

/-- In front of the tokens the parser takes those of `used` and gives the value. -/
def Gives (used behind : List Token) (p : Parser α) (a : α) : Prop :=
  ∀ feed done, feed.Behind (done ++ (used ++ behind)) done [] →
    ∃ rest, p.run feed = .ok (a, rest) ∧ rest.Behind (done ++ (used ++ behind)) (done ++ used) []

/-- In front of the tokens the parser fails. -/
def Refuses (tokens : List Token) (p : Parser α) (diagnostic : Diagnostic) : Prop :=
  ∀ feed done, feed.Behind (done ++ tokens) done [] → p.run feed = .error diagnostic

variable {p : Parser α} {f : α → Parser β} {a : α} {b : β} {diagnostic : Diagnostic}

theorem gives_pure (a : α) (behind : List Token) : Gives [] behind (pure a) a := by
  intro feed done hfeed
  exact ⟨feed, rfl, by rwa [List.append_nil]⟩

theorem Gives.bind (hp : Gives used (more ++ behind) p a) (hf : Gives more behind (f a) b) :
    Gives (used ++ more) behind (p >>= f) b := by
  intro feed done hfeed
  rw [List.append_assoc] at hfeed ⊢
  obtain ⟨mid, hrun, hmid⟩ := hp feed done hfeed
  rw [← List.append_assoc done] at hmid ⊢
  obtain ⟨rest, hrest, hbehind⟩ := hf mid (done ++ used) hmid
  rw [← List.append_assoc, ← List.append_assoc done]
  rw [← List.append_assoc] at hbehind
  exact ⟨rest, by rw [bind_run, hrun]; exact hrest, hbehind⟩

/-- A parser that takes no tokens may follow. -/
theorem Gives.bind_nil (hp : Gives used behind p a) (hf : Gives [] behind (f a) b) :
    Gives used behind (p >>= f) b := by
  have hbind : Gives (used ++ []) behind (p >>= f) b := Gives.bind hp hf
  rwa [List.append_nil] at hbind

/-- A parser that takes no tokens may stand in front. -/
theorem Gives.nil_bind (hp : Gives [] (more ++ behind) p a) (hf : Gives more behind (f a) b) :
    Gives more behind (p >>= f) b := Gives.bind hp hf

theorem refuses_fail (tokens : List Token) (diagnostic : Diagnostic) :
    Refuses tokens (fail diagnostic : Parser α) diagnostic := fun _ _ _ => rfl

theorem Refuses.bind (hp : Refuses tokens p diagnostic) (f : α → Parser β) :
    Refuses tokens (p >>= f) diagnostic := by
  intro feed done hfeed
  rw [bind_run, hp feed done hfeed]

theorem Gives.refuses (hp : Gives used behind p a) (hf : Refuses behind (f a) diagnostic) :
    Refuses (used ++ behind) (p >>= f) diagnostic := by
  intro feed done hfeed
  obtain ⟨mid, hrun, hmid⟩ := hp feed done hfeed
  rw [← List.append_assoc] at hmid
  rw [bind_run, hrun]
  exact hf mid (done ++ used) hmid

theorem Gives.nil_refuses (hp : Gives [] tokens p a) (hf : Refuses tokens (f a) diagnostic) :
    Refuses tokens (p >>= f) diagnostic := Gives.refuses hp hf

end

/-! ## Loops -/

section

variable {α β σ τ : Type} {turn : σ → Parser (α ⊕ τ)} {want : Want β} {body : τ → β → Parser σ}
  {state next : σ} {entry : τ} {a : α} {used taken more behind tokens : List Token}
  {diagnostic : Diagnostic}

theorem expect_bind_assoc (want : Want β) (body : β → Parser σ) (f : σ → Parser α) :
    (expect want >>= fun b => body b >>= f) = (expect want >>= body) >>= f := by
  ext feed
  simp only [bind_run]
  split <;> rfl

/-- A loop gives what its last round does. -/
theorem Gives.loop_end (hturn : Gives used behind (turn state) (.inl a)) :
    Gives used behind (loop turn want body state) a := by
  rw [loop_eq]
  exact hturn.bind_nil (gives_pure a behind)

/-- A loop goes on behind an entry. -/
theorem Gives.loop_round (hturn : Gives used (taken ++ (more ++ behind)) (turn state) (.inr entry))
    (hbody : Gives taken (more ++ behind) (expect want >>= body entry) next)
    (hloop : Gives more behind (loop turn want body next) a) :
    Gives (used ++ (taken ++ more)) behind (loop turn want body state) a := by
  rw [loop_eq]
  refine Gives.bind (by rwa [List.append_assoc]) ?_
  simp only [expect_bind_assoc]
  exact hbody.bind hloop

/-- A loop fails at an entry that is refused. -/
theorem Gives.refuses_entry (hturn : Gives used tokens (turn state) (.inr entry))
    (hbody : Refuses tokens (expect want >>= body entry) diagnostic) :
    Refuses (used ++ tokens) (loop turn want body state) diagnostic := by
  rw [loop_eq]
  refine hturn.refuses ?_
  simp only [expect_bind_assoc]
  exact hbody.bind _

/-- A loop fails behind an entry if it fails there. -/
theorem Gives.refuses_rest (hturn : Gives used (taken ++ tokens) (turn state) (.inr entry))
    (hbody : Gives taken tokens (expect want >>= body entry) next)
    (hloop : Refuses tokens (loop turn want body next) diagnostic) :
    Refuses (used ++ (taken ++ tokens)) (loop turn want body state) diagnostic := by
  rw [loop_eq]
  refine hturn.refuses ?_
  simp only [expect_bind_assoc]
  exact hbody.refuses hloop

end

/-! ## Single tokens and commas -/

section

variable {α : Type} {behind : List Token} {token : Token}

theorem tokens_eq_of_behind {tokens done : List Token} {feed : Feed}
    (h : feed.Behind (done ++ tokens) done []) : feed.tokens = tokens :=
  (List.append_cancel_left h.tokens_eq).symm

theorem gives_expect {want : Want α} {a : α} (h : want.read token = some a) :
    Gives [token] behind (expect want) a := by
  intro feed done hfeed
  have hnext : feed.next? = some token := by
    rw [Feed.next?, tokens_eq_of_behind hfeed]
    rfl
  refine ⟨feed.advance, ?_, hfeed.advance hnext⟩
  rw [expect_run, hnext, Option.bind_some, h]

theorem gives_mark {mark : Punctuator} (h : token.kind = .punctuator mark) :
    Gives [token] behind (expect (.mark mark)) token.span :=
  gives_expect (if_pos h)

theorem gives_nextIs (token : Token) (behind : List Token) (kind : TokenKind) :
    Gives [] (token :: behind) (nextIs kind) (decide (token.kind = kind)) := by
  intro feed done hfeed
  refine ⟨feed, ?_, by rwa [List.append_nil]⟩
  have hnext : feed.nextIs kind = decide (token.kind = kind) := by
    rw [Feed.nextIs, Feed.next?, tokens_eq_of_behind hfeed]
    rfl
  rw [← hnext]
  rfl

theorem gives_takeIf {kind : TokenKind} (h : token.kind = kind) :
    Gives [token] behind (takeIf kind) true := by
  intro feed done hfeed
  have hnext : feed.next? = some token := by
    rw [Feed.next?, tokens_eq_of_behind hfeed]
    rfl
  refine ⟨feed.advance, ?_, hfeed.advance hnext⟩
  have his : feed.nextIs kind = true := by
    rw [Feed.nextIs, hnext]
    exact decide_eq_true h
  rw [takeIf_eq, bind_run, feed_run]
  simp only [his, if_true, bind_run, advance_run, pure_run]

/-- A run of tokens in front of one that is no part of it. -/
theorem gives_takeRun {r : TokenKind → Option α} {used : List Token}
    (hused : ∀ token ∈ used, Seam.inRun r token = true) (htoken : r token.kind = none) :
    Gives used (token :: behind) (takeRun r) (used.filterMap fun token => r token.kind) := by
  intro feed done hfeed
  have htake : (used ++ token :: behind).takeWhile (Seam.inRun r) = used := by
    rw [List.takeWhile_append_of_pos hused]
    simp [Seam.inRun, htoken]
  have hdrop : (used ++ token :: behind).dropWhile (Seam.inRun r) = token :: behind := by
    rw [List.dropWhile_append_of_pos hused]
    simp [Seam.inRun, htoken]
  have hrun : (takeRun r).run feed = .ok (used.filterMap fun token => r token.kind,
      { feed with
        tokens := token :: behind
        lastEnd := (used.getLast?.map fun token => token.span.stop).or feed.lastEnd }) := by
    rw [takeRun_run, Seam.splitRun_eq, tokens_eq_of_behind hfeed, htake, hdrop]
  refine ⟨_, hrun, (List.append_assoc ..).symm, ?_, hfeed.carried_eq⟩
  rw [List.getLast?_append, Option.map_or, ← hfeed.lastEnd_eq]

/-- Commas are skipped in front of anything else. -/
theorem gives_skipCommas {commas : List Token} (hcommas : AllCommas commas)
    (htoken : token.kind ≠ .punctuator .comma) : Gives commas (token :: behind) skipCommas () := by
  have hrun : Gives commas (token :: behind)
      (takeRun fun kind => if kind = .punctuator .comma then some () else none) _ :=
    gives_takeRun (fun comma hcomma => by simp [Seam.inRun, hcommas comma hcomma]) (if_neg htoken)
  exact hrun.bind_nil (gives_pure () _)

end

/-! ## The items of a list literal -/

section

variable {separator : String} {items : Items} {tokens behind : List Token} {closing : Token}

/-- The loop between the brackets of a list literal, when some values have been read. Inside it,
lists may be nested `depth` deep. -/
def itemsLoop (separator : String) (depth : Nat) : List String → Parser (List String) :=
  loop
    (fun values => do
      skipCommas
      if ← nextIs (.punctuator .bracketClose) then return .inl values else return .inr values)
    Want.listItem
    (fun values item =>
      match item with
      | .inl opening => do
        let nested ← listTail separator depth opening
        return values ++ ["[" ++ String.intercalate separator nested ++ "]"]
      | .inr value => return values ++ [value])

theorem listTail_succ (separator : String) (depth : Nat) (opening : Span) :
    listTail separator (depth + 1) opening = do
      let values ← itemsLoop separator depth []
      let _ ← expect (.mark .bracketClose)
      return values := by
  rw [listTail]
  rfl

section Round

variable {token : Token} {commas : List Token} {depth : Nat} {values : List String}

theorem listItem_of_literal? {text : String} (h : token.kind.literal? = some text) :
    Want.listItem.read token = some (.inr text) := by
  have hne : token.kind ≠ .punctuator .bracketOpen := by
    intro hkind
    rw [hkind] at h
    cases h
  simp [Want.listItem, hne, h]

theorem listItem_of_opening (h : token.kind = .punctuator .bracketOpen) :
    Want.listItem.read token = some (.inl token.span) := if_pos h

/-- A round stops behind commas at the closing bracket. -/
theorem gives_itemsTurn (hcommas : AllCommas commas) (hcomma : token.kind ≠ .punctuator .comma)
    (values : List String) :
    Gives commas (token :: behind)
      (do
        skipCommas
        if ← nextIs (.punctuator .bracketClose) then return Sum.inl values else return .inr values)
      (if token.kind = .punctuator .bracketClose then .inl values else .inr values) := by
  refine (gives_skipCommas hcommas hcomma).bind_nil ?_
  refine (gives_nextIs token behind _).bind_nil ?_
  by_cases hclose : token.kind = .punctuator .bracketClose
  · simpa [hclose] using gives_pure _ _
  · simpa [hclose] using gives_pure _ _

/-- A round goes on to an item. -/
theorem gives_itemsTurn_item (hcommas : AllCommas commas) {item : Span ⊕ String}
    (hitem : Want.listItem.read token = some item) (values : List String) :
    Gives commas (token :: behind)
      (do
        skipCommas
        if ← nextIs (.punctuator .bracketClose) then return Sum.inl values else return .inr values)
      (.inr values) := by
  have hsolid : token.IsSolid := Want.solid_listItem token item hitem
  have hopen : token.kind ≠ .punctuator .bracketClose := by
    intro hkind
    simp [Want.listItem, hkind, TokenKind.literal?, TokenKind.name?] at hitem
  have hturn := @gives_itemsTurn behind token _ hcommas hsolid.1 values
  rwa [if_neg hopen] at hturn

theorem gives_itemsLoop_nil (hcommas : AllCommas commas)
    (hclosing : closing.kind = .punctuator .bracketClose) :
    Gives commas (closing :: behind) (itemsLoop separator depth values) values := by
  have hturn := @gives_itemsTurn behind closing _ hcommas (by simp [hclosing]) values
  rw [if_pos hclosing] at hturn
  exact Gives.loop_end hturn

theorem Gives.itemsLoop_round {item : Span ⊕ String} {taken more : List Token}
    {next result : List String} (hcommas : AllCommas commas)
    (hitem : Want.listItem.read token = some item)
    (htail : Gives taken (more ++ behind) (listItemTail separator depth values item) next)
    (hloop : Gives more behind (itemsLoop separator depth next) result) :
    Gives (commas ++ token :: (taken ++ more)) behind (itemsLoop separator depth values)
      result := by
  have hbody : Gives ([token] ++ taken) (more ++ behind)
      (expect Want.listItem >>= listItemTail separator depth values) next :=
    (gives_expect hitem).bind htail
  exact Gives.loop_round (gives_itemsTurn_item hcommas hitem values) hbody hloop

end Round

/-- The items of a list inside a list literal are given between its brackets. -/
theorem gives_listTail {depth : Nat} {values : List String} {opening : Span}
    (hclosing : closing.kind = .punctuator .bracketClose)
    (h : Gives tokens (closing :: behind) (itemsLoop separator depth []) values) :
    Gives (tokens ++ [closing]) behind (listTail separator (depth + 1) opening) values := by
  rw [listTail_succ]
  exact Gives.bind h ((gives_mark hclosing).bind_nil (gives_pure _ _))

/-- A list inside a list literal is one value. -/
theorem gives_nestedList {depth : Nat} {nested : List String}
    (hclosing : closing.kind = .punctuator .bracketClose)
    (h : Gives tokens (closing :: behind) (itemsLoop separator depth []) nested)
    (values : List String) (opening : Span) :
    Gives (tokens ++ [closing]) behind
      (listItemTail separator (depth + 1) values (.inl opening))
      (values ++ ["[" ++ String.intercalate separator nested ++ "]"]) :=
  (gives_listTail hclosing h).bind_nil (gives_pure _ _)

/-- **Items are given as their values**, if lists may be nested deep enough among them. -/
theorem gives_itemsLoop (h : items.Written tokens)
    (hclosing : closing.kind = .punctuator .bracketClose) {depth : Nat}
    (hdepth : items.depth ≤ depth) (values : List String) (behind : List Token) :
    Gives tokens (closing :: behind) (itemsLoop separator depth values)
      (values ++ items.values separator) := by
  induction h generalizing depth values closing behind with
  | nil hcommas =>
    rw [Items.values, List.append_nil]
    exact gives_itemsLoop_nil hcommas hclosing
  | @literal _ tokens token text rest hcommas hliteral hrest ih =>
    have htail : Gives [] (tokens ++ closing :: behind)
        (listItemTail separator depth values (.inr text)) (values ++ [text]) := gives_pure _ _
    have hloop := ih hclosing hdepth (values ++ [text]) behind
    rw [List.append_assoc] at hloop
    exact Gives.itemsLoop_round hcommas (listItem_of_literal? hliteral) htail hloop
  | @list _ inside tokens opening innerClosing inner rest hcommas hopening hinner hclose hrest
      ihinner ihrest =>
    obtain ⟨hdepthInner, hdepthRest⟩ := Nat.max_le.1 hdepth
    obtain ⟨depth, rfl⟩ : ∃ d, depth = d + 1 :=
      Nat.exists_eq_add_one_of_ne_zero (by omega)
    have hinside := ihinner hclose (Nat.le_of_succ_le_succ hdepthInner) []
      (tokens ++ closing :: behind)
    have hitem := gives_nestedList hclose hinside values opening.span
    have hloop := ihrest hclosing hdepthRest
      (values ++ ["[" ++ String.intercalate separator (inner.values separator) ++ "]"]) behind
    rw [List.append_assoc] at hloop
    have hround := Gives.itemsLoop_round hcommas (listItem_of_opening hopening) hitem
      hloop
    rwa [List.append_assoc] at hround

end

/-! ## Lists that are nested too deep -/

section

variable {items : Items} {tokens : List Token} {token : Token} {levels : Nat}

/-- The token is no bracket. -/
def IsNoBracket (token : Token) : Prop :=
  token.kind ≠ .punctuator .bracketOpen ∧ token.kind ≠ .punctuator .bracketClose

theorem isNoBracket_of_literal? {text : String} (h : token.kind.literal? = some text) :
    IsNoBracket token :=
  ⟨ne_punctuator_of_literal h _, ne_punctuator_of_literal h _⟩

theorem AllCommas.isNoBracket {commas : List Token} (h : AllCommas commas) :
    ∀ token ∈ commas, IsNoBracket token := by
  intro token ht
  simp [IsNoBracket, h token ht]

theorem firstTooDeep_cons (h : IsNoBracket token) (levels : Nat) (behind : List Token) :
    firstTooDeep levels (token :: behind) = firstTooDeep levels behind := by
  rw [firstTooDeep, if_neg h.1, if_neg h.2]

theorem firstTooDeep_append (h : ∀ token ∈ tokens, IsNoBracket token) (levels : Nat)
    (behind : List Token) :
    firstTooDeep levels (tokens ++ behind) = firstTooDeep levels behind := by
  induction tokens with
  | nil => rfl
  | cons token tokens ih =>
    rw [List.forall_mem_cons] at h
    rw [List.cons_append, firstTooDeep_cons h.1, ih h.2]

theorem firstTooDeep_opening (h : token.kind = .punctuator .bracketOpen)
    (hlevels : levels < maxListDepth) (behind : List Token) :
    firstTooDeep levels (token :: behind) = firstTooDeep (levels + 1) behind := by
  rw [firstTooDeep, if_pos h, if_pos hlevels]

theorem firstTooDeep_closing (h : token.kind = .punctuator .bracketClose) (behind : List Token) :
    firstTooDeep (levels + 1) (token :: behind) = firstTooDeep levels behind := by
  rw [firstTooDeep, if_neg (by simp [h]), if_pos h, Nat.add_sub_cancel]

/-- A bracket that is found is found with anything behind it. -/
theorem firstTooDeep_append_of_some {opening : Token}
    (h : firstTooDeep levels tokens = some opening) (behind : List Token) :
    firstTooDeep levels (tokens ++ behind) = some opening := by
  fun_induction firstTooDeep levels tokens with
  | case1 => cases h
  | case2 levels token tokens hopen hlevels ih =>
    rw [List.cons_append, firstTooDeep_opening hopen hlevels, ih h]
  | case3 levels token tokens hopen hlevels =>
    rw [List.cons_append, firstTooDeep, if_pos hopen, if_neg hlevels, h]
  | case4 levels token tokens hopen hclose ih =>
    rw [List.cons_append, firstTooDeep, if_neg hopen, if_pos hclose, ih h]
  | case5 levels token tokens hopen hclose ih =>
    rw [List.cons_append, firstTooDeep_cons ⟨hopen, hclose⟩, ih h]

/-- Behind items among which lists are nested deep enough as many lists are open as before. -/
theorem firstTooDeep_items (h : items.Written tokens) (hdepth : levels + items.depth ≤ maxListDepth)
    (behind : List Token) :
    firstTooDeep levels (tokens ++ behind) = firstTooDeep levels behind := by
  induction h generalizing levels behind with
  | nil hcommas => exact firstTooDeep_append (AllCommas.isNoBracket hcommas) levels behind
  | @literal commas tokens token text rest hcommas hliteral hrest ih =>
    rw [List.append_assoc, firstTooDeep_append (AllCommas.isNoBracket hcommas), List.cons_append,
      firstTooDeep_cons (isNoBracket_of_literal? hliteral)]
    exact ih hdepth behind
  | @list commas inside tokens opening closing inner rest hcommas hopening hinner hclose hrest
      ihinner ihrest =>
    rw [Items.depth] at hdepth
    have hlevels : levels < maxListDepth := by omega
    have hinside : levels + 1 + inner.depth ≤ maxListDepth := by omega
    rw [List.append_assoc, firstTooDeep_append (AllCommas.isNoBracket hcommas), List.cons_append,
      firstTooDeep_opening hopening hlevels, List.append_assoc, ihinner hinside, List.cons_append,
      firstTooDeep_closing hclose]
    exact ihrest (by omega) behind

/-- A loop between brackets fails at a list that is refused. -/
theorem refuses_itemsLoop_list {separator : String} {depth : Nat} {values : List String}
    {commas : List Token} (hcommas : AllCommas commas)
    (hopening : token.kind = .punctuator .bracketOpen) {diagnostic : Diagnostic}
    (h : Refuses tokens (listTail separator depth token.span) diagnostic) :
    Refuses (commas ++ token :: tokens) (itemsLoop separator depth values) diagnostic := by
  have hitem := listItem_of_opening hopening
  have hbody : Refuses ([token] ++ tokens)
      (expect Want.listItem >>= listItemTail separator depth values) diagnostic :=
    (gives_expect hitem).refuses (h.bind _)
  exact Gives.refuses_entry (gives_itemsTurn_item hcommas hitem values) hbody

/-- A loop between brackets fails behind an item if it fails there. -/
theorem refuses_itemsLoop_rest {separator : String} {depth : Nat} {values next : List String}
    {commas taken : List Token} (hcommas : AllCommas commas) {item : Span ⊕ String}
    (hitem : Want.listItem.read token = some item) {diagnostic : Diagnostic}
    (htail : Gives taken tokens (listItemTail separator depth values item) next)
    (h : Refuses tokens (itemsLoop separator depth next) diagnostic) :
    Refuses (commas ++ token :: (taken ++ tokens)) (itemsLoop separator depth values)
      diagnostic := by
  have hbody : Gives ([token] ++ taken) tokens
      (expect Want.listItem >>= listItemTail separator depth values) next :=
    (gives_expect hitem).bind htail
  exact Gives.refuses_rest (gives_itemsTurn_item hcommas hitem values) hbody h

/-- **Items among which lists are nested too deep are refused** at the first bracket that opens a
list deeper than allowed. -/
theorem refuses_itemsLoop {separator : String} (h : items.Written tokens) {depth : Nat}
    (hlevels : levels + depth = maxListDepth) (hdepth : depth < items.depth)
    (values : List String) (behind : List Token) :
    ∃ opening, firstTooDeep levels tokens = some opening ∧
      Refuses (tokens ++ behind) (itemsLoop separator depth values)
        (nestingTooDeep opening.span) := by
  induction h generalizing depth levels values behind with
  | nil hcommas => exact absurd hdepth (Nat.not_lt_zero depth)
  | @literal commas tokens token text rest hcommas hliteral hrest ih =>
    obtain ⟨opening, hfirst, hrefuses⟩ := ih hlevels hdepth (values ++ [text]) behind
    refine ⟨opening, ?_, ?_⟩
    · rw [firstTooDeep_append (AllCommas.isNoBracket hcommas),
        firstTooDeep_cons (isNoBracket_of_literal? hliteral)]
      exact hfirst
    · have htail : Gives [] (tokens ++ behind) (listItemTail separator depth values (.inr text))
          (values ++ [text]) := gives_pure _ _
      have hround := refuses_itemsLoop_rest hcommas (listItem_of_literal? hliteral) htail hrefuses
      rwa [List.append_assoc]
  | @list commas inside tokens opening closing inner rest hcommas hopening hinner hclose hrest
      ihinner ihrest =>
    have hskip := firstTooDeep_append (AllCommas.isNoBracket hcommas) levels
      (opening :: (inside ++ closing :: tokens))
    rw [hskip, List.append_assoc, List.cons_append, List.append_assoc]
    cases depth with
    | zero =>
      -- All lists that may be open are open, so this one is the first too deep.
      have hfirst : firstTooDeep levels (opening :: (inside ++ closing :: tokens)) =
          some opening := by
        rw [firstTooDeep, if_pos hopening, if_neg (by omega)]
      exact ⟨opening, hfirst, refuses_itemsLoop_list hcommas hopening (refuses_fail _ _)⟩
    | succ depth =>
      rw [firstTooDeep_opening hopening (by omega)]
      by_cases hinside : inner.depth ≤ depth
      · -- The list inside is read, so the bracket stands behind it.
        have hrestDepth : depth + 1 < rest.depth := by
          rw [Items.depth] at hdepth
          omega
        have hgives := gives_nestedList hclose (@gives_itemsLoop separator _ _ closing hinner hclose
          depth hinside [] (tokens ++ behind)) values opening.span
        obtain ⟨first, hfirst, hrefuses⟩ := @ihrest levels (depth + 1) hlevels hrestDepth
          (values ++ ["[" ++ String.intercalate separator (inner.values separator) ++ "]"]) behind
        refine ⟨first, ?_, ?_⟩
        · rw [firstTooDeep_items hinner (by omega), firstTooDeep_closing hclose, hfirst]
        · have hitem := listItem_of_opening hopening
          have hround := refuses_itemsLoop_rest hcommas hitem hgives hrefuses
          rwa [List.append_assoc] at hround
      · -- The bracket stands inside the list.
        obtain ⟨first, hfirst, hrefuses⟩ := @ihinner (levels + 1) depth (by omega) (by omega) []
          (closing :: (tokens ++ behind))
        refine ⟨first, firstTooDeep_append_of_some hfirst _, ?_⟩
        refine refuses_itemsLoop_list hcommas hopening ?_
        rw [listTail_succ]
        exact hrefuses.bind _

end

/-! ## Values -/

section

variable {tree : ValueTree} {tokens : List Token}

/-- **A value that is nested no deeper than allowed is given as it is stored.** -/
theorem gives_value (separator : String) (h : tree.Written tokens)
    (hdepth : tree.depth ≤ maxListDepth) (behind : List Token) :
    Gives tokens behind (value separator) (tree.stored separator) := by
  unfold value
  cases h with
  | @literal token text hliteral =>
    have hnext := gives_nextIs token behind (.punctuator .bracketOpen)
    rw [decide_eq_false (ne_punctuator_of_literal hliteral _)] at hnext
    have hread : Want.literal.read token = some text := hliteral
    refine Gives.nil_bind hnext ?_
    exact (gives_expect hread).bind_nil (gives_pure _ _)
  | @list inside opening closing items hopening hinside hclosing =>
    have hnext := gives_nextIs opening (inside ++ [closing] ++ behind) (.punctuator .bracketOpen)
    rw [decide_eq_true hopening] at hnext
    have hitems := @gives_itemsLoop separator _ _ closing hinside hclosing
      (maxListDepth - 1) (Nat.le_of_succ_le_succ hdepth) [] behind
    have hlist := @gives_listTail separator _ _ _ _ _ opening.span hclosing hitems
    refine Gives.nil_bind hnext ?_
    exact Gives.bind (gives_mark hopening) (hlist.bind_nil (gives_pure _ _))

/-- **A value that is nested deeper than allowed is refused** at the first bracket that opens a list
deeper than allowed. -/
theorem refuses_value (separator : String) (h : tree.Written tokens)
    (hdepth : maxListDepth < tree.depth) (behind : List Token) :
    ∃ opening, firstTooDeep 0 tokens = some opening ∧
      Refuses (tokens ++ behind) (value separator) (nestingTooDeep opening.span) := by
  unfold value
  cases h with
  | literal => exact absurd hdepth (Nat.not_lt_zero _)
  | @list inside opening closing items hopening hinside hclosing =>
    have hdepth : maxListDepth - 1 < items.depth := Nat.lt_of_succ_lt_succ hdepth
    obtain ⟨first, hfirst, hrefuses⟩ := @refuses_itemsLoop items inside 1 separator hinside
      (maxListDepth - 1) rfl hdepth [] ([closing] ++ behind)
    refine ⟨first, ?_, ?_⟩
    · rw [firstTooDeep_opening hopening (by decide)]
      exact firstTooDeep_append_of_some hfirst _
    · have hnext := gives_nextIs opening (inside ++ [closing] ++ behind) (.punctuator .bracketOpen)
      rw [decide_eq_true hopening] at hnext
      have hlist : Refuses (inside ++ [closing] ++ behind)
          (listTail separator maxListDepth opening.span) (nestingTooDeep first.span) := by
        rw [List.append_assoc]
        exact hrefuses.bind _
      refine Gives.nil_refuses hnext ?_
      exact (gives_mark hopening).refuses (hlist.bind _)

/-- Behind a value that is nested no deeper than allowed no list is open. -/
theorem firstTooDeep_value (h : tree.Written tokens) (hdepth : tree.depth ≤ maxListDepth)
    (behind : List Token) : firstTooDeep 0 (tokens ++ behind) = firstTooDeep 0 behind := by
  cases h with
  | literal hliteral => exact firstTooDeep_cons (isNoBracket_of_literal? hliteral) 0 behind
  | @list inside opening closing items hopening hinside hclosing =>
    have hitems : 0 + 1 + items.depth ≤ maxListDepth := by
      rw [ValueTree.depth] at hdepth
      omega
    rw [List.cons_append, firstTooDeep_opening hopening (by decide), List.append_assoc,
      firstTooDeep_items hinside hitems, List.singleton_append, firstTooDeep_closing hclosing]

end

/-! ## Arguments of directives -/

section

variable {tokens behind : List Token} {token : Token}

theorem gives_descriptions_nil (h : token.kind.description? = none) :
    Gives [] (token :: behind) descriptions [] := by
  have hswap : Gives [] (token :: behind) (swapCarried []) [] := by
    intro feed done hfeed
    have hrun : (swapCarried []).run feed = .ok ([], { feed with carried := [] }) := by
      rw [swapCarried_run, hfeed.carried_eq, commentsOf_nil]
    refine ⟨_, hrun, ?_⟩
    rw [List.append_nil]
    exact hfeed.swapCarried []
  have hrun := @gives_takeRun _ behind token _ [] (List.forall_mem_nil _) h
  exact hswap.bind_nil (hrun.bind_nil (gives_pure _ _))

/-- An argument behind its name. -/
def directiveArgumentTail : List DirectiveArgument × List String → String × Span →
    Parser (List DirectiveArgument × List String) :=
  fun (arguments, texts) (name, _) => do
    let _ ← expect (.mark .colon)
    let (values, isList) ← value ","
    return (arguments ++ [⟨name, values, isList⟩], texts)

/-- The loop between the parentheses behind a directive, when some arguments have been read. -/
def argumentsLoop (arguments : List DirectiveArgument) :
    Parser (List DirectiveArgument × List String) :=
  loop
    (fun (arguments, texts) => do
      skipCommas
      let texts := texts ++ (← descriptions)
      skipCommas
      if ← nextIs (.punctuator .parenClose) then return .inl (arguments, texts)
      else return .inr (arguments, texts))
    (.name "directive argument name")
    directiveArgumentTail
    (arguments, [])

/-- In front of anything but a description a round stops at the closing parenthesis. -/
theorem gives_argumentsTurn {commas : List Token} (hcommas : AllCommas commas)
    (hcomma : token.kind ≠ .punctuator .comma) (hdescription : token.kind.description? = none)
    (arguments : List DirectiveArgument) :
    Gives commas (token :: behind)
      (do
        skipCommas
        let texts := [] ++ (← descriptions)
        skipCommas
        if ← nextIs (.punctuator .parenClose) then return Sum.inl (arguments, texts)
        else return .inr (arguments, texts))
      (if token.kind = .punctuator .parenClose then .inl (arguments, [])
        else .inr (arguments, [])) := by
  have hnone : AllCommas [] := List.forall_mem_nil _
  refine (gives_skipCommas hcommas hcomma).bind_nil ?_
  refine (gives_descriptions_nil hdescription).bind_nil ?_
  refine (gives_skipCommas hnone hcomma).bind_nil ?_
  refine (gives_nextIs token behind _).bind_nil ?_
  by_cases hclose : token.kind = .punctuator .parenClose
  · simpa [hclose] using gives_pure _ _
  · simpa [hclose] using gives_pure _ _

theorem name_read {what name : String} (h : token.kind.name? = some name) :
    (Want.name what).read token = some (name, token.span) := by
  simp [Want.name, h]

/-- An argument is given with the values of its value. -/
theorem gives_argument {word colon : Token} {name : String} {tree : ValueTree} {inside : List Token}
    (hname : word.kind.name? = some name) (hcolon : colon.kind = .punctuator .colon)
    (hvalue : tree.Written inside) (hdepth : tree.depth ≤ maxListDepth)
    (done : List DirectiveArgument) (behind : List Token) :
    Gives (word :: colon :: inside) behind
      (expect (.name "directive argument name") >>= directiveArgumentTail (done, []))
      (done ++ [storedArgument (name, tree)], []) := by
  refine Gives.bind (gives_expect (name_read hname)) (Gives.bind (gives_mark hcolon) ?_)
  exact (gives_value "," hvalue hdepth behind).bind_nil (gives_pure _ _)

theorem gives_argumentsLoop {arguments : List (String × ValueTree)} {closing : Token}
    (h : WrittenArguments arguments tokens) (hclosing : closing.kind = .punctuator .parenClose)
    (hdepth : ∀ argument ∈ arguments, argument.2.depth ≤ maxListDepth)
    (done : List DirectiveArgument) (behind : List Token) :
    Gives tokens (closing :: behind) (argumentsLoop done)
      (done ++ arguments.map storedArgument, []) := by
  induction h generalizing done with
  | nil hcommas =>
    have hturn := @gives_argumentsTurn behind closing _ hcommas (by simp [hclosing])
      (by rw [hclosing]; rfl) done
    rw [if_pos hclosing] at hturn
    rw [List.map_nil, List.append_nil]
    exact Gives.loop_end hturn
  | @cons commas inside tokens word colon name tree rest hcommas hname hcolon hvalue hrest ih =>
    rw [List.forall_mem_cons] at hdepth
    have hturn := @gives_argumentsTurn (colon :: (inside ++ (tokens ++ closing :: behind))) word _
      hcommas (ne_punctuator_of_name hname _) (description?_of_name hname) done
    rw [if_neg (ne_punctuator_of_name hname _)] at hturn
    have hbody := gives_argument hname hcolon hvalue hdepth.1 done (tokens ++ closing :: behind)
    have hloop := ih hdepth.2 (done ++ [storedArgument (name, tree)])
    rw [List.append_assoc] at hloop
    have hround : Gives (commas ++ (word :: colon :: inside ++ tokens)) (closing :: behind)
        (argumentsLoop done) _ := Gives.loop_round hturn hbody hloop
    exact hround

/-- **Arguments are refused** at the first bracket that opens a list deeper than allowed. -/
theorem refuses_argumentsLoop {arguments : List (String × ValueTree)}
    (h : WrittenArguments arguments tokens)
    (hdepth : ∃ argument ∈ arguments, maxListDepth < argument.2.depth)
    (done : List DirectiveArgument) (behind : List Token) :
    ∃ opening, firstTooDeep 0 tokens = some opening ∧
      Refuses (tokens ++ behind) (argumentsLoop done) (nestingTooDeep opening.span) := by
  induction h generalizing done with
  | nil => exact absurd hdepth (by simp)
  | @cons commas inside tokens word colon name tree rest hcommas hname hcolon hvalue hrest ih =>
    have hfront : firstTooDeep 0 (commas ++ word :: colon :: (inside ++ tokens)) =
        firstTooDeep 0 (inside ++ tokens) := by
      have hword : IsNoBracket word :=
        ⟨ne_punctuator_of_name hname _, ne_punctuator_of_name hname _⟩
      have hcolon : IsNoBracket colon := by simp [IsNoBracket, hcolon]
      rw [firstTooDeep_append (AllCommas.isNoBracket hcommas), firstTooDeep_cons hword,
        firstTooDeep_cons hcolon]
    have hturn := @gives_argumentsTurn (colon :: (inside ++ (tokens ++ behind))) word _
      hcommas (ne_punctuator_of_name hname _) (description?_of_name hname) done
    rw [if_neg (ne_punctuator_of_name hname _)] at hturn
    rw [hfront, List.append_assoc, List.cons_append, List.cons_append, List.append_assoc]
    by_cases hshallow : tree.depth ≤ maxListDepth
    · -- The value is read, so the bracket stands behind it.
      have hrestDepth : ∃ argument ∈ rest, maxListDepth < argument.2.depth := by
        obtain ⟨argument, hmem, hdeep⟩ := hdepth
        rcases List.mem_cons.1 hmem with rfl | hmem
        · exact absurd hshallow (Nat.not_le.2 hdeep)
        · exact ⟨argument, hmem, hdeep⟩
      obtain ⟨opening, hfirst, hrefuses⟩ := ih hrestDepth (done ++ [storedArgument (name, tree)])
      have hbody := gives_argument hname hcolon hvalue hshallow done (tokens ++ behind)
      refine ⟨opening, by rw [firstTooDeep_value hvalue hshallow, hfirst], ?_⟩
      exact Gives.refuses_rest hturn hbody hrefuses
    · -- The bracket stands inside the value.
      obtain ⟨opening, hfirst, hrefuses⟩ :=
        refuses_value "," hvalue (Nat.not_le.1 hshallow) (tokens ++ behind)
      refine ⟨opening, firstTooDeep_append_of_some hfirst tokens, ?_⟩
      refine Gives.refuses_entry hturn ?_
      refine Gives.refuses (gives_expect (name_read hname)) ?_
      exact Gives.refuses (gives_mark hcolon) (hrefuses.bind _)

end

/-! ## Defaults and arguments in their places -/

section

variable {tokens : List Token}

/-- The tokens write a default: an equals sign and a value. -/
def WrittenDefault (tree : ValueTree) (tokens : List Token) : Prop :=
  ∃ equals inside, equals.kind = .punctuator .equals ∧ tree.Written inside ∧
    tokens = equals :: inside

/-- The tokens write the arguments of a directive, parentheses included. -/
def WrittenInParens (arguments : List (String × ValueTree)) (tokens : List Token) : Prop :=
  ∃ opening inside closing, opening.kind = .punctuator .parenOpen ∧
    WrittenArguments arguments inside ∧ closing.kind = .punctuator .parenClose ∧
      tokens = opening :: (inside ++ [closing])

theorem gives_optionalDefault {tree : ValueTree} (h : WrittenDefault tree tokens)
    (hdepth : tree.depth ≤ maxListDepth) (behind : List Token) :
    Gives tokens behind optionalDefault
      (some ⟨(tree.stored ", ").1, (tree.stored ", ").2⟩) := by
  obtain ⟨equals, inside, hequals, hvalue, rfl⟩ := h
  refine Gives.bind (gives_takeIf hequals) ?_
  exact (gives_value ", " hvalue hdepth behind).bind_nil (gives_pure _ _)

theorem refuses_optionalDefault {tree : ValueTree} (h : WrittenDefault tree tokens)
    (hdepth : maxListDepth < tree.depth) (behind : List Token) :
    ∃ opening, firstTooDeep 0 tokens = some opening ∧
      Refuses (tokens ++ behind) optionalDefault (nestingTooDeep opening.span) := by
  obtain ⟨equals, inside, hequals, hvalue, rfl⟩ := h
  obtain ⟨opening, hfirst, hrefuses⟩ := refuses_value ", " hvalue hdepth behind
  refine ⟨opening, ?_, ?_⟩
  · rw [firstTooDeep_cons (by simp [IsNoBracket, hequals]), hfirst]
  · rw [List.cons_append]
    exact Gives.refuses (gives_takeIf hequals) (hrefuses.bind _)

theorem gives_directiveArguments {arguments : List (String × ValueTree)}
    (h : WrittenInParens arguments tokens)
    (hdepth : ∀ argument ∈ arguments, argument.2.depth ≤ maxListDepth) (behind : List Token) :
    Gives tokens behind directiveArguments (arguments.map storedArgument, []) := by
  obtain ⟨opening, inside, closing, hopening, hinside, hclosing, rfl⟩ := h
  refine Gives.bind (gives_takeIf hopening) ?_
  refine Gives.bind (gives_argumentsLoop hinside hclosing hdepth [] behind) ?_
  exact (gives_mark hclosing).bind_nil (gives_pure _ _)

theorem refuses_directiveArguments {arguments : List (String × ValueTree)}
    (h : WrittenInParens arguments tokens)
    (hdepth : ∃ argument ∈ arguments, maxListDepth < argument.2.depth) (behind : List Token) :
    ∃ opening, firstTooDeep 0 tokens = some opening ∧
      Refuses (tokens ++ behind) directiveArguments (nestingTooDeep opening.span) := by
  obtain ⟨opening, inside, closing, hopening, hinside, hclosing, rfl⟩ := h
  obtain ⟨first, hfirst, hrefuses⟩ :=
    refuses_argumentsLoop hinside hdepth [] ([closing] ++ behind)
  refine ⟨first, ?_, ?_⟩
  · rw [firstTooDeep_cons (by simp [IsNoBracket, hopening])]
    exact firstTooDeep_append_of_some hfirst _
  · rw [List.cons_append, List.append_assoc]
    exact Gives.refuses (gives_takeIf hopening) (hrefuses.bind _)

end

end Parser

end SchemaMerge
