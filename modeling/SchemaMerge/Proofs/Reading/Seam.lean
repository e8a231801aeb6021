import Mathlib.Data.List.TakeWhile
import SchemaMerge.Proofs.Reading.Relocation
import SchemaMerge.Reading.Document

/-!
# Reading up to a seam

Two lists of tokens may be the same up to a place, the seam, where the one ends and the other goes
on with more definitions. A parser that runs on both reads the same in front of the seam, and it may
notice the difference only where it looks at the token behind.

`s.Follows p q f` says that wherever `p` succeeds on the list that ends, `q` succeeds on the one
that goes on, with the value moved by `f`, and both stop at the same place. Comments behind the seam
may be taken for more of a run of comments that ends there; `s.FollowsOr p q f lost` leaves that
open, but then `p` has come to the end with a value of which `lost` holds, and what comes next has
to fail there (`Halts`, `Fails`). There is one rule for each way to build a parser.
-/

namespace SchemaMerge

/-- A token that may stand between definitions: a description, the first word of a definition or the
end of the text. -/
def TokenKind.opens : TokenKind → Bool
  | .endOfText => true
  | .keyword word => DefinitionWord.all.any fun definition => definition.keyword = word
  | kind => kind.description?.isSome

/-- Tokens that come in two lists: one ends behind them, and in the other, where all of them may be
moved, a token follows that may stand between definitions. -/
structure Seam where
  file : String
  move : Relocation
  tokens : List Token
  stop : Token
  next : Token
  behind : List Token
  kind_stop : stop.kind = .endOfText
  opens_next : next.kind.opens = true
  /-- A comment behind the seam does not trail a token in front of it. -/
  apart : ∀ token ∈ tokens, next.kind.comment?.isSome →
    (move.position token.span.stop).line ≠ next.span.start.line

namespace Seam

variable (s : Seam) {carried : List String}

/-- The feed of the list that ends, behind the tokens `done`. -/
def short (carried : List String) (done left : List Token) : Feed where
  file := s.file
  tokens := left ++ [s.stop]
  lastEnd := done.getLast?.map fun token => token.span.stop
  carried := carried

/-- The feed of the list that goes on, behind the tokens `done`. -/
def long (carried : List String) (done left : List Token) : Feed where
  file := s.move.file s.file
  tokens := left.map s.move.token ++ s.next :: s.behind
  lastEnd := done.getLast?.map fun token => s.move.position token.span.stop
  carried := carried

/-- Two feeds stand behind the same tokens, none of which is a fault. -/
def At (carried : List String) (feed other : Feed) : Prop :=
  ∃ done left, s.tokens = done ++ left ∧ (∀ token ∈ done, token.kind.isProper = true) ∧
    feed = s.short carried done left ∧ other = s.long carried done left

/-- A token in front of the seam is taken from both lists. -/
theorem At.advance {done left : List Token} {token : Token} (h : s.tokens = done ++ token :: left)
    (hdone : ∀ token ∈ done, token.kind.isProper = true) (ht : token.kind.isProper = true) :
    s.At carried (s.short carried done (token :: left)).advance
      (s.long carried done (token :: left)).advance := by
  refine ⟨done ++ [token], left, by simpa using h,
    List.forall_mem_append.2 ⟨hdone, List.forall_mem_singleton.2 ht⟩, ?_, ?_⟩
  · simp [short, Feed.advance]
  · simp [long, Feed.advance, Relocation.span]

/-! ## Parsers that run on both lists -/

variable {α β σ τ : Type}

/-- Where `p` succeeds on the list that ends, `q` succeeds on the other with the moved value, and
they stop at the same place; or `p` stops at the end with a value that is `lost`. -/
def FollowsOr (carried : List String) (p q : Parser α) (f : α → α) (lost : α → Prop) : Prop :=
  ∀ feed other, s.At carried feed other → ∀ a rest, p.run feed = .ok (a, rest) →
    (∃ otherRest, q.run other = .ok (f a, otherRest) ∧ s.At carried rest otherRest) ∨
      rest.tokens = [s.stop] ∧ lost a

/-- Where `p` succeeds on the list that ends, `q` succeeds on the other with the moved value, and
they stop at the same place. -/
abbrev Follows (carried : List String) (p q : Parser α) (f : α → α) : Prop :=
  s.FollowsOr carried p q f fun _ => False

/-- At the end the parser fails, or it stays there with a value that is `lost`. -/
def Halts (p : Parser α) (lost : α → Prop) : Prop :=
  ∀ feed, feed.tokens = [s.stop] → ∀ a rest, p.run feed = .ok (a, rest) →
    rest.tokens = [s.stop] ∧ lost a

/-- At the end the parser fails. -/
abbrev Fails (p : Parser α) : Prop := s.Halts p fun _ => False

variable {s} {p q : Parser α} {f : α → α} {lost : α → Prop}

/-- If nothing is lost, the parser on the list that goes on succeeds as well. -/
theorem Follows.exists (h : s.Follows carried p q f) {feed other rest : Feed} {a : α}
    (hfeed : s.At carried feed other) (hrun : p.run feed = .ok (a, rest)) :
    ∃ otherRest, q.run other = .ok (f a, otherRest) ∧ s.At carried rest otherRest :=
  (h feed other hfeed a rest hrun).resolve_right fun hlost => hlost.2

theorem FollowsOr.mono {lost' : α → Prop} (h : s.FollowsOr carried p q f lost)
    (hlost : ∀ a, lost a → lost' a) : s.FollowsOr carried p q f lost' :=
  fun feed other hfeed a rest hrun => (h feed other hfeed a rest hrun).imp_right
    (And.imp_right (hlost a))

theorem follows_pure {a b : α} (h : b = f a) : s.FollowsOr carried (pure a) (pure b) f lost := by
  rintro feed other hfeed _ _ ⟨⟩
  exact .inl ⟨other, h ▸ rfl, hfeed⟩

theorem follows_fail (diagnostic : Diagnostic) :
    s.FollowsOr carried (Parser.fail diagnostic) q f lost := by
  rintro feed other - _ _ ⟨⟩

theorem follows_ite {b : Bool} {p' q' : Parser α}
    (htrue : b = true → s.FollowsOr carried p q f lost)
    (hfalse : b = false → s.FollowsOr carried p' q' f lost) :
    s.FollowsOr carried (if b then p else p') (if b then q else q') f lost := by
  cases b with
  | true => exact htrue rfl
  | false => exact hfalse rfl

/-- What follows goes on from there; a value that is lost must be one with which the rest halts. -/
theorem FollowsOr.bind {next next' : α → Parser β} {g : β → β} {lost' : β → Prop}
    (hp : s.FollowsOr carried p q f lost)
    (hnext : ∀ a, s.FollowsOr carried (next a) (next' (f a)) g lost')
    (hlost : ∀ a, lost a → s.Halts (next a) lost') :
    s.FollowsOr carried (p >>= next) (q >>= next') g lost' := by
  intro feed other hfeed b rest hrun
  rw [Parser.bind_run] at hrun
  split at hrun
  · next a mid hmid =>
    rcases hp feed other hfeed a mid hmid with ⟨otherMid, hother, hat⟩ | ⟨hend, ha⟩
    · rw [Parser.bind_run, hother]
      exact hnext a mid otherMid hat b rest hrun
    · exact .inr (hlost a ha mid hend b rest hrun)
  · cases hrun

theorem Follows.bind {next next' : α → Parser β} {g : β → β} {lost' : β → Prop}
    (hp : s.Follows carried p q f)
    (hnext : ∀ a, s.FollowsOr carried (next a) (next' (f a)) g lost') :
    s.FollowsOr carried (p >>= next) (q >>= next') g lost' :=
  FollowsOr.bind hp hnext fun _ => False.elim

theorem halts_pure {a : α} (h : lost a) : s.Halts (pure a) lost := by
  rintro feed hfeed _ _ ⟨⟩
  exact ⟨hfeed, h⟩

/-- At the end a parser stays there or fails, and so does what follows it. -/
theorem Halts.bind {next : α → Parser β} {lost' : β → Prop} (hp : s.Halts p lost)
    (hnext : ∀ a, lost a → s.Halts (next a) lost') : s.Halts (p >>= next) lost' := by
  intro feed hfeed b rest hrun
  rw [Parser.bind_run] at hrun
  split at hrun
  · next a mid hmid =>
    obtain ⟨hend, ha⟩ := hp feed hfeed a mid hmid
    exact hnext a ha mid hend b rest hrun
  · cases hrun

theorem Fails.bind {next : α → Parser β} {lost' : β → Prop} (hp : s.Fails p) :
    s.Halts (p >>= next) lost' := Halts.bind hp fun _ => False.elim

/-! ## Single tokens -/

/-- What is wanted is a token of the language, and it is recognised when it has been moved. -/
def Moves (ρ : Relocation) (want : Parser.Want α) (f : α → α) : Prop :=
  ∀ token a, want.read token = some a →
    token.kind.isProper = true ∧ token.kind ≠ .endOfText ∧ want.read (ρ.token token) = some (f a)

section

variable {want : Parser.Want α}

/-- The token that is wanted is not the end, so it stands in front of the seam and is found on both
lists. -/
theorem follows_expect (h : Moves s.move want f) :
    s.Follows carried (Parser.expect want) (Parser.expect want) f := by
  rintro _ _ ⟨done, left, htokens, hdone, rfl, rfl⟩ a rest hrun
  rw [Parser.expect_run] at hrun
  split at hrun
  · next b hread =>
    obtain ⟨rfl, rfl⟩ : b = a ∧ _ = rest := by simpa using hrun
    cases left with
    | nil =>
      exact absurd s.kind_stop (h s.stop b (by simpa [short, Feed.next?] using hread)).2.1
    | cons token left =>
      obtain ⟨hproper, -, hmoved⟩ := h token b (by simpa [short, Feed.next?] using hread)
      refine .inl ⟨(s.long carried done (token :: left)).advance, ?_,
        At.advance s htokens hdone hproper⟩
      rw [Parser.expect_run, show (s.long carried done (token :: left)).next? =
        some (s.move.token token) from rfl, Option.bind_some, hmoved]
  · cases hrun

theorem fails_expect (h : Moves s.move want f) : s.Fails (Parser.expect want) := by
  intro feed hfeed a rest hrun
  rw [Parser.expect_run] at hrun
  split at hrun
  · next b hread =>
    rw [Feed.next?, hfeed, List.head?_cons, Option.bind_some] at hread
    exact absurd s.kind_stop (h s.stop b hread).2.1
  · cases hrun

end

theorem moves_mark (ρ : Relocation) (mark : Punctuator) : Moves ρ (.mark mark) ρ.span := by
  intro token a hread
  simp only [Parser.Want.mark, Option.ite_none_right_eq_some, Option.some.injEq] at hread ⊢
  obtain ⟨hkind, rfl⟩ := hread
  exact ⟨hkind ▸ rfl, by simp [hkind], hkind, rfl⟩

theorem moves_keyword (ρ : Relocation) (word : Keyword) : Moves ρ (.keyword word) ρ.span := by
  intro token a hread
  simp only [Parser.Want.keyword, Option.ite_none_right_eq_some, Option.some.injEq] at hread ⊢
  obtain ⟨hkind, rfl⟩ := hread
  exact ⟨hkind ▸ rfl, by simp [hkind], hkind, rfl⟩

/-- A name stays as it is, and its place is moved. -/
theorem moves_name (ρ : Relocation) (what : String) :
    Moves ρ (.name what) (Prod.map id ρ.span) := by
  intro token a hread
  obtain ⟨name, hname, rfl⟩ := Option.map_eq_some_iff.1 hread
  refine ⟨?_, ?_, by simp [Parser.Want.name, hname]⟩
  · cases hkind : token.kind <;> simp_all [TokenKind.name?, TokenKind.isProper]
  · rintro hkind
    simp [hkind, TokenKind.name?] at hname

theorem moves_literal (ρ : Relocation) : Moves ρ .literal id := by
  intro token a hread
  change token.kind.literal? = some a at hread
  refine ⟨?_, ?_, hread⟩
  · cases hkind : token.kind <;>
      simp_all [TokenKind.literal?, TokenKind.name?, TokenKind.isProper]
  · rintro hkind
    simp [hkind, TokenKind.literal?, TokenKind.name?] at hread

section

variable {kind : TokenKind}

/-- A look at the next token tells the same on both lists, unless it is for what may stand between
definitions. -/
theorem At.nextIs_eq {feed other : Feed} (h : s.At carried feed other)
    (hk : kind.opens = false) : other.nextIs kind = feed.nextIs kind := by
  obtain ⟨done, left, -, -, rfl, rfl⟩ := h
  cases left with
  | nil =>
    have hstop : s.stop.kind ≠ kind := fun he => by
      rw [← he, s.kind_stop] at hk
      cases hk
    have hnext : s.next.kind ≠ kind := fun he => by
      rw [← he, s.opens_next] at hk
      cases hk
    simp [Feed.nextIs, Feed.next?, short, long, hstop, hnext]
  | cons token left => rfl

theorem follows_nextIs (hk : kind.opens = false) :
    s.Follows carried (Parser.nextIs kind) (Parser.nextIs kind) id := by
  rintro feed other hfeed _ _ ⟨⟩
  exact .inl ⟨other, by rw [← hfeed.nextIs_eq hk]; rfl, hfeed⟩

theorem halts_nextIs (hk : kind.opens = false) : s.Halts (Parser.nextIs kind) (· = false) := by
  rintro feed hfeed _ _ ⟨⟩
  refine ⟨hfeed, ?_⟩
  simp only [Feed.nextIs, Feed.next?, hfeed, List.head?_cons, decide_eq_false_iff_not]
  rintro rfl
  rw [s.kind_stop] at hk
  cases hk

theorem follows_takeIf (hk : kind.opens = false) (hproper : kind.isProper = true) :
    s.Follows carried (Parser.takeIf kind) (Parser.takeIf kind) id := by
  intro feed other hfeed a rest hrun
  simp only [Parser.takeIf, Parser.nextIs, Parser.bind_run, Parser.feed_run, Parser.pure_run]
    at hrun ⊢
  rw [hfeed.nextIs_eq hk]
  cases hnext : feed.nextIs kind with
  | false =>
    rw [hnext] at hrun
    obtain ⟨rfl, rfl⟩ : false = a ∧ feed = rest := by simpa using hrun
    exact .inl ⟨other, rfl, hfeed⟩
  | true =>
    rw [hnext] at hrun
    obtain ⟨rfl, rfl⟩ : true = a ∧ feed.advance = rest := by simpa using hrun
    obtain ⟨done, left, htokens, hdone, rfl, rfl⟩ := hfeed
    cases left with
    | nil =>
      have hstop : s.stop.kind = kind := by simpa [Feed.nextIs, Feed.next?, short] using hnext
      rw [← hstop, s.kind_stop] at hk
      cases hk
    | cons token left =>
      have htoken : token.kind = kind := by simpa [Feed.nextIs, Feed.next?, short] using hnext
      exact .inl ⟨_, rfl, At.advance s htokens hdone (htoken ▸ hproper)⟩

/-- At the end there is nothing to take. -/
theorem halts_takeIf (hk : kind.opens = false) : s.Halts (Parser.takeIf kind) (· = false) := by
  refine (halts_nextIs hk).bind fun found hfound => ?_
  subst hfound
  exact halts_pure rfl

end

/-! ## Runs of tokens -/

/-- Whether a run that reads tokens with `r` goes on with the token. -/
def inRun (r : TokenKind → Option α) (token : Token) : Bool := (r token.kind).isSome

section

variable {r : TokenKind → Option α}

/-- A run takes the tokens up to the first that does not belong to it. -/
theorem splitRun_eq (r : TokenKind → Option α) (feed : Feed) (tokens : List Token) :
    Parser.splitRun r feed tokens =
      ((tokens.takeWhile (inRun r)).filterMap fun token => r token.kind,
        { feed with
          tokens := tokens.dropWhile (inRun r)
          lastEnd := ((tokens.takeWhile (inRun r)).getLast?.map fun token =>
            token.span.stop).or feed.lastEnd }) := by
  induction tokens generalizing feed with
  | nil => rfl
  | cons token tokens ih =>
    rw [Parser.splitRun]
    cases hr : r token.kind with
    | none => simp [inRun, hr]
    | some a =>
      simp only [ih, inRun, hr, Option.isSome_some, List.takeWhile_cons_of_pos,
        List.dropWhile_cons_of_pos, List.getLast?_cons]
      cases (tokens.takeWhile fun token => (r token.kind).isSome).getLast? <;> simp [hr]

/-- What is read as part of a run is a token of the language. -/
def Proper (r : TokenKind → Option α) : Prop :=
  ∀ kind a, r kind = some a → kind.isProper = true ∧ kind ≠ .endOfText

theorem Proper.inRun_stop (hr : Proper r) : inRun r s.stop = false := by
  rw [inRun, Option.isSome_eq_false_iff, Option.isNone_iff_eq_none]
  exact Option.eq_none_iff_forall_ne_some.2 fun a ha => (hr _ a ha).2 s.kind_stop

/-- The run in the list that ends. -/
theorem splitRun_short (hr : Proper r) (done left : List Token) :
    Parser.splitRun r (s.short carried done left) (left ++ [s.stop]) =
      ((left.takeWhile (inRun r)).filterMap fun token => r token.kind,
        s.short carried (done ++ left.takeWhile (inRun r)) (left.dropWhile (inRun r))) := by
  obtain ⟨htake, hdrop⟩ := @takeWhile_append_of_stops _ (inRun r) left [s.stop]
    fun _ => by rintro _ ⟨⟩; exact hr.inRun_stop
  rw [splitRun_eq, htake, hdrop]
  simp [short, List.getLast?_append, Option.map_or]

/-- The run in the list that goes on is the same, unless it comes to the seam and goes on there. -/
theorem splitRun_long {left : List Token} (done : List Token)
    (hnext : left.dropWhile (inRun r) = [] → r s.next.kind = none) :
    Parser.splitRun r (s.long carried done left) (left.map s.move.token ++ s.next :: s.behind) =
      ((left.takeWhile (inRun r)).filterMap fun token => r token.kind,
        s.long carried (done ++ left.takeWhile (inRun r)) (left.dropWhile (inRun r))) := by
  have hmoved : inRun r ∘ s.move.token = inRun r := rfl
  obtain ⟨htake, hdrop⟩ := @takeWhile_append_of_stops _ (inRun r) (left.map s.move.token)
    (s.next :: s.behind) fun hnil => by
      rw [List.dropWhile_map, hmoved, List.map_eq_nil_iff] at hnil
      rintro _ ⟨⟩
      simp [inRun, hnext hnil]
  rw [splitRun_eq, htake, hdrop, List.takeWhile_map, List.dropWhile_map, hmoved]
  simp [long, List.getLast?_append, Option.map_or, List.filterMap_map, Function.comp_def,
    Relocation.span]

/-- A run of tokens may go on behind the seam; then it is lost, and it has come to the end of the
other list. -/
theorem followsOr_takeRun (hr : Proper r) : s.FollowsOr carried (Parser.takeRun r)
    (Parser.takeRun r) id fun _ => (r s.next.kind).isSome := by
  rintro _ _ ⟨done, left, htokens, hdone, rfl, rfl⟩ as rest hrun
  rw [Parser.takeRun_run, show (s.short carried done left).tokens = left ++ [s.stop] from rfl,
    splitRun_short hr] at hrun
  obtain ⟨rfl, rfl⟩ := Prod.mk.inj (Except.ok.inj hrun)
  by_cases hnext : left.dropWhile (inRun r) = [] → r s.next.kind = none
  · refine .inl ⟨_, congrArg Except.ok (splitRun_long done hnext), done ++ left.takeWhile (inRun r),
      left.dropWhile (inRun r), ?_, ?_, rfl, rfl⟩
    · rw [htokens, List.append_assoc, List.takeWhile_append_dropWhile]
    · refine List.forall_mem_append.2 ⟨hdone, fun token ht => ?_⟩
      have hread : inRun r token = true := List.mem_takeWhile_imp ht
      obtain ⟨a, ha⟩ := Option.isSome_iff_exists.1 hread
      exact (hr _ a ha).1
  · rw [Classical.not_imp] at hnext
    exact .inr ⟨by rw [hnext.1]; rfl, Option.isSome_iff_ne_none.2 hnext.2⟩

/-- A run that does not take what is behind the seam ends there on both lists. -/
theorem follows_takeRun (hr : Proper r) (hnext : r s.next.kind = none) :
    s.Follows carried (Parser.takeRun r) (Parser.takeRun r) id :=
  (followsOr_takeRun hr).mono fun _ h => by simp [hnext] at h

theorem halts_takeRun (hr : Proper r) : s.Halts (Parser.takeRun r) (· = []) := by
  intro feed hfeed as rest hrun
  rw [Parser.takeRun_run, hfeed, splitRun_eq] at hrun
  obtain ⟨rfl, rfl⟩ := Prod.mk.inj (Except.ok.inj hrun)
  simp [hr.inRun_stop]

end

/-! ## Loops -/

/-- **A loop follows if its rounds do.** A round may get lost at the seam, if it then wants an
entry: there is none. -/
theorem follows_loop {turn turn' : σ → Parser (α ⊕ τ)} {want : Parser.Want β}
    {body body' : τ → β → Parser σ} (moveState : σ → σ) (moveResult : α → α) (moveEntry : τ → τ)
    (moveWanted : β → β)
    (hturn : ∀ state, s.FollowsOr carried (turn state) (turn' (moveState state))
      (Sum.map moveResult moveEntry) fun turned => turned.isRight)
    (hwant : Moves s.move want moveWanted)
    (hbody : ∀ entry b, s.Follows carried (body entry b) (body' (moveEntry entry) (moveWanted b))
      moveState) (state : σ) :
    s.Follows carried (Parser.loop turn want body state)
      (Parser.loop turn' want body' (moveState state)) moveResult := by
  intro feed other hfeed a rest hrun
  refine .inl ?_
  change Parser.runLoop turn want body state feed = .ok (a, rest) at hrun
  fun_induction Parser.runLoop turn want body state feed generalizing other with
  | case1 => cases hrun
  | case2 state feed result rest₁ h₁ =>
    cases hrun
    rcases hturn state feed other hfeed _ _ h₁ with ⟨other₁, hother₁, hat₁⟩ | ⟨-, hlost⟩
    · refine ⟨other₁, ?_, hat₁⟩
      rw [Parser.loop_eq, Parser.bind_run, hother₁]
      rfl
    · cases hlost
  | case3 => cases hrun
  | case4 => cases hrun
  | case5 state feed entry rest₁ h₁ b rest₂ h₂ next rest₃ h₃ ih =>
    rcases hturn state feed other hfeed _ _ h₁ with ⟨other₁, hother₁, hat₁⟩ | ⟨hend, -⟩
    · obtain ⟨other₂, hother₂, hat₂⟩ := Follows.exists (follows_expect hwant) hat₁ h₂
      obtain ⟨other₃, hother₃, hat₃⟩ := Follows.exists (hbody entry b) hat₂ h₃
      obtain ⟨other₄, hother₄, hat₄⟩ := ih other₃ hat₃ hrun
      refine ⟨other₄, ?_, hat₄⟩
      rw [Parser.loop_eq, Parser.bind_run, hother₁]
      show (Parser.expect want >>= _).run other₁ = _
      rw [Parser.bind_run, hother₂]
      show (body' _ _ >>= _).run other₂ = _
      rw [Parser.bind_run, hother₃]
      exact hother₄
    · exact (fails_expect hwant rest₁ hend b rest₂ h₂).2.elim

end Seam

end SchemaMerge
