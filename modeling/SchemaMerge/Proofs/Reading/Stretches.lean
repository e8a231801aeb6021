import SchemaMerge.Proofs.Merge.Documentation
import SchemaMerge.Proofs.Reading.Ending

/-!
# Where nodes stand

In a text a node has documentation in front of it, which describes it, and behind it a tail: these
tokens are its `Stretch`. Stretches stand one behind the other (`Laid`), and a definition may hand
comments over to the next one. A node `Owns` the texts in front of it, and the comments of its tail
with the one that trails it among them. The members of a definition are laid between its braces
(`takes_optionalMembers`).
-/

namespace SchemaMerge

/-! ## Stretches -/

/-- A node with the tokens that are taken for it. -/
structure Stretch (α : Type) where
  /-- The commas in front, which mean nothing. -/
  commas : List Token
  /-- The documentation in front. -/
  lead : List Token
  /-- The tokens of the node itself, from its first to its last. -/
  core : List Token
  tail : Tail
  node : α

namespace Stretch

variable {α : Type}

/-- The tokens in order. -/
def tokens (s : Stretch α) : List Token := s.commas ++ s.lead ++ s.core ++ s.tail.tokens

/-- The stretch is found among the tokens behind those of `done`: given the texts in front of the
node, with the comments that have been handed over, the production reads the node there. The node
ends with its last token that is neither a comma nor a comment. -/
structure Stands (tokens done handed : List Token) (production : List String → Parser α)
    (s : Stretch α) : Prop where
  commas : AllCommas s.commas
  lead : AllDescriptions s.lead
  core : EndsSolid s.core
  tail : s.tail.Fits
  reads : ∃ feed rest : Feed, feed.Behind tokens (done ++ s.commas ++ s.lead) [] ∧
    (production (commentsOf handed ++ descriptionsOf s.lead)).run feed = .ok (s.node, rest) ∧
    rest.Behind tokens (done ++ s.tokens) s.tail.handed

/-- The node is described by the texts in front of it and no others, and has the comments that its
tail keeps. If a comment stands behind the last token of the node, with nothing or commas between
them, and starts on the line on which that token ends, it is one of these. -/
structure Owns [Documented α] (tokens done handed : List Token) (s : Stretch α) : Prop where
  descriptions_eq : own .description s.node = commentsOf handed ++ descriptionsOf s.lead
  comments_eq : ∃ inside : List Token, inside.Sublist s.core ∧
    own .comment s.node = commentsOf (inside ++ s.tail.kept)
  keepsTrailing : ∀ after, tokens = done ++ s.tokens ++ after →
    ∀ last ∈ s.core.getLast?, s.tail.KeepsTrailing last after

end Stretch

/-- The stretches stand one behind the other, from behind the tokens of `done` on, each as
`stands` says. The last one hands comments over. -/
inductive Laid {α : Type} (stands : List Token → List Token → Stretch α → Prop)
    (done : List Token) : List (Stretch α) → List Token → Prop
  | nil : Laid stands done [] []
  | concat {stretches : List (Stretch α)} {handed : List Token} {s : Stretch α} :
    Laid stands done stretches handed →
      stands (done ++ stretches.flatMap Stretch.tokens) handed s →
        Laid stands done (stretches ++ [s]) s.tail.handed

namespace Parser

/-- A member from its name on. -/
def memberFrom {α : Type} (what : String) (member : List String → String × Span → Parser α)
    (texts : List String) : Parser α := expect (.name what) >>= member texts

/-- A member stands in a text, and owns what documents it. -/
structure MemberStands {α : Type} [Documented α] (tokens : List Token)
    (production : List String → Parser α) (done handed : List Token) (s : Stretch α) : Prop where
  stands : s.Stands tokens done handed production
  owns : s.Owns tokens done handed

/-- The members stand one behind the other among the tokens of `core`, which stand behind those of
`done`. -/
def Encloses {α : Type} [Documented α] (tokens done core : List Token)
    (production : List String → Parser α) (members : List α) : Prop :=
  ∃ (front behind : List Token) (stretches : List (Stretch α)),
    core = front ++ stretches.flatMap Stretch.tokens ++ behind ∧
      members = stretches.map Stretch.node ∧
        Laid (MemberStands tokens production) (done ++ front) stretches []

/-- Of the texts given for it a node has made its descriptions, and it has the comments that its
tail keeps. -/
structure Tells {α : Type} [Documented α] (texts : List String) (used : List Token) (tail : Tail)
    (a : α) : Prop where
  ending : Sealed used
  descriptions_eq : own .description a = texts
  comments_eq : ∃ inside : List Token, inside.Sublist used ∧
    own .comment a = commentsOf (inside ++ tail.kept)

theorem exists_run_of_map_run {α β γ : Type} {p : Parser β} {next : β → Parser α}
    {finish : α → γ} {feed rest : Feed} {c : γ}
    (hrun : (p >>= fun b => next b >>= fun a => pure (finish a)).run feed = .ok (c, rest)) :
    ∃ b mid a, p.run feed = .ok (b, mid) ∧ (next b).run mid = .ok (a, rest) ∧ c = finish a := by
  rw [bind_run] at hrun
  split at hrun
  · next b mid hmid =>
    rw [bind_run] at hrun
    split at hrun
    · next a mid' hmid' =>
      obtain ⟨rfl, rfl⟩ := Prod.mk.inj (Except.ok.inj hrun)
      exact ⟨b, mid, a, hmid, hmid', rfl⟩
    · cases hrun
  · cases hrun

/-- The parser reads a complete node that the given texts describe. Of the tokens before it, its own
and its tail more may be known. -/
def ReadsNode {α : Type} [Documented α] (tokens : List Token) (texts : List String)
    (more : List Token → List Token → Tail → α → Prop) (p : Parser α) : Prop :=
  ∀ done, Completes tokens done p fun used tail a =>
    Tells texts used tail a ∧ more done used tail a

/-- No comments are handed over. -/
def HandsNothing {α : Type} (_ _ : List Token) (tail : Tail) (_ : α) : Prop := tail.handed = []

section

variable {α β : Type} [Documented α] {tokens done core more : List Token} {tail : Tail}
  {texts : List String} {a : α} {production : List String → Parser α} {members : List α}

theorem Tells.append_left (h : Tells texts more tail a) {used : List Token} (hused : Sealed used) :
    Tells texts (used ++ more) tail a where
  ending := hused.append h.ending
  descriptions_eq := h.descriptions_eq
  comments_eq := by
    obtain ⟨inside, hinside, hcomments⟩ := h.comments_eq
    exact ⟨inside, hinside.trans (List.sublist_append_right _ _), hcomments⟩

theorem encloses_nil : Encloses tokens done core production [] :=
  ⟨core, [], [], by simp, rfl, .nil⟩

theorem Encloses.append_left {front : List Token}
    (h : Encloses tokens (done ++ front) core production members) :
    Encloses tokens done (front ++ core) production members := by
  obtain ⟨first, behind, stretches, rfl, hmembers, hlaid⟩ := h
  exact ⟨front ++ first, behind, stretches, by simp, hmembers, by rwa [← List.append_assoc]⟩

/-! ## Productions -/

/-- A node that is complete has its stretch. -/
theorem exists_stretch_of_run {want : Want β} {next : List String → β → Parser α} {b : β}
    {post : List Token → List Token → Tail → α → Prop} {commas lead : List Token}
    {feed mid rest : Feed} (handed : List Token) (hlines : LinesInOrder tokens)
    (hwant : want.Solid) (hnext : ∀ texts, ReadsNode tokens texts post (next texts b))
    (h : feed.Behind tokens (done ++ commas ++ lead) []) (hcommas : AllCommas commas)
    (hlead : AllDescriptions lead) (hfirst : (expect want).run feed = .ok (b, mid))
    (hrun : (next (commentsOf handed ++ descriptionsOf lead) b).run mid = .ok (a, rest)) :
    ∃ (token : Token) (used : List Token) (tail : Tail),
      let s : Stretch α := ⟨commas, lead, token :: used, tail, a⟩
      s.Stands tokens done handed (fun texts => expect want >>= next texts) ∧
        s.Owns tokens done handed ∧ rest.Behind tokens (done ++ s.tokens) tail.handed ∧
        post (done ++ commas ++ lead ++ [token]) used tail a := by
  have hread : (expect want >>= next (commentsOf handed ++ descriptionsOf lead)).run feed =
      .ok (a, rest) := by rw [bind_run, hfirst]; exact hrun
  have hword : Takes tokens (done ++ commas ++ lead) (expect want)
      fun used _ => ∃ token : Token, used = [token] ∧ token.IsSolid :=
    takes_expect fun token b hb => ⟨token, rfl, hwant token b hb⟩
  obtain ⟨_, hbehind, token, rfl, hsolid⟩ := hword _ _ _ h hfirst
  obtain ⟨used, tail, hrest, hfits, hkeeps, htells, hpost⟩ := hnext _ _ _ _ _ hbehind hrun
  have hcore : EndsSolid ([token] ++ used) := (endsSolid_singleton hsolid).append htells.ending
  have hstretch : rest.Behind tokens
      (done ++ (commas ++ lead ++ (token :: used) ++ tail.tokens)) tail.handed := by
    simpa using hrest
  refine ⟨token, used, tail, ⟨hcommas, hlead, hcore, hfits, feed, rest, h, hread, hstretch⟩,
    ⟨htells.descriptions_eq, ?_, fun after hafter last hlast => ?_⟩, hstretch, hpost⟩
  · obtain ⟨inside, hinside, hcomments⟩ := htells.comments_eq
    exact ⟨inside, hinside.cons _, hcomments⟩
  · -- The last token that has been taken before the tail is the last one of the node.
    obtain rfl : after = rest.tokens :=
      List.append_cancel_left (hafter.symm.trans hstretch.tokens_eq)
    refine hkeeps hlines last ?_
    rw [List.append_assoc _ [token], List.getLast?_append]
    have hcore_last : ([token] ++ used).getLast? = some last := hlast
    rw [hcore_last]
    rfl

/-- The rounds between braces lay members one behind the other. -/
theorem takes_memberLoop {what : String} {member : List String → String × Span → Parser α}
    {opening : Span} (hlines : LinesInOrder tokens)
    (hmember : ∀ texts name, ReadsNode tokens texts HandsNothing (member texts name)) :
    Takes tokens done
      (loop (fun found : List α => turnInBraces (fun _ => found) (fun texts => (found, texts))
          [what] opening)
        (.name what) (fun entry name => member entry.2 name >>= fun a => pure (entry.1 ++ [a])) [])
      fun used members => ∃ (behind : List Token) (stretches : List (Stretch α)),
        used = stretches.flatMap Stretch.tokens ++ behind ∧
          members = stretches.map Stretch.node ∧
            Laid (MemberStands tokens (memberFrom what member)) done stretches [] := by
  refine takes_loop
    (fun used members => ∃ stretches : List (Stretch α),
      used = stretches.flatMap Stretch.tokens ∧ members = stretches.map Stretch.node ∧
        Laid (MemberStands tokens (memberFrom what member)) done stretches [])
    (fun used entry => ∃ (commas lead : List Token) (stretches : List (Stretch α)),
      used = stretches.flatMap Stretch.tokens ++ commas ++ lead ∧
        entry.1 = stretches.map Stretch.node ∧ AllCommas commas ∧ AllDescriptions lead ∧
          entry.2 = descriptionsOf lead ∧
            Laid (MemberStands tokens (memberFrom what member)) done stretches [])
    ?_ ?_ ⟨[], rfl, rfl, .nil⟩
  · rintro used members ⟨stretches, rfl, rfl, hlaid⟩ feed turned rest hfeed hrun
    obtain ⟨commas, lead, hrest, hcommas, hlead, hturned⟩ := exists_turnInBraces_run hfeed hrun
    refine ⟨commas ++ lead, by simpa using hrest, ?_⟩
    rcases hturned with rfl | ⟨rfl, -⟩
    · exact ⟨commas, lead, stretches, by simp, rfl, hcommas, hlead, rfl, hlaid⟩
    · exact ⟨commas ++ lead, stretches, by simp, rfl, hlaid⟩
  · rintro used ⟨members, texts⟩ ⟨commas, lead, stretches, rfl, rfl, hcommas, hlead, rfl, hlaid⟩
      feed next rest hfeed hrun
    obtain ⟨name, mid, a, hname, hread, rfl⟩ := exists_run_of_map_run hrun
    -- No member hands comments over, so the next one starts without any.
    rw [← List.append_assoc, ← List.append_assoc] at hfeed
    obtain ⟨token, core, tail, hstands, howns, hrest, (hhanded : tail.handed = [])⟩ :=
      exists_stretch_of_run [] hlines (Want.solid_name what)
        (fun texts => hmember texts name) hfeed hcommas hlead hname hread
    rw [hhanded] at hrest
    refine ⟨token :: core ++ tail.tokens, ?_, stretches ++ [⟨commas, lead, token :: core, tail, a⟩],
      ?_, by simp, ?_⟩
    · simpa [Stretch.tokens] using hrest
    · simp [Stretch.tokens]
    · exact hhanded ▸ hlaid.concat ⟨hstands, howns⟩

/-- **Members are laid between braces.** -/
theorem takes_optionalMembers {what : String} {member : List String → String × Span → Parser α}
    (hlines : LinesInOrder tokens)
    (hmember : ∀ texts name, ReadsNode tokens texts HandsNothing (member texts name)) :
    Takes tokens done (optionalMembers what member) fun used members =>
      Sealed used ∧ Encloses tokens done used (memberFrom what member) members := by
  have hbrace : Takes tokens done (nextIs (.punctuator .braceOpen)) fun used _ => used = [] :=
    takes_nextIs _ fun _ => rfl
  refine hbrace.bind fun _ brace hnone => ?_
  subst hnone
  refine takes_ite (fun _ => ?_) fun _ => takes_pure ⟨sealed_nil, encloses_nil⟩
  have hopening : Takes tokens (done ++ []) (expect (.mark .braceOpen)) fun _ _ => True :=
    takes_expect fun _ _ _ => trivial
  refine hopening.bind fun front opening _ => ?_
  refine (takes_memberLoop hlines hmember).bind fun inner members hmembers => ?_
  refine (finishes_mark .braceClose (by decide) _).bind fun closing _ hclosing => takes_pure ?_
  obtain ⟨behind, stretches, rfl, rfl, hlaid⟩ := hmembers
  refine ⟨?_, front, behind ++ closing, stretches, by simp, rfl, by simpa using hlaid⟩
  simpa using ((hclosing.append_left (stretches.flatMap Stretch.tokens ++ behind)).append_left
    front).sealed

end

end Parser

end SchemaMerge
