import SchemaMerge.Proofs.Reading.Tail

/-!
# The last token of a node

What a production takes last is neither a comma nor a comment: a name, a literal or a mark. So where
a node ends is plain, whatever its tail is. `Finishes` says so of a parser that takes a token at
least, and `Seals` of one that may take nothing; what they take before that last token does not
matter (`Plain.bind_finishes`).
-/

namespace SchemaMerge

/-- The last of the tokens is neither a comma nor a comment. -/
def EndsSolid (tokens : List Token) : Prop := ∃ last ∈ tokens.getLast?, last.IsSolid

/-- There are no tokens, or the last of them is neither a comma nor a comment. -/
def Sealed (tokens : List Token) : Prop := ∀ last ∈ tokens.getLast?, last.IsSolid

section

variable {tokens more : List Token}

theorem sealed_nil : Sealed [] := nofun

theorem endsSolid_singleton {token : Token} (h : token.IsSolid) : EndsSolid [token] :=
  ⟨token, rfl, h⟩

theorem EndsSolid.sealed (h : EndsSolid tokens) : Sealed tokens := by
  obtain ⟨last, hlast, hsolid⟩ := h
  intro other hother
  rwa [Option.mem_unique hother hlast]

/-- What stands before a solid end does not matter. -/
theorem EndsSolid.append_left (h : EndsSolid more) (tokens : List Token) :
    EndsSolid (tokens ++ more) := by
  obtain ⟨last, hlast, hsolid⟩ := h
  exact ⟨last, by rw [List.getLast?_append, Option.mem_def.1 hlast]; rfl, hsolid⟩

/-- What is taken behind a solid end does not undo it, if it is sealed itself. -/
theorem EndsSolid.append (h : EndsSolid tokens) (hmore : Sealed more) :
    EndsSolid (tokens ++ more) := by
  obtain ⟨last, hlast, hsolid⟩ := h
  cases hend : more.getLast? with
  | none => exact ⟨last, by rw [List.getLast?_append, hend]; exact hlast, hsolid⟩
  | some other =>
    exact ⟨other, by rw [List.getLast?_append, hend]; rfl, hmore other (by rw [hend]; rfl)⟩

theorem Sealed.append (h : Sealed tokens) (hmore : Sealed more) : Sealed (tokens ++ more) := by
  intro last hlast
  rw [List.getLast?_append] at hlast
  cases hend : more.getLast? with
  | none => exact h last (by simpa [hend] using hlast)
  | some other => exact hmore last (by simpa [hend] using hlast)

end

namespace Parser

variable {α β σ τ : Type} {tokens done : List Token} {p q : Parser α} {next : α → Parser β}

/-- The parser carries no comments over. -/
def Plain (tokens : List Token) (p : Parser α) : Prop :=
  ∀ done, Takes tokens done p fun _ _ => True

/-- The parser carries no comments over, and what it takes last, if anything, is solid. -/
def Seals (tokens : List Token) (p : Parser α) : Prop :=
  ∀ done, Takes tokens done p fun used _ => Sealed used

/-- The parser carries no comments over, and takes a solid token last. -/
def Finishes (tokens : List Token) (p : Parser α) : Prop :=
  ∀ done, Takes tokens done p fun used _ => EndsSolid used

/-! ## Rules -/

/-- Whatever else is known of what a parser takes, it carries no comments over. -/
theorem Takes.plain {post : List Token → List Token → α → Prop}
    (h : ∀ done, Takes tokens done p (post done)) : Plain tokens p :=
  fun done => (h done).mono fun _ _ _ => trivial

theorem Seals.plain (h : Seals tokens p) : Plain tokens p := Takes.plain h

theorem Finishes.seals (h : Finishes tokens p) : Seals tokens p :=
  fun done => (h done).mono fun _ _ hused => hused.sealed

theorem Plain.bind (hp : Plain tokens p) (hnext : ∀ a, Plain tokens (next a)) :
    Plain tokens (p >>= next) := fun done => (hp done).bind fun _ a _ => hnext a _

/-- Only the last step has to take a solid token; the steps before it may take anything. -/
theorem Plain.bind_finishes (hp : Plain tokens p) (hnext : ∀ a, Finishes tokens (next a)) :
    Finishes tokens (p >>= next) := fun done =>
  (hp done).bind fun used a _ => (hnext a _).mono fun _ _ hmore => hmore.append_left used

/-- A sequence of steps that take nothing or end solid takes nothing or ends solid. -/
theorem Seals.bind (hp : Seals tokens p) (hnext : ∀ a, Seals tokens (next a)) :
    Seals tokens (p >>= next) := fun done =>
  (hp done).bind fun _ a hused => (hnext a _).mono fun _ _ hmore => hused.append hmore

/-- A step that takes a solid token last may be followed by one that takes nothing. -/
theorem Finishes.bind (hp : Finishes tokens p) (hnext : ∀ a, Seals tokens (next a)) :
    Finishes tokens (p >>= next) := fun done =>
  (hp done).bind fun _ a hused => (hnext a _).mono fun _ _ hmore => hused.append hmore

theorem seals_pure (a : α) : Seals tokens (pure a) := fun _ => takes_pure sealed_nil

/-- A parser that fails takes nothing that could end otherwise. -/
theorem finishes_fail (diagnostic : Diagnostic) : Finishes tokens (fail diagnostic : Parser α) :=
  fun _ => takes_fail diagnostic

theorem plain_ite {b : Bool} (hp : Plain tokens p) (hq : Plain tokens q) :
    Plain tokens (if b then p else q) := by cases b <;> assumption

theorem seals_ite {b : Bool} (hp : Seals tokens p) (hq : Seals tokens q) :
    Seals tokens (if b then p else q) := by cases b <;> assumption

theorem finishes_ite {b : Bool} (hp : Finishes tokens p) (hq : Finishes tokens q) :
    Finishes tokens (if b then p else q) := by cases b <;> assumption

/-- The token that is wanted is the last one taken, so it is enough that no comma and no comment is
wanted. -/
theorem finishes_expect {want : Want α} (h : want.Solid) : Finishes tokens (expect want) := fun _ =>
  takes_expect fun token a hread => endsSolid_singleton (h token a hread)

theorem seals_nextIs (kind : TokenKind) : Seals tokens (nextIs kind) :=
  fun _ => takes_nextIs kind fun _ => sealed_nil

/-- A token that may be missing: either it is taken, and is solid, or nothing is. -/
theorem seals_takeIf {kind : TokenKind} (hcomma : kind ≠ .punctuator .comma)
    (hcomment : kind.comment? = none) : Seals tokens (takeIf kind) := fun _ =>
  takes_takeIf sealed_nil fun token hkind =>
    EndsSolid.sealed (endsSolid_singleton (by rw [Token.IsSolid, hkind]; exact ⟨hcomma, hcomment⟩))

theorem seals_takeMark (mark : Punctuator) (h : mark ≠ .comma) :
    Seals tokens (takeIf (.punctuator mark)) := seals_takeIf (by simpa using h) rfl

theorem seals_takeKeyword (word : Keyword) : Seals tokens (takeIf (.keyword word)) :=
  seals_takeIf nofun rfl

theorem finishes_mark (mark : Punctuator) (h : mark ≠ .comma) :
    Finishes tokens (expect (.mark mark)) := finishes_expect (Want.solid_mark h)

theorem finishes_name (what : String) : Finishes tokens (name what) :=
  (finishes_expect (Want.solid_name what)).bind fun _ => seals_pure _

/-- Commas may be the last tokens taken, so no more than `Plain` can be said; likewise of
descriptions and comments, which follow. -/
theorem plain_skipCommas : Plain tokens skipCommas := fun _ => takes_skipCommas fun _ _ => trivial

theorem plain_descriptions : Plain tokens descriptions :=
  fun _ => takes_descriptions fun _ _ => trivial

theorem plain_innerComments : Plain tokens innerComments :=
  fun _ => takes_innerComments fun _ _ => trivial

/-- Comments in one round of a loop are not carried into the next. -/
theorem plain_loop {turn : σ → Parser (α ⊕ τ)} {want : Want β} {body : τ → β → Parser σ}
    (hturn : ∀ state, Plain tokens (turn state))
    (hbody : ∀ entry b, Plain tokens (body entry b)) (state : σ) :
    Plain tokens (loop turn want body state) := by
  have hwant : Plain tokens (expect want) := fun _ => takes_expect fun _ _ _ => trivial
  refine fun done => takes_loop (fun _ _ => True) (fun _ _ => True) (fun used state _ => ?_)
    (fun used entry _ => (hwant.bind (hbody entry)) _) trivial
  exact (hturn state _).mono fun _ turned _ => by cases turned <;> trivial

/-- The invariant of the loop is that what it has taken so far is sealed. -/
theorem seals_loop {turn : σ → Parser (α ⊕ τ)} {want : Want β} {body : τ → β → Parser σ}
    (hturn : ∀ state, Seals tokens (turn state))
    (hbody : ∀ entry, Seals tokens (expect want >>= body entry)) (state : σ) :
    Seals tokens (loop turn want body state) := by
  refine fun done => takes_loop (fun used _ => Sealed used) (fun used _ => Sealed used)
    (fun used state hinv => ?_) (fun used entry hmid => ?_) sealed_nil
  · refine (hturn state _).mono fun more turned hturned => ?_
    cases turned <;> exact hinv.append hturned
  · exact (hbody entry _).mono fun more state hstate => hmid.append hstate

/-- Before an entry in parentheses there may be commas and descriptions. -/
theorem plain_turnInParens {stop : List String → α} {go : List String → τ} :
    Plain tokens (turnInParens stop go) := by
  intro done feed turned rest hfeed hrun
  obtain ⟨before, lead, after, hrest, -⟩ := exists_turnInParens_run hfeed hrun
  exact ⟨before ++ lead ++ after, by simpa using hrest, trivial⟩

/-! ## Values, types and directives -/

/-- The last token of a list is its closing bracket. Induction on the depth, for the lists in it. -/
theorem finishes_listTail (separator : String) (depth : Nat) (opening : Span) :
    Finishes tokens (listTail separator depth opening) := by
  induction depth generalizing opening with
  | zero => exact finishes_fail _
  | succ depth ih =>
    refine (plain_loop (fun values => ?_) (fun values item => ?_) []).bind_finishes fun values =>
      (finishes_mark .bracketClose (by decide)).bind fun _ => seals_pure _
    · exact plain_skipCommas.bind fun _ => (seals_nextIs _).plain.bind fun close =>
        plain_ite (seals_pure _).plain (seals_pure _).plain
    · cases item with
      | inl opening => exact (ih opening).seals.plain.bind fun nested => (seals_pure _).plain
      | inr value => exact (seals_pure _).plain

/-- A value ends with a literal or with a bracket. -/
theorem finishes_value (separator : String) : Finishes tokens (value separator) := by
  refine (seals_nextIs _).plain.bind_finishes fun bracket => finishes_ite ?_ ?_
  · refine (finishes_mark .bracketOpen (by decide)).bind fun opening => ?_
    exact (finishes_listTail _ _ opening).seals.bind fun values => seals_pure _
  · exact (finishes_expect Want.solid_literal).bind fun _ => seals_pure _

theorem seals_optionalDefault : Seals tokens optionalDefault := by
  refine (seals_takeMark .equals (by decide)).bind fun _ => seals_ite ?_ (seals_pure _)
  exact (finishes_value _).seals.bind fun _ => seals_pure _

/-- A type ends with its name, its bracket or a bang. -/
theorem finishes_typeRef : Finishes tokens typeRef := by
  have hbang : Seals tokens (takeIf (.punctuator .bang)) := seals_takeMark .bang (by decide)
  refine (seals_takeMark .bracketOpen (by decide)).plain.bind_finishes fun bracket =>
    finishes_ite ?_ ?_
  · refine (finishes_name _).bind fun name => hbang.bind fun bang => ?_
    refine (finishes_mark .bracketClose (by decide)).seals.bind fun _ => ?_
    exact hbang.bind fun listBang => seals_pure _
  · exact (finishes_name _).bind fun name => hbang.bind fun bang => seals_pure _

/-- Arguments end with their closing parenthesis, whatever stands between them. -/
theorem seals_directiveArguments : Seals tokens directiveArguments := by
  refine (seals_takeMark .parenOpen (by decide)).bind fun paren => seals_ite ?_ (seals_pure _)
  refine Finishes.seals (Plain.bind_finishes (plain_loop (fun found => plain_turnInParens)
    (fun found name => ?_) ([], [])) fun found => ?_)
  · refine (finishes_mark .colon (by decide)).seals.plain.bind fun _ => ?_
    exact (finishes_value _).seals.plain.bind fun value => (seals_pure _).plain
  · exact (finishes_mark .parenClose (by decide)).bind fun _ => seals_pure _

/-- The last directive ends with its name or with its arguments. -/
theorem seals_directives : Seals tokens directives := by
  refine seals_loop (fun found => ?_) (fun found => ?_) []
  · exact (seals_nextIs _).bind fun sign => seals_ite (seals_pure _) (seals_pure _)
  · refine Finishes.seals ((finishes_mark .atSign (by decide)).bind fun _ => Finishes.seals ?_)
    exact plain_descriptions.bind_finishes fun before => (finishes_name _).bind fun name =>
      seals_directiveArguments.bind fun inner => seals_pure _

/-! ## Members and names -/

/-- An argument has a type at least; its default and its directives may follow. -/
theorem finishes_argumentTail (texts : List String) (name : String) :
    Finishes tokens (argumentTail texts name) := by
  refine (finishes_mark .colon (by decide)).seals.plain.bind_finishes fun _ => ?_
  refine plain_innerComments.bind_finishes fun inner => ?_
  exact finishes_typeRef.bind fun type => seals_optionalDefault.bind fun default =>
    seals_directives.bind fun directives => seals_pure _

theorem seals_optionalArguments : Seals tokens optionalArguments := by
  refine (seals_takeMark .parenOpen (by decide)).bind fun paren => seals_ite ?_ (seals_pure _)
  refine Finishes.seals (Plain.bind_finishes (plain_loop (fun found => plain_turnInParens)
    (fun entry name => ?_) []) fun found => ?_)
  · exact (finishes_argumentTail _ _).seals.plain.bind fun argument => (seals_pure _).plain
  · exact (finishes_mark .parenClose (by decide)).bind fun _ => seals_pure _

/-- A separator may stand before the first name but not behind the last, and is no comma. -/
theorem seals_separatedNames {separator : Punctuator} (h : separator ≠ .comma) (what : String) :
    Seals tokens (separatedNames separator what) := by
  have hseparator : Seals tokens (takeIf (.punctuator separator)) := seals_takeMark separator h
  refine hseparator.bind fun _ => seals_loop (fun state => ?_) (fun names => ?_) ([], true)
  · exact seals_pure _
  · exact (finishes_expect (Want.solid_name what)).seals.bind fun name => hseparator.bind
      fun more => seals_pure _

theorem seals_optionalInterfaces : Seals tokens optionalInterfaces := by
  refine (seals_takeKeyword .implements).bind fun _ => seals_ite ?_ (seals_pure _)
  exact (seals_separatedNames (by decide) _).bind fun _ => seals_pure _

theorem seals_optionalUnionMembers : Seals tokens optionalUnionMembers :=
  (seals_takeMark .equals (by decide)).bind fun _ =>
    seals_ite (seals_separatedNames (by decide) _) (seals_pure _)

end Parser

end SchemaMerge
