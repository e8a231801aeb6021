import SchemaMerge.Proofs.Merge.Documentation
import SchemaMerge.Proofs.Reading.Tail
import SchemaMerge.Proofs.Reading.Yields

/-!
# Parsers keep the comments that they read

A comment of a text is found again in the descriptions or in the comments of a node, where its `#`
tells it from a string (`remarks`). If no node follows it for it to describe it is dropped: that may
be where it `Dangles`, in a run of documentation in front of a closing bracket or the end of the
text. The run may have commas behind it, and in front of the end of the text more documentation
behind these: the comments behind a header without a body are handed over as a whole to what
follows, past the commas.
-/

namespace SchemaMerge

/-! ## The comments of a node -/

/-- The text of a comment, as it stands among texts of both kinds. -/
def IsRemark (text : String) : Prop := text.toList.head? = some '#'

instance : DecidablePred IsRemark := fun text =>
  inferInstanceAs (Decidable (text.toList.head? = some '#'))

/-- The comments among texts. -/
def remarksIn (texts : List String) : Multiset String := (texts : Multiset String).filter IsRemark

section

variable {α : Type} [Documented α]

/-- The comments in the descriptions and the comments of a node and of all in it. -/
def remarks (a : α) : Multiset String :=
  (texts .description a + texts .comment a).filter IsRemark

/-- The comments in the descriptions and the comments of all nodes of a list. -/
def remarksOf (as : List α) : Multiset String := (as.map remarks).sum

@[simp] theorem remarksOf_nil : remarksOf ([] : List α) = 0 := rfl

@[simp] theorem remarksOf_append (as bs : List α) :
    remarksOf (as ++ bs) = remarksOf as + remarksOf bs := by simp [remarksOf]

@[simp] theorem remarksOf_singleton (a : α) : remarksOf [a] = remarks a := by simp [remarksOf]

/-- The comments among the texts of a node stand among its descriptions or its comments. -/
theorem filter_textsOf (as : List α) :
    ((textsOf .description as + textsOf .comment as).filter IsRemark) = remarksOf as := by
  induction as with
  | nil => rfl
  | cons a as ih =>
    rw [textsOf_cons, textsOf_cons, remarksOf, List.map_cons, List.sum_cons, ← remarksOf, ← ih,
      remarks]
    simp only [Multiset.filter_add]
    abel

end

@[simp] theorem remarksIn_nil : remarksIn [] = 0 := rfl

@[simp] theorem remarksIn_append (texts more : List String) :
    remarksIn (texts ++ more) = remarksIn texts + remarksIn more := by
  rw [remarksIn, ← Multiset.coe_add, Multiset.filter_add]
  rfl

section

variable {α β γ : Type} [Documented α] [Documented β] [Documented γ] {a : α}
  {descriptions comments : List String} {bs : List β} {cs : List γ}

/-- The comments of a node are those among its own texts and those of the nodes in it. -/
theorem remarks_eq
    (h : ∀ kind : TextKind, texts kind a = kind.pick descriptions comments + textsOf kind bs) :
    remarks a = remarksIn descriptions + remarksIn comments + remarksOf bs := by
  simp only [remarks, h, TextKind.pick, remarksIn, ← filter_textsOf, Multiset.filter_add]
  abel

/-- The comments of a node are its own and those of two lists of members. -/
theorem remarks_eq_add (h : ∀ kind : TextKind, texts kind a =
      kind.pick descriptions comments + textsOf kind bs + textsOf kind cs) :
    remarks a =
      remarksIn descriptions + remarksIn comments + remarksOf bs + remarksOf cs := by
  simp only [remarks, h, TextKind.pick, remarksIn, ← filter_textsOf, Multiset.filter_add]
  abel

end

section

attribute [local simp] remarksIn

theorem remarks_directive (d : Directive) : remarks d = remarksIn d.descriptions := by
  simp [remarks, texts, TextKind.pick]

theorem remarks_schemaBlock (b : SchemaBlock) : remarks b = remarksIn b.descriptions := by
  simp [remarks, texts, TextKind.pick]

end

theorem remarks_argument (a : Argument) :
    remarks a = remarksIn a.descriptions + remarksIn [] + remarksOf a.directives :=
  remarks_eq fun _ => rfl

theorem remarks_field (f : Field) : remarks f =
    remarksIn f.descriptions + remarksIn f.comments + remarksOf f.arguments +
      remarksOf f.directives := remarks_eq_add fun _ => rfl

theorem remarks_enumValue (v : EnumValue) : remarks v =
    remarksIn v.descriptions + remarksIn v.comments + remarksOf v.directives :=
  remarks_eq fun _ => rfl

theorem remarks_directiveDefinition (d : DirectiveDefinition) : remarks d =
    remarksIn d.descriptions + remarksIn d.comments + remarksOf d.arguments :=
  remarks_eq fun _ => rfl

theorem remarks_scalar (d : ScalarDefinition) : remarks d =
    remarksIn d.descriptions + remarksIn d.comments + remarksOf d.directives :=
  remarks_eq fun _ => rfl

theorem remarks_enum (d : EnumDefinition) : remarks d =
    remarksIn d.descriptions + remarksIn d.comments + remarksOf d.values +
      remarksOf d.directives := remarks_eq_add fun _ => rfl

theorem remarks_fieldsDefinition (d : FieldsDefinition) : remarks d =
    remarksIn d.descriptions + remarksIn d.comments + remarksOf d.fields +
      remarksOf d.directives := remarks_eq_add fun _ => rfl

theorem remarks_union (d : UnionDefinition) : remarks d =
    remarksIn d.descriptions + remarksIn d.comments + remarksOf d.directives :=
  remarks_eq fun _ => rfl

theorem remarks_type (d : TypeDefinition) : remarks d =
    remarksIn d.descriptions + remarksIn d.comments + remarksOf d.fields +
      remarksOf d.directives := remarks_eq_add fun _ => rfl

theorem remarks_document (d : Document) : remarks d =
    remarksOf d.schemaBlocks + remarksOf d.directiveDefinitions + remarksOf d.scalars +
      remarksOf d.enums + remarksOf d.interfaces + remarksOf d.unions + remarksOf d.inputs +
      remarksOf d.types := by
  simp only [remarks, texts, ← filter_textsOf, Multiset.filter_add]
  abel

/-! ## The comments of a text -/

/-- A comment starts with its mark. -/
theorem isRemark_of_comment {token : Token} (h : token.kind.Genuine) {text : String}
    (hc : token.kind.comment? = some text) : IsRemark text := by
  obtain ⟨tail, htail⟩ := exists_cons_of_spells_comment (h.isComment hc)
  rw [IsRemark, htail]
  rfl

theorem exists_cons_of_spells_string {lexeme : List Char} {kind : TokenKind}
    (h : Spells lexeme kind) (hc : kind.comment? = none) (hd : kind.description?.isSome) :
    ∃ tail, lexeme = '"' :: tail := by
  cases h with
  | string => exact ⟨_, rfl⟩
  | blockString => exact ⟨_, rfl⟩
  | comment => cases hc
  | word =>
    unfold Scan.nameKind at hd
    split at hd <;> cases hd
  | _ => cases hd

/-- A string starts with a quote, so it is no comment. -/
theorem not_isRemark_of_string {token : Token} (h : token.kind.Genuine) {text : String}
    (hc : token.kind.comment? = none) (hd : token.kind.description? = some text) :
    ¬IsRemark text := by
  obtain ⟨tail, htail⟩ := exists_cons_of_spells_string (h.spells (.inr hd)) hc (by rw [hd]; rfl)
  simp [IsRemark, htail]

/-- The comments of tokens of a text are the remarks in their documentation. -/
theorem remarksIn_descriptionsOf {tokens : List Token}
    (h : ∀ token ∈ tokens, token.kind.Genuine) :
    remarksIn (descriptionsOf tokens) = commentsOf tokens := by
  induction tokens with
  | nil => rfl
  | cons token tokens ih =>
    rw [List.forall_mem_cons] at h
    rw [← List.singleton_append, descriptionsOf_append, remarksIn_append, ih h.2, commentsOf_append,
      ← Multiset.coe_add]
    congr 1
    cases hc : token.kind.comment? with
    | some text =>
      have hd := (Seam.description?_of_comment? (by rw [hc]; rfl)).trans hc
      simp [descriptionsOf, commentsOf, remarksIn, hc, hd, isRemark_of_comment h.1 hc]
    | none =>
      cases hd : token.kind.description? with
      | none => simp [descriptionsOf, commentsOf, hc, hd]
      | some text =>
        simp [descriptionsOf, commentsOf, remarksIn, hc, hd, not_isRemark_of_string h.1 hc hd]

/-- All comments of a run are comments of the text. -/
theorem remarksIn_commentsOf {tokens : List Token} (h : ∀ token ∈ tokens, token.kind.Genuine) :
    remarksIn (commentsOf tokens) = commentsOf tokens := by
  refine Multiset.filter_eq_self.2 fun text htext => ?_
  obtain ⟨token, ht, hcomment⟩ := List.mem_filterMap.1 (Multiset.mem_coe.1 htext)
  exact isRemark_of_comment (h token ht) hcomment

/-! ## Comments that are dropped -/

/-- The tokens without the documentation in front. -/
def behindDescriptions (tokens : List Token) : List Token :=
  tokens.dropWhile fun token => token.kind.description?.isSome

/-- The tokens without the commas in front. -/
def behindCommas (tokens : List Token) : List Token :=
  tokens.dropWhile fun token => token.kind = .punctuator .comma

/-- Behind documentation and commas comes a closing bracket or the end of the text. -/
def Closes (tokens : List Token) : Prop :=
  ∃ closer ∈ (behindCommas (behindDescriptions tokens)).head?,
    closer.kind ∈ [.punctuator .braceClose, .punctuator .parenClose, .endOfText]

instance (tokens : List Token) : Decidable (Closes tokens) :=
  inferInstanceAs (Decidable (∃ closer ∈ (behindCommas (behindDescriptions tokens)).head?,
    closer.kind ∈ [.punctuator .braceClose, .punctuator .parenClose, .endOfText]))

/-- Behind documentation, commas and more documentation comes the end of the text. -/
def ClosesLate (tokens : List Token) : Prop :=
  ∃ last ∈ (behindDescriptions (behindCommas (behindDescriptions tokens))).head?,
    last.kind = .endOfText

/-- The comment is among the tokens, in a run of documentation that nothing follows for it to
describe. -/
def Dangles (tokens : List Token) (comment : Token) : Prop :=
  ∃ before after, tokens = before ++ comment :: after ∧ (Closes after ∨ ClosesLate after)

/-- Descriptions in front are passed over. -/
theorem behindDescriptions_append {run : List Token} (h : AllDescriptions run)
    (tokens : List Token) : behindDescriptions (run ++ tokens) = behindDescriptions tokens :=
  List.dropWhile_append_of_pos h

theorem behindCommas_append {commas : List Token} (h : AllCommas commas) (tokens : List Token) :
    behindCommas (commas ++ tokens) = behindCommas tokens :=
  List.dropWhile_append_of_pos (by simpa [AllCommas] using h)

/-- Commas end a run of descriptions. -/
theorem behindDescriptions_of_commas {commas : List Token} (h : AllCommas commas)
    (hne : commas ≠ []) (tokens : List Token) :
    behindDescriptions (commas ++ tokens) = commas ++ tokens := by
  obtain ⟨comma, others, rfl⟩ := List.exists_cons_of_ne_nil hne
  have hcomma := h comma List.mem_cons_self
  rw [List.cons_append, behindDescriptions,
    List.dropWhile_cons_of_neg (by rw [hcomma]; decide)]

theorem behindDescriptions_cons {token : Token} (h : token.kind.description? = none)
    (tokens : List Token) : behindDescriptions (token :: tokens) = token :: tokens :=
  List.dropWhile_cons_of_neg (by simp [h])

theorem behindCommas_of_head? {tokens : List Token}
    (h : ∀ token ∈ tokens.head?, token.kind ≠ .punctuator .comma) :
    behindCommas tokens = tokens := by
  cases tokens with
  | nil => rfl
  | cons token tokens => exact List.dropWhile_cons_of_neg (by simpa using h token rfl)

/-- What closes a list is neither a description nor a comma. -/
theorem description?_of_closer {kind : TokenKind}
    (h : kind ∈ [.punctuator .braceClose, .punctuator .parenClose, .endOfText]) :
    kind.description? = none ∧ kind ≠ .punctuator .comma := by
  simp only [List.mem_cons, List.not_mem_nil, or_false] at h
  rcases h with rfl | rfl | rfl <;> exact ⟨rfl, by simp⟩

/-- Documentation in front of commas and a closing bracket dangles. -/
theorem dangles_of_closer {tokens before run commas after : List Token} {closer comment : Token}
    (htokens : tokens = before ++ run ++ commas ++ closer :: after) (hrun : AllDescriptions run)
    (hcommas : AllCommas commas) (hcomment : comment ∈ run)
    (hcloser : closer.kind ∈ [.punctuator .braceClose, .punctuator .parenClose, .endOfText]) :
    Dangles tokens comment := by
  obtain ⟨first, others, rfl⟩ := List.append_of_mem hcomment
  have hothers : AllDescriptions others := fun token ht => hrun token (by simp [ht])
  obtain ⟨hdescription, hcomma⟩ := description?_of_closer hcloser
  have hbehind : behindCommas (closer :: after) = closer :: after :=
    behindCommas_of_head? (by rintro _ ⟨⟩; exact hcomma)
  refine ⟨before ++ first, others ++ (commas ++ closer :: after), by simp [htokens], .inl ?_⟩
  refine ⟨closer, ?_, hcloser⟩
  rw [behindDescriptions_append hothers]
  by_cases hnone : commas = []
  · rw [hnone, List.nil_append, behindDescriptions_cons hdescription, hbehind]
    rfl
  · rw [behindDescriptions_of_commas hcommas hnone, behindCommas_append hcommas, hbehind]
    rfl

/-- Documentation in front of commas, more documentation and the end of the text dangles. -/
theorem dangles_of_endOfText {tokens before run commas others after : List Token}
    {last comment : Token} (htokens : tokens = before ++ run ++ commas ++ others ++ last :: after)
    (hrun : AllDescriptions run) (hcommas : AllCommas commas) (hothers : AllDescriptions others)
    (hcomment : comment ∈ run) (hlast : last.kind = .endOfText) : Dangles tokens comment := by
  obtain ⟨first, more, rfl⟩ := List.append_of_mem hcomment
  have hmore : AllDescriptions more := fun token ht => hrun token (by simp [ht])
  have hend : behindDescriptions (last :: after) = last :: after :=
    behindDescriptions_cons (by rw [hlast]; rfl) after
  have hlate : behindDescriptions (others ++ last :: after) = last :: after := by
    rw [behindDescriptions_append hothers, hend]
  refine ⟨before ++ first, more ++ (commas ++ (others ++ last :: after)), by simp [htokens],
    .inr ⟨last, ?_, hlast⟩⟩
  rw [behindDescriptions_append hmore]
  by_cases hnone : commas = []
  · have hcommas : behindCommas (last :: after) = last :: after :=
      behindCommas_of_head? (by rintro _ ⟨⟩; simp [hlast])
    rw [hnone, List.nil_append, hlate, hcommas, hend]
    rfl
  · have hstart : behindCommas (others ++ last :: after) = others ++ last :: after := by
      refine behindCommas_of_head? fun token ht => ?_
      rintro hcomma
      cases others with
      | nil =>
        obtain rfl := Option.some.inj ht
        rw [hlast] at hcomma
        cases hcomma
      | cons other others =>
        obtain rfl := Option.some.inj ht
        have hdescription := hothers other List.mem_cons_self
        rw [hcomma] at hdescription
        cases hdescription
    rw [behindDescriptions_of_commas hcommas hnone, behindCommas_append hcommas, hstart, hlate]
    rfl

end SchemaMerge
