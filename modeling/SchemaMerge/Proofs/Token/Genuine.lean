import SchemaMerge.Proofs.Token.Lexeme
import SchemaMerge.Token.Lexer

/-!
# Tokens that are read again from their own text

A token keeps the text that matters of its lexeme: an integer in canonical form, a block string with
its line breaks written as line feeds. That text spells the token again (`Spells.text`), so every
token of a text other than its end and a fault can be written down and read back
(`genuine_of_mem_tokensFrom`).
-/

namespace SchemaMerge

/-! ## Canonical integers -/

namespace Integer

theorem isDigits_canonicalDigits {ds : List Char} (h : ∀ c ∈ ds, c.isDigit = true) :
    IsDigits (canonicalDigits ds) := by
  unfold canonicalDigits
  split
  · exact ⟨by simp, by simp⟩
  · next hds =>
    exact ⟨hds, fun c hc => h c ((List.dropWhile_sublist _).subset hc)⟩

theorem canonicalDigits_canonicalDigits (ds : List Char) :
    canonicalDigits (canonicalDigits ds) = canonicalDigits ds := by
  cases h : ds.dropWhile (· = '0') with
  | nil => simp [canonicalDigits, h]
  | cons d tail =>
    have hd : decide (d = '0') = false := by
      have := List.head?_dropWhile_not (· = '0') ds
      simpa [h] using this
    simp [canonicalDigits, h, hd]

theorem all_zero_canonicalDigits {ds : List Char} (h : ds.all (· = '0') = false) :
    (canonicalDigits ds).all (· = '0') = false := by
  induction ds with
  | nil => cases h
  | cons d ds ih =>
    by_cases hd : d = '0'
    · subst hd
      have hskip : canonicalDigits ('0' :: ds) = canonicalDigits ds := by simp [canonicalDigits]
      rw [hskip]
      exact ih (by simpa using h)
    · have hkeep : canonicalDigits (d :: ds) = d :: ds := by simp [canonicalDigits, hd]
      rw [hkeep, h]

theorem canonical_of_isDigits {ds : List Char} (h : ∀ c ∈ ds, c.isDigit = true) :
    canonical ds = canonicalDigits ds := by
  unfold canonical
  split
  · exact absurd (h '-' List.mem_cons_self) (by decide)
  · exact absurd (h '+' List.mem_cons_self) (by decide)
  · rfl

/-- A canonical integer is digits that are canonical, perhaps behind a minus. -/
theorem canonical_cases {sign ds : List Char} (hsign : sign = [] ∨ sign = ['-'] ∨ sign = ['+'])
    (h : IsDigits ds) : ∃ s es, (s = [] ∨ s = ['-'] ∨ s = ['+']) ∧ IsDigits es ∧
      canonical (sign ++ ds) = s ++ es ∧ canonical (s ++ es) = s ++ es := by
  have hcanonical := isDigits_canonicalDigits h.2
  have hagain : canonical (canonicalDigits ds) = canonicalDigits ds := by
    rw [canonical_of_isDigits hcanonical.2, canonicalDigits_canonicalDigits]
  rcases hsign with rfl | rfl | rfl
  · exact ⟨[], _, .inl rfl, hcanonical, canonical_of_isDigits h.2, hagain⟩
  · cases hzero : ds.all (· = '0') with
    | true =>
      refine ⟨[], ['0'], .inl rfl, ⟨by simp, by simp⟩, ?_, rfl⟩
      simp only [List.singleton_append, canonical, hzero, if_true]
      rfl
    | false =>
      refine ⟨['-'], _, .inr (.inl rfl), hcanonical, ?_, ?_⟩
      · simp only [List.singleton_append, canonical, hzero, Bool.false_eq_true, if_false]
      · simp only [List.singleton_append, canonical, all_zero_canonicalDigits hzero,
          canonicalDigits_canonicalDigits, Bool.false_eq_true, if_false]
  · exact ⟨[], _, .inl rfl, hcanonical, rfl, hagain⟩

end Integer

/-! ## The text of a token -/

theorem IsNumber.isDigits {cs : List Char} (h : IsNumber cs false) : IsDigits cs := by
  generalize hf : false = isFloat at h
  cases h with
  | mk hwhole hfraction hexponent =>
    cases hfraction with
    | some => simp at hf
    | none =>
      cases hexponent with
      | some => simp at hf
      | none => simpa using hwhole

theorem IsDigits.isNumber {cs : List Char} (h : IsDigits cs) : IsNumber cs false := by
  simpa using IsNumber.mk h .none .none

/-- A name is one character that may start it and others that may continue it. -/
def IsName (name : String) : Prop :=
  ∃ c cs, name.toList = c :: cs ∧ isNameStart c = true ∧ ∀ c ∈ cs, isNamePart c = true

theorem text_nameKind (name : String) : (Scan.nameKind name).text = name := by
  unfold Scan.nameKind
  split
  · next h => exact Keyword.ofText?_eq_some_iff.1 h
  · rfl

theorem name?_nameKind (name : String) : (Scan.nameKind name).name? = some name := by
  unfold Scan.nameKind
  split
  · next h => exact congrArg some (Keyword.ofText?_eq_some_iff.1 h)
  · rfl

theorem IsName.spells {name : String} (h : IsName name) :
    Spells name.toList (Scan.nameKind name) := by
  obtain ⟨c, cs, htext, hc, hcs⟩ := h
  have hspells := Spells.word hc hcs
  rwa [← htext, String.ofList_toList] at hspells

/-- The text of a name token is a name. -/
theorem isName_of_spells {lexeme : List Char} {name : String} (h : Spells lexeme (.name name)) :
    IsName name := by
  generalize hkind : TokenKind.name name = kind at h
  cases h with
  | @word c cs hc hcs =>
    have htext := congrArg TokenKind.text hkind
    rw [text_nameKind] at htext
    exact ⟨c, cs, by rw [show name = String.ofList (c :: cs) from htext, String.toList_ofList], hc,
      hcs⟩
  | _ => cases hkind

theorem isName_keyword (word : Keyword) : IsName word.text := by
  cases word <;> exact ⟨_, _, rfl, rfl, List.all_eq_true.1 rfl⟩

theorem nameKind_keyword (word : Keyword) : Scan.nameKind word.text = .keyword word := by
  have hword : Keyword.ofText? word.text = some word := Keyword.ofText?_eq_some_iff.2 rfl
  rw [Scan.nameKind, hword]

/-- **The text of a token spells that token.** -/
theorem Spells.text {lexeme : List Char} {kind : TokenKind} (h : Spells lexeme kind) :
    Spells kind.text.toList kind := by
  cases h with
  | @mark c mark h =>
    show Spells mark.text.toList _
    rw [Punctuator.text_ofChar? h]
    exact .mark h
  | dot => exact .dot
  | ellipsis => exact .ellipsis
  | minus => exact .minus
  | plus => exact .plus
  | comment h => simpa [TokenKind.text] using Spells.comment h
  | word hc hcs =>
    rw [text_nameKind, String.toList_ofList]
    exact .word hc hcs
  | float hsign h => simpa [TokenKind.text] using Spells.float hsign h
  | integer hsign h =>
    obtain ⟨s, es, hs, hes, hcanonical, hagain⟩ := Integer.canonical_cases hsign h.isDigits
    have hspells := Spells.integer hs hes.isNumber
    rw [hagain] at hspells
    simpa [TokenKind.text, hcanonical] using hspells
  | string h => simpa [TokenKind.text] using Spells.string h
  | @blockString cs h =>
    have hbreaks : Text.normalizeBreaks ('"' :: '"' :: '"' :: cs) =
        '"' :: '"' :: '"' :: Text.normalizeBreaks cs := by simp [Text.normalizeBreaks]
    have hspells := Spells.blockString h.normalizeBreaks
    rw [← hbreaks, Text.normalizeBreaks_normalizeBreaks] at hspells
    simpa [TokenKind.text] using hspells

/-- The token is no fault. -/
def TokenKind.isProper : TokenKind → Bool
  | .fault .. => false
  | _ => true

theorem exists_reading_of_isProper {cs : List Char} {span : Span}
    (h : ((scan cs).kindAt span).isProper = true) :
    ∃ kind, (scan cs).reading = .ok kind ∧ (scan cs).kindAt span = kind := by
  unfold Scan.kindAt at h ⊢
  split
  · next kind hk => exact ⟨kind, hk, rfl⟩
  · next hk =>
    rw [hk] at h
    cases h

/-- A token that its text spells; the end of a text and faults have none. -/
def TokenKind.Genuine : TokenKind → Prop
  | .endOfText | .fault .. => True
  | kind => Spells kind.text.toList kind

theorem TokenKind.genuine_of_spells {lexeme : List Char} {kind : TokenKind}
    (h : Spells lexeme kind) : kind.Genuine := by
  have htext := h.text
  unfold TokenKind.Genuine
  split
  · trivial
  · trivial
  · exact htext

theorem genuine_kindAt (cs : List Char) (span : Span) : ((scan cs).kindAt span).Genuine := by
  unfold Scan.kindAt
  split
  · next kind hk =>
    by_cases hne : (scan cs).lexeme = []
    · have hend := (scan_of_lexeme_eq_nil hne).1
      rw [hk] at hend
      cases hend
      trivial
    · exact TokenKind.genuine_of_spells (spells_of_scan hk hne)
  · trivial

/-- **Every token of a text is genuine.** -/
theorem genuine_of_mem_tokensFrom {file : String} {tracker : Tracker} {cs : List Char} :
    ∀ token ∈ tokensFrom file tracker cs, token.kind.Genuine := by
  fun_induction tokensFrom file tracker cs with
  | case1 => exact List.forall_mem_singleton.2 (genuine_kindAt _ _)
  | case2 _ _ _ _ _ _ _ _ ih => exact List.forall_mem_cons.2 ⟨genuine_kindAt _ _, ih⟩

/-- A text ends once. -/
theorem exists_tokensFrom_eq_concat (file : String) (tracker : Tracker) (cs : List Char) :
    ∃ tokens last, tokensFrom file tracker cs = tokens ++ [last] ∧ last.kind = .endOfText ∧
      ∀ token ∈ tokens, token.kind ≠ .endOfText := by
  fun_induction tokensFrom file tracker cs with
  | case1 tracker cs found start stop span token hnil =>
    refine ⟨[], token, rfl, ?_, List.forall_mem_nil _⟩
    show found.kindAt span = _
    rw [Scan.kindAt, (scan_of_lexeme_eq_nil hnil).1]
  | case2 tracker cs found start stop span token hne ih =>
    obtain ⟨tokens, last, htokens, hlast, hinner⟩ := ih
    refine ⟨token :: tokens, last, congrArg (token :: ·) htokens, hlast,
      List.forall_mem_cons.2 ⟨?_, hinner⟩⟩
    show found.kindAt span ≠ _
    unfold Scan.kindAt
    split
    · next hreading => exact (spells_of_scan hreading hne).ne_endOfText
    · simp

end SchemaMerge
