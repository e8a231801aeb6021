import SchemaMerge.Proofs.Reading.Joined
import SchemaMerge.Proofs.RoundTrip.Layout
import SchemaMerge.Proofs.Token.Lossless

/-!
# Tokens on lines of their own

Messages write a token as its text. That text tells the token: a line feed ends every token, so the
texts of the tokens of a text without faults, each on a line of its own, are read as these tokens
again (`kinds_ofText_linesOf`). What is lost are the places where the tokens stood.
-/

namespace SchemaMerge

/-! ## What is written -/

/-- Tokens as messages write them, each on a line of its own. The end of a text is not written. -/
def linesOf (kinds : List TokenKind) : String :=
  String.intercalate "\n" ((kinds.filter (· ≠ .endOfText)).map TokenKind.text)

/-- Tokens on further lines. -/
def furtherLines (kinds : List TokenKind) : List Char :=
  kinds.flatMap fun kind => '\n' :: kind.text.toList

theorem toList_linesOf_cons {kind : TokenKind} {kinds : List TokenKind}
    (hkind : kind ≠ .endOfText) (hkinds : ∀ other ∈ kinds, other ≠ .endOfText) :
    (linesOf (kind :: kinds)).toList = kind.text.toList ++ furtherLines kinds := by
  have hfilter : (kind :: kinds).filter (· ≠ .endOfText) = kind :: kinds := by
    rw [List.filter_eq_self, List.forall_mem_cons]
    exact ⟨by simpa using hkind, fun other hother => by simpa using hkinds other hother⟩
  rw [linesOf, hfilter, String.toList_intercalate, List.map_map, intercalate_map_cons]
  rfl

/-! ## What is read -/

/-- A line feed ends every token. -/
theorem TokenKind.endsBefore_line_feed (kind : TokenKind) (rest : List Char) :
    kind.EndsBefore ('\n' :: rest) := by
  unfold TokenKind.EndsBefore
  split <;> first | trivial | (rintro _ ⟨⟩; rfl)

theorem TokenKind.endsBefore_furtherLines (kind : TokenKind) (kinds : List TokenKind) :
    kind.EndsBefore (furtherLines kinds) := by
  cases kinds with
  | nil => exact kind.endsBefore_nil
  | cons => exact kind.endsBefore_line_feed _

/-- Each further line is read as the token that it writes. -/
theorem kinds_tokensFrom_furtherLines {kinds : List TokenKind}
    (h : ∀ kind ∈ kinds, Spells kind.text.toList kind) (file : String) (tracker : Tracker) :
    (tokensFrom file tracker (furtherLines kinds)).map Token.kind = kinds ++ [.endOfText] := by
  induction kinds generalizing tracker with
  | nil => rw [furtherLines, List.flatMap_nil, tokensFrom_eq]; rfl
  | cons kind kinds ih =>
    obtain ⟨hkind, hkinds⟩ := List.forall_mem_cons.1 h
    have hgap : ∀ c ∈ ['\n'], isIgnored c = true := List.forall_mem_singleton.2 rfl
    show (tokensFrom file tracker (['\n'] ++ (kind.text.toList ++ furtherLines kinds))).map _ = _
    rw [tokensFrom_gap_append hgap,
      kinds_tokensFrom_append hkind (kind.endsBefore_furtherLines kinds), ih hkinds]
    rfl

theorem kinds_ofText_linesOf_of_spells {kinds : List TokenKind}
    (h : ∀ kind ∈ kinds, Spells kind.text.toList kind) (file : String) :
    (Token.ofText file (linesOf (kinds ++ [.endOfText]))).map Token.kind =
      kinds ++ [.endOfText] := by
  have hends : ∀ kind ∈ kinds, kind ≠ .endOfText := fun kind hkind => (h kind hkind).ne_endOfText
  have hlines : linesOf (kinds ++ [.endOfText]) = linesOf kinds := by
    simp [linesOf]
  rw [Token.ofText, hlines]
  cases kinds with
  | nil => exact kinds_tokensFrom_furtherLines (List.forall_mem_nil _) file .start
  | cons kind kinds =>
    obtain ⟨hkind, hkinds⟩ := List.forall_mem_cons.1 h
    obtain ⟨hend, hends⟩ := List.forall_mem_cons.1 hends
    rw [toList_linesOf_cons hend hends,
      kinds_tokensFrom_append hkind (kind.endsBefore_furtherLines kinds),
      kinds_tokensFrom_furtherLines hkinds]
    rfl

/-- A token of a text is spelled by its own text, unless it is the end or a fault. -/
theorem TokenKind.Genuine.spells_text {kind : TokenKind} (h : kind.Genuine)
    (hproper : kind.isProper = true) (hend : kind ≠ .endOfText) :
    Spells kind.text.toList kind := by
  cases kind with
  | endOfText => exact absurd rfl hend
  | fault => cases hproper
  | _ => exact h

/-- **Tokens that are written on lines of their own are read again.** -/
theorem kinds_ofText_linesOf {file text : String}
    (h : ∀ token ∈ Token.ofText file text, token.kind.isProper = true) (other : String) :
    (Token.ofText other (linesOf ((Token.ofText file text).map Token.kind))).map Token.kind =
      (Token.ofText file text).map Token.kind := by
  obtain ⟨tokens, last, htokens, hlast, hends⟩ :=
    exists_tokensFrom_eq_concat file .start text.toList
  have hall : Token.ofText file text = tokens ++ [last] := htokens
  have hgenuine : ∀ token ∈ Token.ofText file text, token.kind.Genuine :=
    genuine_of_mem_tokensFrom
  rw [hall, List.forall_mem_append] at h hgenuine
  have hspells : ∀ kind ∈ tokens.map Token.kind, Spells kind.text.toList kind :=
    List.forall_mem_map.2 fun token hmem =>
      (hgenuine.1 token hmem).spells_text (h.1 token hmem) (hends token hmem)
  rw [hall, List.map_append, List.map_singleton, hlast]
  exact kinds_ofText_linesOf_of_spells hspells other

/-- Integers in canonical form, a mark in front of another, an empty string, and a block string with
quotes and a carriage return in it. -/
theorem kinds_ofText_linesOf_values :
    let text := "+007 -0 - .5 ... type \"\" \"\"\"a\\\"\"\"\r\n\"\"\" # b\rName"
    (∀ token ∈ Token.ofText "a.graphql" text, token.kind.isProper = true) ∧
      linesOf ((Token.ofText "a.graphql" text).map Token.kind) =
        "7\n0\n-\n.\n5\n...\ntype\n\"\"\n\"\"\"a\\\"\"\"\n\"\"\"\n# b\nName" ∧
      (Token.ofText "b.graphql"
          (linesOf ((Token.ofText "a.graphql" text).map Token.kind))).map Token.kind =
        (Token.ofText "a.graphql" text).map Token.kind := by
  intro text
  have h : ∀ token ∈ Token.ofText "a.graphql" text, token.kind.isProper = true := by
    decide +kernel
  exact ⟨h, by decide +kernel, kinds_ofText_linesOf h "b.graphql"⟩

end SchemaMerge
