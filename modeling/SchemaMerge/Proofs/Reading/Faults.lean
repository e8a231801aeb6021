import SchemaMerge.Proofs.Reading.Settled
import SchemaMerge.Proofs.Token.Lossless

/-!
# Faults in a text

The first fault of a text stops the plain tokens in front of it, and no parser takes another token
than a plain one. So no fault is passed over: a text with a fault is no document, and what it fails
with is that fault, or what is wrong with a token in front of it (`ofText_of_fault`). In
particular its tokens never seem to end too early.
-/

namespace SchemaMerge

variable {cs : List Char} {file text : String}

/-! ## Tokens in a row -/

theorem Tiles.le_start_of_mem {offset : Nat} {tokens : List Token} (h : Tiles cs offset tokens) :
    ∀ token ∈ tokens, offset ≤ token.span.start.offset := by
  induction h with
  | last _ hstart => exact List.forall_mem_singleton.2 hstart
  | next _ hstart hstop _ _ _ _ ih =>
    refine List.forall_mem_cons.2 ⟨hstart, fun token hmem => ?_⟩
    have hbehind := ih token hmem
    omega

theorem Tiles.pairwise_start {offset : Nat} {tokens : List Token} (h : Tiles cs offset tokens) :
    tokens.Pairwise fun token behind => token.span.start.offset < behind.span.start.offset := by
  induction h with
  | last => exact List.pairwise_singleton ..
  | next _ _ hstop _ _ _ hrest ih =>
    refine List.pairwise_cons.2 ⟨fun token hmem => ?_, ih⟩
    have hbehind := hrest.le_start_of_mem token hmem
    omega

/-! ## The first fault -/

theorem Token.failure?_eq_none_iff {token : Token} :
    token.failure? = none ↔ token.kind.isProper = true := by
  unfold failure?
  cases token.kind <;> simp [TokenKind.isProper]

theorem Token.span_of_failure? {token : Token} {e : Diagnostic} (h : token.failure? = some e) :
    e.span = token.span := by
  unfold failure? at h
  split at h
  · cases h
    rfl
  · cases h

/-- In front of the first fault of a text all tokens are plain. -/
theorem isPlain_of_failure? {before behind : List Token} {token : Token}
    (htokens : Token.ofText file text = before ++ token :: behind)
    (hbefore : ∀ other ∈ before, other.failure? = none) :
    ∀ other ∈ before, other.isPlain = true := by
  obtain ⟨-, inner, last, hconcat, -, hinner⟩ := tiles_ofText file text
  have hdrop : before ++ (token :: behind).dropLast = inner := by
    rw [← List.dropLast_append_of_ne_nil (List.cons_ne_nil token behind), ← htokens, hconcat,
      List.dropLast_concat]
  intro other hmem
  refine Token.isPlain_iff.2 ⟨Token.failure?_eq_none_iff.1 (hbefore other hmem), ?_⟩
  exact hinner other (hdrop ▸ List.mem_append_left _ hmem)

/-- The first fault of a text stops the plain tokens that stand in front of it. -/
theorem exists_first_failure {failure : Diagnostic}
    (h : (Token.ofText file text).findSome? Token.failure? = some failure) :
    ∃ token, token.failure? = some failure ∧
      ((Token.ofText file text).dropWhile Token.isPlain).head? = some token ∧
      ∀ other ∈ (Token.ofText file text).takeWhile Token.isPlain,
        other.span.start.offset < token.span.start.offset := by
  obtain ⟨before, token, behind, htokens, hfailure, hbefore⟩ := List.findSome?_eq_some_iff.1 h
  have hplain := isPlain_of_failure? htokens hbefore
  have hstops : ¬token.isPlain = true := fun htoken => by
    rw [Token.failure?_eq_none_iff.2 (Token.isPlain_iff.1 htoken).1] at hfailure
    cases hfailure
  have hsorted := (tiles_ofText file text).1.pairwise_start
  rw [htokens, List.pairwise_append] at hsorted
  refine ⟨token, hfailure, ?_, fun other hmem => ?_⟩
  · rw [htokens, List.dropWhile_append_of_pos hplain, List.dropWhile_cons_of_neg hstops,
      List.head?_cons]
  · rw [htokens, List.takeWhile_append_of_pos hplain, List.takeWhile_cons_of_neg hstops,
      List.append_nil] at hmem
    exact hsorted.2.2 other hmem token List.mem_cons_self

/-! ## Failures of a text -/

/-- The end of a text is no plain token. -/
theorem exists_head_dropWhile (file text : String) :
    ∃ token, ((Token.ofText file text).dropWhile Token.isPlain).head? = some token := by
  obtain ⟨-, inner, last, hconcat, hlast, -⟩ := tiles_ofText file text
  cases hdrop : (Token.ofText file text).dropWhile Token.isPlain with
  | nil =>
    have hplain := List.dropWhile_eq_nil_iff.1 hdrop last (by simp [hconcat])
    exact absurd hlast (Token.isPlain_iff.1 hplain).2
  | cons token behind => exact ⟨token, rfl⟩

/-- A text fails at one of its tokens. -/
theorem exists_span_of_ofText_eq_error {e : Diagnostic} (h : Document.ofText file text = .error e) :
    ∃ token ∈ Token.ofText file text, e.span = token.span := by
  have hmem {token : Token}
      (hhead : ((Token.ofText file text).dropWhile Token.isPlain).head? = some token) :
      token ∈ Token.ofText file text :=
    (List.dropWhile_suffix _).subset (List.mem_of_mem_head? hhead)
  cases Document.blames_of_ofTokens h with
  | plain token _ hplain hspan => exact ⟨token, (List.takeWhile_prefix _).subset hplain, hspan⟩
  | fault token hhead hfailure => exact ⟨token, hmem hhead, Token.span_of_failure? hfailure⟩
  | ended _ hhead =>
    obtain ⟨token, htoken⟩ := exists_head_dropWhile file text
    exact ⟨token, hmem htoken, (hhead token htoken).2⟩

/-- **No fault is passed over or reported as another.** A text with a fault fails with what its
first fault stands for, or with what is wrong in front of that, where no end is. A text without
faults can only fail because its tokens form no document. -/
theorem ofText_of_fault (file text : String) :
    (∀ failure, (Token.ofText file text).findSome? Token.failure? = some failure →
        ∃ e, Document.ofText file text = .error e ∧
          (e = failure ∨ (∃ cause, e.cause = .syntactic cause ∧
            ∀ expected, cause ≠ .unexpectedEnd expected) ∧
              e.span.start.offset < failure.span.start.offset)) ∧
      ((Token.ofText file text).findSome? Token.failure? = none →
        ∀ e, Document.ofText file text = .error e → ∃ cause, e.cause = .syntactic cause) := by
  constructor
  · intro failure h
    obtain ⟨token, hfailure, hhead, hbefore⟩ := exists_first_failure h
    have hproper : ¬token.kind = .endOfText := fun hkind => by
      simp [Token.failure?, hkind] at hfailure
    cases hrun : Document.ofText file text with
    | ok d =>
      obtain ⟨stop, hstop, hkind⟩ := Document.exists_endOfText_of_ofTokens hrun
      cases hhead.symm.trans hstop
      exact absurd hkind hproper
    | error e =>
      refine ⟨e, rfl, ?_⟩
      rw [Token.span_of_failure? hfailure]
      cases Document.blames_of_ofTokens hrun with
      | plain other cause hmem hspan hcause hend =>
        refine .inr ⟨⟨cause, hcause, fun expected hexpected => ?_⟩, ?_⟩
        · exact hend ⟨expected, hexpected ▸ hcause⟩
        · rw [hspan]
          exact hbefore other hmem
      | fault other hother he =>
        cases hhead.symm.trans hother
        exact .inl (Option.some.inj (he.symm.trans hfailure))
      | ended _ hstop => exact absurd (hstop token hhead).1 hproper
  · intro h e hrun
    cases Document.blames_of_ofTokens hrun with
    | plain _ cause _ _ hcause => exact ⟨cause, hcause⟩
    | fault token hhead hfailure =>
      have hmem := (List.dropWhile_suffix Token.isPlain).subset (List.mem_of_mem_head? hhead)
      rw [List.findSome?_eq_none_iff.1 h token hmem] at hfailure
      cases hfailure
    | ended hend =>
      obtain ⟨expected, hcause⟩ := hend
      exact ⟨_, hcause⟩

/-- A string that is not closed behind a mark that is out of place, and a text that breaks off. -/
theorem ofText_of_fault_string :
    let text := "scalar A !\n\"b"
    let string : Span := ⟨"a.graphql", ⟨1, 0, 11⟩, ⟨1, 2, 13⟩⟩
    let failure : Diagnostic := ⟨.lexical .unterminatedString,
      LexicalCause.unterminatedString.message, string, none,
      LexicalCause.unterminatedString.notes string⟩
    (Token.ofText "a.graphql" text).findSome? Token.failure? = some failure ∧
      (Token.ofText "a.graphql" "scalar").findSome? Token.failure? = none ∧
      (∃ e, Document.ofText "a.graphql" text = .error e ∧
        (e = failure ∨ (∃ cause, e.cause = .syntactic cause ∧
          ∀ expected, cause ≠ .unexpectedEnd expected) ∧
            e.span.start.offset < failure.span.start.offset)) ∧
      ∀ e, Document.ofText "a.graphql" "scalar" = .error e →
        ∃ cause, e.cause = .syntactic cause := by
  intro text string failure
  have hfault : (Token.ofText "a.graphql" text).findSome? Token.failure? = some failure := by
    decide +kernel
  have hnone : (Token.ofText "a.graphql" "scalar").findSome? Token.failure? = none := by
    decide +kernel
  exact ⟨hfault, hnone, (ofText_of_fault "a.graphql" text).1 failure hfault,
    (ofText_of_fault "a.graphql" "scalar").2 hnone⟩

end SchemaMerge
