import SchemaMerge.Printing.Indent
import SchemaMerge.Proofs.Text.Trimming

/-!
# Reading indentation patterns

`ReadsAs` is the grammar of indentation patterns, with the fault of every text that is none: the
last character is looked at first, and then the count in front of it. What is read of a text is what
the grammar says of the text without the blank characters at its ends, and nothing else. A pattern
that is written is read again.

Results:
* `IndentPattern.ofText_eq_iff_readsAs`: patterns are read as the grammar says, and written so that
  they are read again.
-/

namespace SchemaMerge

namespace Text

theorem isBlank_of_isDigit {c : Char} (h : c.isDigit = true) : isBlank c = false := by
  obtain ⟨hlow, hhigh⟩ := Char.isDigit_iff_toNat.1 h
  have hzero : '0'.toNat = 48 := rfl
  have hnine : '9'.toNat = 57 := rfl
  rw [hzero] at hlow
  rw [hnine] at hhigh
  simp only [isBlank, blankRanges, List.any_cons, List.any_nil, Bool.or_eq_false_iff,
    Bool.and_eq_false_iff, decide_eq_false_iff_not, not_le, and_true]
  omega

theorem decimal?_eq_some_iff {cs : List Char} {n : Nat} :
    decimal? cs = some n ↔ IsDigits cs ∧ Nat.ofDigitChars 10 cs 0 = n := by
  unfold decimal? IsDigits
  rw [← List.all_eq_true]
  cases cs with
  | nil => simp
  | cons c cs => cases hall : (c :: cs).all Char.isDigit <;> simp

end Text

/-! ## The grammar -/

/-- The number of a count: digits, perhaps behind a plus sign, or one without any. -/
inductive IsCount : List Char → Nat → Prop
  | absent : IsCount [] 1
  | digits {ds : List Char} : IsDigits ds → IsCount ds (Nat.ofDigitChars 10 ds 0)
  | plus {ds : List Char} : IsDigits ds → IsCount ('+' :: ds) (Nat.ofDigitChars 10 ds 0)

/-- What is read of a text without blank characters at its ends: a count that fits in 64 bits and a
kind, or what is wrong. -/
inductive ReadsAs : List Char → Except IndentFault IndentPattern → Prop
  | pattern {count : List Char} {n : Nat} (kind : IndentKind) :
    IsCount count n → (hn : n < UInt64.size) → ReadsAs (count ++ [kind.letter]) (.ok ⟨n, kind, hn⟩)
  | empty : ReadsAs [] (.error .empty)
  | unknownKind (before : List Char) {letter : Char} : letter ≠ 's' → letter ≠ 't' →
    ReadsAs (before ++ [letter]) (.error (.unknownKind letter))
  | invalidCount {count : List Char} (kind : IndentKind) :
    (∀ n, IsCount count n → ¬n < UInt64.size) →
      ReadsAs (count ++ [kind.letter]) (.error (.invalidCount (String.ofList count)))

namespace IndentPattern

theorem count?_eq_some_iff {count : List Char} {n : Nat} :
    count? count = some n ↔ IsCount count n := by
  unfold count?
  split
  · refine ⟨fun h => Option.some.inj h ▸ .absent, fun h => ?_⟩
    cases h with
    | absent => rfl
    | digits h => exact absurd rfl h.1
  · next digits =>
    rw [Text.decimal?_eq_some_iff]
    refine ⟨fun h => h.2 ▸ .plus h.1, fun h => ?_⟩
    cases h with
    | digits h => exact absurd (h.2 '+' List.mem_cons_self) (by decide)
    | plus h => exact ⟨h, rfl⟩
  · next hne hplus =>
    rw [Text.decimal?_eq_some_iff]
    refine ⟨fun h => h.2 ▸ .digits h.1, fun h => ?_⟩
    cases h with
    | absent => exact absurd rfl hne
    | digits h => exact ⟨h, rfl⟩
    | plus => exact absurd rfl (hplus _)

theorem ofLetter?_eq_some_iff {letter : Char} {kind : IndentKind} :
    IndentKind.ofLetter? letter = some kind ↔ kind.letter = letter := by
  unfold IndentKind.ofLetter?
  split_ifs with hs ht
  · subst hs
    cases kind <;> simp [IndentKind.letter]
  · subst ht
    cases kind <;> simp [IndentKind.letter]
  · cases kind <;> simp [IndentKind.letter, Ne.symm hs, Ne.symm ht]

/-! ## What is read and written -/

/-- What is read of a text is what the grammar says of its core. -/
theorem readsAs_ofText (text : String) :
    ReadsAs (Text.trim Text.isBlank text.toList) (ofText text) := by
  unfold ofText
  generalize Text.trim Text.isBlank text.toList = core
  rcases List.eq_nil_or_concat core with rfl | ⟨count, letter, rfl⟩
  · exact .empty
  · simp only [List.concat_eq_append, List.getLast?_concat, List.dropLast_concat]
    split
    · next hkind =>
      have hne (kind : IndentKind) : letter ≠ kind.letter := fun hletter => by
        rw [ofLetter?_eq_some_iff.2 hletter.symm] at hkind
        cases hkind
      exact .unknownKind count (hne .space) (hne .tab)
    · next kind hkind =>
      obtain rfl := ofLetter?_eq_some_iff.1 hkind
      unfold ofCount?
      split
      · next n hcount =>
        have hn := count?_eq_some_iff.1 hcount
        split
        · next hlt => exact .pattern kind hn hlt
        · next hge =>
          refine .invalidCount kind fun m hm => ?_
          obtain rfl : n = m := by
            rw [count?_eq_some_iff.2 hm] at hcount
            exact (Option.some.inj hcount).symm
          exact hge
      · next hcount =>
        refine .invalidCount kind fun m hm => ?_
        rw [count?_eq_some_iff.2 hm] at hcount
        cases hcount

/-- What the grammar says of the core of a text is read of it. -/
theorem ofText_of_readsAs {text : String} {result : Except IndentFault IndentPattern}
    (h : ReadsAs (Text.trim Text.isBlank text.toList) result) : ofText text = result := by
  have hkind (kind : IndentKind) : IndentKind.ofLetter? kind.letter = some kind :=
    ofLetter?_eq_some_iff.2 rfl
  unfold ofText
  generalize Text.trim Text.isBlank text.toList = core at h
  cases h with
  | pattern kind hcount hn =>
    simp only [List.getLast?_concat, List.dropLast_concat, hkind]
    rw [ofCount?, count?_eq_some_iff.2 hcount]
    exact dif_pos hn
  | empty => rfl
  | unknownKind before hs ht =>
    simp only [List.getLast?_concat, IndentKind.ofLetter?, if_neg hs, if_neg ht]
  | invalidCount kind hcount =>
    simp only [List.getLast?_concat, List.dropLast_concat, hkind]
    unfold ofCount?
    split
    · next n hn => exact dif_neg (hcount n (count?_eq_some_iff.1 hn))
    · rfl

/-- A pattern is read from its text. -/
theorem ofText_text (pattern : IndentPattern) : ofText pattern.text = .ok pattern := by
  obtain ⟨hdigits, hvalue⟩ := Text.decimal?_eq_some_iff.1 (Text.decimal?_repr pattern.count)
  have htext : pattern.text.toList = pattern.count.repr.toList ++ [pattern.kind.letter] := by
    simp [text]
  have htrims : Text.Trims Text.isBlank pattern.text.toList pattern.text.toList := by
    refine Text.trims_self ?_
    rw [htext]
    refine List.forall_mem_append.2 ⟨fun c hc => Text.isBlank_of_isDigit (hdigits.2 c hc),
      List.forall_mem_singleton.2 ?_⟩
    cases pattern.kind <;> decide
  have hcount := IsCount.digits hdigits
  rw [hvalue] at hcount
  refine ofText_of_readsAs ?_
  rw [Text.trims_iff.1 htrims, htext]
  exact .pattern pattern.kind hcount pattern.count_lt

/-- **Indentation patterns are read exactly.** What is read of a text is what the grammar says of
the text without the white space at its ends. A pattern that is written is read again. It stands for
as many spaces or tabs as it says, if that is less than `2 ^ 63`, and for no text otherwise. -/
theorem ofText_eq_iff_readsAs :
    (∀ text : String, ∃ core, Text.Trims Text.isBlank text.toList core ∧
      ∀ result, ofText text = result ↔ ReadsAs core result) ∧
    ∀ pattern : IndentPattern, ofText pattern.text = .ok pattern ∧
      pattern.unit?.map String.toList =
        if pattern.count < 9223372036854775808 then
          some (List.replicate pattern.count
            (match pattern.kind with
            | .space => ' '
            | .tab => '\t'))
        else none := by
  refine ⟨fun text => ⟨_, Text.trims_trim _ _, fun result => ⟨?_, ofText_of_readsAs⟩⟩,
    fun pattern => ⟨ofText_text pattern, ?_⟩⟩
  · rintro rfl
    exact readsAs_ofText text
  · have hlimit : pattern.count ≤ Text.maxBytes ↔ pattern.count < 9223372036854775808 := by
      unfold Text.maxBytes
      omega
    simp only [unit?, hlimit]
    split
    · rw [Option.map_some, String.toList_ofList]
      rfl
    · rfl

/-- The least count that can be read but is too great for a text. -/
theorem unit?_ne_some_of_too_many :
    ∃ pattern, ofText "9223372036854775808s" = .ok pattern ∧ pattern.text = "9223372036854775808s" ∧
      pattern.unit? ≠ some (String.ofList (List.replicate pattern.count ' ')) := by
  refine ⟨⟨9223372036854775808, .space, by decide⟩, by rfl, by decide +kernel, ?_⟩
  rw [unit?, if_neg (by decide)]
  exact nofun

/-- White space is trimmed, whatever its width, and the largest count that fits is read. -/
example : ofText "\u3000+0018446744073709551615t\u2028" =
    .ok ⟨18446744073709551615, .tab, by decide⟩ := by rfl

/-- Digits that are not those of ASCII are no count. -/
example : ofText "\uFF14s" = .error (.invalidCount "\uFF14") := by rfl

end IndentPattern

end SchemaMerge
