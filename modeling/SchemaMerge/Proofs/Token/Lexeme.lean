import SchemaMerge.Proofs.Text.Breaks
import SchemaMerge.Token.Scan

/-!
# A token in another place

The characters of a token are read as the same token wherever they stand, if what stands behind them
does not run into them: behind a name or number a delimiter, behind a comment the end of its line.
`scan_append_rest` says so for every token; printed texts rest on it.
-/

namespace SchemaMerge

/-! ## What may stand behind a token -/

/-- A text that is empty or starts with a character of a class. -/
def HeadIn (p : Char → Bool) (cs : List Char) : Prop := ∀ c ∈ cs.head?, p c = true

/-- A text that may stand behind a name or a number. -/
abbrev Delimited (cs : List Char) : Prop := HeadIn endsWord cs

/-- What a token of the kind has to have behind it so that it ends there. -/
def TokenKind.EndsBefore (rest : List Char) : TokenKind → Prop
  | .keyword _ | .name _ | .integer _ | .float _ => Delimited rest
  | .string _ => HeadIn (· ≠ '"') rest
  | .comment _ => HeadIn Text.isBreak rest
  | .punctuator .dot => HeadIn (· ≠ '.') rest
  | .punctuator .minus | .punctuator .plus => HeadIn (fun c => !c.isDigit) rest
  | _ => True

theorem HeadIn.mono {p q : Char → Bool} {cs : List Char} (h : HeadIn p cs)
    (hpq : ∀ c, p c = true → q c = true) : HeadIn q cs := fun c hc => hpq c (h c hc)

theorem headIn_append {p : Char → Bool} {cs ds : List Char} (hcs : HeadIn p cs)
    (hds : HeadIn p ds) : HeadIn p (cs ++ ds) := by
  cases cs with
  | nil => exact hds
  | cons c cs => exact hcs

/-- A text is split where the first character stands that is not of the kind. -/
theorem takeWhile_append_of_head {p : Char → Bool} {cs rest : List Char}
    (hcs : ∀ c ∈ cs, p c = true) (hrest : HeadIn (fun c => !p c) rest) :
    (cs ++ rest).takeWhile p = cs ∧ (cs ++ rest).dropWhile p = rest := by
  rw [List.takeWhile_append_of_pos hcs, List.dropWhile_append_of_pos hcs]
  cases rest with
  | nil => simp
  | cons c rest => simp [show p c = false by simpa using hrest c rfl]

/-- Behind the characters of a kind stands one that is not of it, or nothing. -/
theorem headIn_dropWhile (p : Char → Bool) (cs : List Char) :
    HeadIn (fun c => !p c) (cs.dropWhile p) := by
  intro c hc
  have hnot := List.head?_dropWhile_not p cs
  rw [Option.mem_def.1 hc] at hnot
  simpa using hnot

theorem headIn_dropWhile_not (p : Char → Bool) (cs : List Char) :
    HeadIn p (cs.dropWhile fun c => !p c) :=
  (headIn_dropWhile _ cs).mono fun c hc => by simpa using hc

theorem forall_mem_takeWhile {p : Char → Bool} {cs : List Char} :
    ∀ c ∈ cs.takeWhile p, p c = true :=
  List.all_eq_true.1 List.all_takeWhile

/-- Behind a name or number stands nothing that could continue it. -/
theorem not_isNamePart_of_endsWord {c : Char} (h : endsWord c = true) : (!isNamePart c) = true := by
  simp only [endsWord, isIgnored, Bool.or_eq_true, decide_eq_true_eq] at h
  rcases h with (((((((((((((rfl | rfl) | rfl) | rfl) | rfl) | rfl) | rfl) | rfl) | rfl) | rfl) |
    rfl) | rfl) | rfl) | rfl) <;> decide

/-- The characters that may continue a number. -/
def isNumberPart (c : Char) : Bool := c.isDigit || c = '.' || c = 'e' || c = 'E'

/-- What ends a word ends a number. -/
theorem not_isNumberPart_of_endsWord {c : Char} (h : endsWord c = true) :
    (!isNumberPart c) = true := by
  simp only [endsWord, isIgnored, Bool.or_eq_true, decide_eq_true_eq] at h
  rcases h with (((((((((((((rfl | rfl) | rfl) | rfl) | rfl) | rfl) | rfl) | rfl) | rfl) | rfl) |
    rfl) | rfl) | rfl) | rfl) <;> decide

/-! ## Numbers -/

/-- A text of digits, at least one. -/
def IsDigits (cs : List Char) : Prop := cs ≠ [] ∧ ∀ c ∈ cs, c.isDigit = true

/-- The fraction of a number, and whether there is one. -/
inductive IsFraction : List Char → Bool → Prop
  | none : IsFraction [] false
  | some {digits : List Char} : IsDigits digits → IsFraction ('.' :: digits) true

/-- The mark of an exponent and its sign. -/
inductive IsExponentMark : List Char → Prop
  | plain {e : Char} : e = 'e' ∨ e = 'E' → IsExponentMark [e]
  | signed {e s : Char} : e = 'e' ∨ e = 'E' → s = '-' ∨ s = '+' → IsExponentMark [e, s]

/-- The exponent of a number, and whether there is one. -/
inductive IsExponent : List Char → Bool → Prop
  | none : IsExponent [] false
  | some {mark digits : List Char} :
    IsExponentMark mark → IsDigits digits → IsExponent (mark ++ digits) true

/-- A number without a sign, and whether it has a fraction or an exponent. -/
inductive IsNumber : List Char → Bool → Prop
  | mk {whole fraction exponent : List Char} {hasFraction hasExponent : Bool} :
    IsDigits whole → IsFraction fraction hasFraction → IsExponent exponent hasExponent →
      IsNumber (whole ++ fraction ++ exponent) (hasFraction || hasExponent)

theorem IsDigits.takeWhile {d : Char} {cs : List Char} (h : d.isDigit = true) :
    IsDigits ((d :: cs).takeWhile Char.isDigit) := by
  refine ⟨?_, forall_mem_takeWhile⟩
  rw [List.takeWhile_cons_of_pos h]
  simp

theorem IsDigits.exists_cons {cs : List Char} (h : IsDigits cs) :
    ∃ d ds, cs = d :: ds ∧ d.isDigit = true := by
  obtain ⟨hne, hall⟩ := h
  obtain ⟨d, ds, rfl⟩ := List.exists_cons_of_ne_nil hne
  exact ⟨d, ds, rfl, hall d List.mem_cons_self⟩

namespace NumberSplit

theorem isFraction_fraction (cs : List Char) :
    IsFraction (fraction cs).digits (fraction cs).isFloat := by
  unfold fraction
  split
  · split
    · next h => exact .some (.takeWhile h)
    · exact .none
  · exact .none

theorem isExponent_exponentDigits {mark : List Char} (hmark : IsExponentMark mark)
    (digits cs : List Char) :
    IsExponent (exponentDigits mark digits cs).digits
      (exponentDigits mark digits cs).isFloat := by
  unfold exponentDigits
  split
  · split
    · next h => exact .some hmark (.takeWhile h)
    · exact .none
  · exact .none

theorem isExponent_exponent (cs : List Char) :
    IsExponent (exponent cs).digits (exponent cs).isFloat := by
  unfold exponent
  split
  · split
    · next he =>
      simp only [Bool.or_eq_true, decide_eq_true_eq] at he
      split
      · split
        · next hs =>
          simp only [Bool.or_eq_true, decide_eq_true_eq] at hs
          exact isExponent_exponentDigits (.signed he hs) ..
        · exact isExponent_exponentDigits (.plain he) ..
      · exact .none
    · exact .none
  · exact .none

theorem fraction_append_rest {cs rest : List Char} {isFloat : Bool} (h : IsFraction cs isFloat)
    (hrest : HeadIn (fun c => !(c.isDigit || c = '.')) rest) :
    fraction (cs ++ rest) = ⟨cs, isFloat, rest⟩ := by
  cases h with
  | none =>
    rw [List.nil_append]
    unfold fraction
    split
    · exact absurd (hrest '.' rfl) (by simp)
    · rfl
  | some hdigits =>
    have hstop : HeadIn (fun c => !c.isDigit) rest := hrest.mono fun c hc => by
      simp only [Bool.not_or, Bool.and_eq_true] at hc
      exact hc.1
    obtain ⟨htake, hdrop⟩ := takeWhile_append_of_head hdigits.2 hstop
    obtain ⟨d, ds, rfl, hd⟩ := hdigits.exists_cons
    simp only [List.cons_append] at htake hdrop ⊢
    rw [fraction, if_pos hd, htake, hdrop]

theorem exponentDigits_append_rest {mark digits rest cs : List Char} (h : IsDigits digits)
    (hrest : HeadIn (fun c => !c.isDigit) rest) :
    exponentDigits mark (digits ++ rest) cs = ⟨mark ++ digits, true, rest⟩ := by
  obtain ⟨htake, hdrop⟩ := takeWhile_append_of_head h.2 hrest
  obtain ⟨d, ds, rfl, hd⟩ := h.exists_cons
  simp only [List.cons_append] at htake hdrop ⊢
  rw [exponentDigits, if_pos hd, htake, hdrop]

theorem exponent_append_rest {cs rest : List Char} {isFloat : Bool} (h : IsExponent cs isFloat)
    (hrest : HeadIn (fun c => !isNumberPart c) rest) :
    exponent (cs ++ rest) = ⟨cs, isFloat, rest⟩ := by
  cases h with
  | none =>
    rw [List.nil_append]
    unfold exponent
    split
    · next e tail =>
      have he := hrest e rfl
      simp only [isNumberPart, Bool.not_or, Bool.and_eq_true, Bool.not_eq_true',
        decide_eq_false_iff_not] at he
      rw [if_neg (by simp [he])]
    · rfl
  | some hmark hdigits =>
    have hstop : HeadIn (fun c => !c.isDigit) rest := hrest.mono fun c hc => by
      simp only [isNumberPart, Bool.not_or, Bool.and_eq_true] at hc
      exact hc.1.1.1
    cases hmark with
    | plain he =>
      obtain ⟨d, ds, rfl, hd⟩ := hdigits.exists_cons
      have hs : ¬(d = '-' ∨ d = '+') := by
        rintro (rfl | rfl) <;> simp at hd
      simp only [List.cons_append, List.nil_append, exponent, Bool.or_eq_true, decide_eq_true_eq,
        he, hs, if_true, if_false]
      exact exponentDigits_append_rest hdigits hstop
    | signed he hs =>
      simp only [List.cons_append, List.nil_append, exponent, Bool.or_eq_true, decide_eq_true_eq,
        he, hs, if_true]
      exact exponentDigits_append_rest hdigits hstop

theorem headIn_fraction {cs : List Char} {isFloat : Bool} (h : IsFraction cs isFloat) :
    HeadIn (· = '.') cs := by
  cases h with
  | none => rintro _ ⟨⟩
  | some => rintro _ ⟨⟩; rfl

theorem headIn_exponent {cs : List Char} {isFloat : Bool} (h : IsExponent cs isFloat) :
    HeadIn (fun c => c = 'e' || c = 'E') cs := by
  cases h with
  | none => rintro _ ⟨⟩
  | some hmark =>
    cases hmark with
    | plain he => rintro _ ⟨⟩; simpa using he
    | signed he => rintro _ ⟨⟩; simpa using he

/-- **A number is read whole in front of a delimiter.** -/
theorem unsigned_append_rest {cs rest : List Char} {isFloat : Bool} (h : IsNumber cs isFloat)
    (hrest : Delimited rest) (sign : List Char) :
    unsigned sign (cs ++ rest) = ⟨sign ++ cs, isFloat, rest⟩ := by
  cases h with
  | @mk whole fraction exponent _ _ hwhole hfraction hexponent =>
    have hstop : HeadIn (fun c => !isNumberPart c) rest :=
      hrest.mono fun c hc => not_isNumberPart_of_endsWord hc
    have hbehind : HeadIn (fun c => !(c.isDigit || c = '.')) (exponent ++ rest) := by
      refine headIn_append ((headIn_exponent hexponent).mono fun c hc => ?_)
        (hstop.mono fun c hc => ?_)
      · simp only [Bool.or_eq_true, decide_eq_true_eq] at hc
        rcases hc with rfl | rfl <;> decide
      · simp only [isNumberPart, Bool.not_or, Bool.and_eq_true] at hc ⊢
        exact hc.1.1
    have hall : HeadIn (fun c => !c.isDigit) (fraction ++ (exponent ++ rest)) := by
      refine headIn_append ((headIn_fraction hfraction).mono fun c hc => ?_)
        (hbehind.mono fun c hc => ?_)
      · simp only [decide_eq_true_eq] at hc
        subst hc
        decide
      · simp only [Bool.not_or, Bool.and_eq_true] at hc
        exact hc.1
    obtain ⟨htake, hdrop⟩ := takeWhile_append_of_head hwhole.2 hall
    simp [unsigned, htake, hdrop, fraction_append_rest hfraction hbehind,
      exponent_append_rest hexponent hstop]

/-- What is split off at a digit is a number. -/
theorem isNumber_unsigned {d : Char} {cs : List Char} (h : d.isDigit = true) (sign : List Char) :
    ∃ body, (unsigned sign (d :: cs)).digits = sign ++ body ∧
      IsNumber body (unsigned sign (d :: cs)).isFloat :=
  ⟨_, by simp [unsigned, List.append_assoc]; rfl,
    .mk (.takeWhile h) (isFraction_fraction _) (isExponent_exponent _)⟩

end NumberSplit

/-! ## Strings -/

/-- A string behind its opening quote. -/
inductive IsStringTail : List Char → Prop
  | close : IsStringTail ['"']
  | escape {c : Char} {cs : List Char} :
    Text.isBreak c = false → IsStringTail cs → IsStringTail ('\\' :: c :: cs)
  | char {c : Char} {cs : List Char} :
    c ≠ '"' → c ≠ '\\' → Text.isBreak c = false → IsStringTail cs → IsStringTail (c :: cs)

theorem isStringTail_stringTail {cs : List Char} (h : (stringTail cs).closed = true) :
    IsStringTail (stringTail cs).taken := by
  fun_induction stringTail cs with
  | case1 => cases h
  | case2 => exact .close
  | case3 => cases h
  | case4 c rest hc ih => exact .escape (by simpa using hc) (ih h)
  | case5 => cases h
  | case6 c rest hquote hescape hc ih =>
    refine .char hquote ?_ (by simpa using hc) (ih h)
    rintro rfl
    cases rest with
    | nil => cases h
    | cons d rest => exact hescape d rest rfl rfl

theorem stringTail_append_rest {cs : List Char} (h : IsStringTail cs) (rest : List Char) :
    stringTail (cs ++ rest) = ⟨cs, true, rest⟩ := by
  induction h with
  | close => rfl
  | escape hc _ ih => simp [stringTail, hc, ih, StringSplit.extend]
  | @char c cs hquote hescape hc _ ih =>
    rw [List.cons_append, stringTail]
    · simp [hc, ih, StringSplit.extend]
    · exact hquote
    · exact fun _ _ e => absurd e hescape

/-- A block string behind its opening quotes. -/
inductive IsBlockTail : List Char → Prop
  | close : IsBlockTail ['"', '"', '"']
  | escape {cs : List Char} : IsBlockTail cs → IsBlockTail ('\\' :: '"' :: '"' :: '"' :: cs)
  | char {c : Char} {cs : List Char} : ¬(c = '\\' ∧ ['"', '"', '"'] <+: cs) →
    ¬(c = '"' ∧ ['"', '"'] <+: cs) → IsBlockTail cs → IsBlockTail (c :: cs)

theorem blockTail_cons {c : Char} {cs : List Char}
    (hescape : ¬(c = '\\' ∧ ['"', '"', '"'] <+: cs)) (hclose : ¬(c = '"' ∧ ['"', '"'] <+: cs)) :
    blockTail (c :: cs) = (blockTail cs).extend [c] := by
  rw [blockTail]
  · rintro rest rfl rfl
    exact hescape ⟨rfl, rest, rfl⟩
  · rintro rest rfl rfl
    exact hclose ⟨rfl, rest, rfl⟩

theorem isBlockTail_blockTail {cs : List Char} (h : (blockTail cs).closed = true) :
    IsBlockTail (blockTail cs).taken := by
  fun_induction blockTail cs with
  | case1 => cases h
  | case2 rest ih => exact .escape (ih h)
  | case3 => exact .close
  | case4 c rest hescape hclose ih =>
    have hprefix : (blockTail rest).taken <+: rest := ⟨_, blockTail_append rest⟩
    refine .char ?_ ?_ (ih h)
    · rintro ⟨rfl, hq⟩
      obtain ⟨tail, rfl⟩ := hq.trans hprefix
      exact hescape tail rfl rfl
    · rintro ⟨rfl, hq⟩
      obtain ⟨tail, rfl⟩ := hq.trans hprefix
      exact hclose tail rfl rfl

theorem IsBlockTail.length_le {cs : List Char} (h : IsBlockTail cs) : 3 ≤ cs.length := by
  induction h with
  | close => exact Nat.le_refl _
  | escape => simp
  | char _ _ _ ih => exact Nat.le_succ_of_le ih

theorem blockTail_append_rest {cs : List Char} (h : IsBlockTail cs) (rest : List Char) :
    blockTail (cs ++ rest) = ⟨cs, true, rest⟩ := by
  induction h with
  | close => rfl
  | escape _ ih => simp [blockTail, ih, StringSplit.extend]
  | @char c cs hescape hclose hcs ih =>
    have hprefix {quotes : List Char} (hq : quotes <+: cs ++ rest) (hlen : quotes.length ≤ 3) :
        quotes <+: cs :=
      List.prefix_of_prefix_length_le hq (List.prefix_append cs rest)
        (Nat.le_trans hlen hcs.length_le)
    rw [List.cons_append, blockTail_cons, ih]
    · rfl
    · exact fun h => hescape ⟨h.1, hprefix h.2 (by simp)⟩
    · exact fun h => hclose ⟨h.1, hprefix h.2 (by simp)⟩

theorem IsBlockTail.normalizeBreaks {cs : List Char} (h : IsBlockTail cs) :
    IsBlockTail (Text.normalizeBreaks cs) := by
  induction h with
  | close => exact .close
  | escape _ ih => simpa [Text.normalizeBreaks] using .escape ih
  | @char c cs hescape hclose hcs ih =>
    by_cases hpair : c = '\r' ∧ cs.head? = some '\n'
    · obtain ⟨rfl, hhead⟩ := hpair
      obtain ⟨rest, rfl⟩ := List.head?_eq_some_iff.1 hhead
      rwa [Text.normalizeBreaks_return_feed]
    · rw [Text.normalizeBreaks_cons (not_and.1 hpair)]
      split
      · exact .char (by simp) (by simp) ih
      · refine .char (fun h => hescape ⟨h.1, ?_⟩) (fun h => hclose ⟨h.1, ?_⟩) ih
        · exact Text.prefix_of_normalizeBreaks rfl h.2
        · exact Text.prefix_of_normalizeBreaks rfl h.2

/-! ## Tokens -/

/-- The characters that are read as a token of the kind. -/
inductive Spells : List Char → TokenKind → Prop
  | mark {c : Char} {mark : Punctuator} :
    Punctuator.ofChar? c = some mark → Spells [c] (.punctuator mark)
  | dot : Spells ['.'] (.punctuator .dot)
  | ellipsis : Spells ['.', '.', '.'] (.punctuator .ellipsis)
  | minus : Spells ['-'] (.punctuator .minus)
  | plus : Spells ['+'] (.punctuator .plus)
  | comment {cs : List Char} :
    (∀ c ∈ cs, Text.isBreak c = false) → Spells ('#' :: cs) (.comment (String.ofList ('#' :: cs)))
  | word {c : Char} {cs : List Char} : isNameStart c = true → (∀ c ∈ cs, isNamePart c = true) →
    Spells (c :: cs) (Scan.nameKind (String.ofList (c :: cs)))
  | float {sign cs : List Char} : sign = [] ∨ sign = ['-'] ∨ sign = ['+'] → IsNumber cs true →
    Spells (sign ++ cs) (.float (String.ofList (sign ++ cs)))
  | integer {sign cs : List Char} : sign = [] ∨ sign = ['-'] ∨ sign = ['+'] → IsNumber cs false →
    Spells (sign ++ cs) (.integer (String.ofList (Integer.canonical (sign ++ cs))))
  | string {cs : List Char} :
    IsStringTail cs → Spells ('"' :: cs) (.string (String.ofList ('"' :: cs)))
  | blockString {cs : List Char} : IsBlockTail cs → Spells ('"' :: '"' :: '"' :: cs)
    (.blockString (String.ofList (Text.normalizeBreaks ('"' :: '"' :: '"' :: cs))))

namespace Scan

/-- The scan has found no token, or one that its lexeme spells, without a gap. -/
def Sound (scan : Scan) : Prop :=
  ∀ kind, scan.reading = .ok kind → scan.gap = [] ∧ Spells scan.lexeme kind

theorem sound_token {lexeme rest : List Char} {kind : TokenKind} (h : Spells lexeme kind) :
    Sound (token lexeme rest kind) := by
  rintro _ ⟨⟩
  exact ⟨rfl, h⟩

theorem sound_word {lexeme rest : List Char} {kind : TokenKind} (h : Spells lexeme kind) :
    Sound (word lexeme rest kind) := by
  unfold word
  split
  · exact sound_token h
  · split
    · exact sound_token h
    · rintro _ ⟨⟩

theorem sound_number {sign : List Char} {d : Char} {cs : List Char}
    (hsign : sign = [] ∨ sign = ['-'] ∨ sign = ['+']) (hd : d.isDigit = true) :
    Sound (number sign (d :: cs)) := by
  obtain ⟨body, hbody, hnumber⟩ := @NumberSplit.isNumber_unsigned d cs hd sign
  refine sound_word ?_
  rw [hbody]
  cases hf : (NumberSplit.unsigned sign (d :: cs)).isFloat <;> rw [hf] at hnumber
  · exact .integer hsign hnumber
  · exact .float hsign hnumber

theorem sound_signed {sign : Char} {mark : Punctuator} (rest : List Char)
    (hsign : sign = '-' ∨ sign = '+') (hmark : Spells [sign] (.punctuator mark)) :
    Sound (signed sign mark rest) := by
  unfold signed
  split
  · split
    · next hd => exact sound_number (.inr (by simpa using hsign)) hd
    · exact sound_token hmark
  · exact sound_token hmark

theorem sound_quoted {opening : List Char} {tail : StringSplit} {fault : LexicalCause}
    {kind : List Char → TokenKind}
    (h : tail.closed = true → Spells (opening ++ tail.taken) (kind (opening ++ tail.taken))) :
    Sound (quoted opening tail fault kind) := by
  intro k hk
  unfold quoted at hk ⊢
  split at hk
  · next hclosed =>
    cases hk
    exact ⟨rfl, h hclosed⟩
  · cases hk

theorem sound_string (rest : List Char) : Sound (string rest) := by
  unfold string
  split
  · exact sound_quoted fun h => .blockString (isBlockTail_blockTail h)
  · exact sound_quoted fun h => .string (isStringTail_stringTail h)

theorem sound_dots (rest : List Char) : Sound (dots rest) := by
  unfold dots
  split
  · exact sound_token .ellipsis
  · exact sound_token .dot

theorem sound_comment (rest : List Char) : Sound (comment rest) := by
  refine sound_token (.comment fun c hc => ?_)
  simpa using forall_mem_takeWhile c hc

theorem sound_startingWith (c : Char) (rest : List Char) : Sound (startingWith c rest) := by
  fun_cases startingWith c rest with
  | case1 mark hmark => exact sound_token (.mark hmark)
  | case2 => exact sound_comment rest
  | case3 => exact sound_dots rest
  | case4 => exact sound_string rest
  | case5 _ _ _ _ hname => exact sound_word (.word hname forall_mem_takeWhile)
  | case6 _ _ _ _ _ hdigit => exact sound_number (.inl rfl) hdigit
  | case7 => exact sound_signed rest (.inl rfl) .minus
  | case8 => exact sound_signed rest (.inr rfl) .plus
  | case9 => rintro _ ⟨⟩

end Scan

/-- **Every token that is found is spelled by its lexeme.** -/
theorem spells_of_scan {cs : List Char} {kind : TokenKind} (h : (scan cs).reading = .ok kind)
    (hne : (scan cs).lexeme ≠ []) : Spells (scan cs).lexeme kind := by
  cases hcs : cs.dropWhile isIgnored with
  | nil => exact absurd (by simp [scan, hcs, Scan.front, Scan.token]) hne
  | cons c rest =>
    have hfront : (scan cs).lexeme = (Scan.startingWith c rest).lexeme ∧
        (scan cs).reading = (Scan.startingWith c rest).reading := by
      simp [scan, hcs, Scan.front]
    rw [hfront.1]
    exact (Scan.sound_startingWith c rest kind (hfront.2 ▸ h)).2

/-- The end of a text is not spelled. -/
theorem Spells.ne_endOfText {lexeme : List Char} {kind : TokenKind} (h : Spells lexeme kind) :
    kind ≠ .endOfText := by
  cases h with
  | word =>
    unfold Scan.nameKind
    split <;> simp
  | _ => simp

/-- A scan that finds a token finds it behind ignored characters only. -/
theorem isIgnored_of_mem_gap {cs : List Char} {kind : TokenKind}
    (h : (scan cs).reading = .ok kind) : ∀ c ∈ (scan cs).gap, isIgnored c = true := by
  have hfront : (Scan.front (cs.dropWhile isIgnored)).gap = [] := by
    change (Scan.front (cs.dropWhile isIgnored)).reading = .ok kind at h
    cases hcs : cs.dropWhile isIgnored with
    | nil => rfl
    | cons c rest =>
      rw [hcs] at h
      exact (Scan.sound_startingWith c rest kind h).1
  intro c hc
  rw [scan, hfront, List.append_nil] at hc
  exact forall_mem_takeWhile c hc

/-! ## Reading a lexeme in another place -/

/-- In front of a lexeme there is no gap. -/
theorem scan_cons_of_not_isIgnored {c : Char} (h : isIgnored c = false) (cs : List Char) :
    scan (c :: cs) = Scan.startingWith c cs := by
  simp [scan, h, Scan.front]

theorem Punctuator.ofChar?_of_isIgnored {c : Char} (h : isIgnored c = true) :
    Punctuator.ofChar? c = none := by
  simp only [isIgnored, Bool.or_eq_true, decide_eq_true_eq] at h
  rcases h with (((rfl | rfl) | rfl) | rfl) | rfl <;> rfl

theorem Punctuator.ofChar?_of_isNamePart {c : Char} (h : isNamePart c = true) :
    Punctuator.ofChar? c = none := by
  unfold Punctuator.ofChar?
  split <;> first | rfl | exact absurd h (by decide)

theorem isNamePart_of_isNameStart {c : Char} (h : isNameStart c = true) : isNamePart c = true := by
  simp only [isNameStart, isNamePart, Char.isAlphanum, Bool.or_eq_true] at h ⊢
  exact h.imp_right .inl

theorem isNamePart_of_isDigit {c : Char} (h : c.isDigit = true) : isNamePart c = true := by
  simp [isNamePart, Char.isAlphanum, h]

theorem not_isNameStart_of_isDigit {c : Char} (h : c.isDigit = true) : isNameStart c = false := by
  rw [Bool.eq_false_iff]
  intro hc
  unfold isNameStart at hc
  delta Char.isAlpha Char.isUpper Char.isLower at hc
  simp only [Char.isDigit, Bool.or_eq_true, Bool.and_eq_true, decide_eq_true_eq,
    UInt32.le_iff_toNat_le] at h hc
  rcases hc with rfl | hc
  · exact absurd h (by decide)
  · simp at h hc
    omega

theorem not_isIgnored_of_isNamePart {c : Char} (h : isNamePart c = true) : isIgnored c = false := by
  rw [Bool.eq_false_iff]
  intro hc
  simp only [isIgnored, Bool.or_eq_true, decide_eq_true_eq] at hc
  rcases hc with (((rfl | rfl) | rfl) | rfl) | rfl <;> exact absurd h (by decide)

namespace Scan

/-- A word is taken as a whole if something behind it ends it. -/
theorem word_of_delimited {rest : List Char} (h : Delimited rest) (lexeme : List Char)
    (kind : TokenKind) : word lexeme rest kind = token lexeme rest kind := by
  unfold word
  split
  · rfl
  · next c rest => rw [if_pos (h c rfl)]

/-- A number in front of a delimiter is taken as a whole. -/
theorem number_append_rest {cs rest : List Char} {isFloat : Bool} (h : IsNumber cs isFloat)
    (hrest : Delimited rest) (sign : List Char) :
    number sign (cs ++ rest) = token (sign ++ cs) rest
      (if isFloat then .float (String.ofList (sign ++ cs))
       else .integer (String.ofList (Integer.canonical (sign ++ cs)))) := by
  rw [number, NumberSplit.unsigned_append_rest h hrest, word_of_delimited hrest]

/-- A number is found with its sign. -/
theorem scan_number {sign cs rest : List Char} {isFloat : Bool}
    (hsign : sign = [] ∨ sign = ['-'] ∨ sign = ['+']) (h : IsNumber cs isFloat) :
    scan (sign ++ cs ++ rest) = number sign (cs ++ rest) := by
  obtain ⟨d, ds, rfl, hd⟩ : ∃ d ds, cs = d :: ds ∧ d.isDigit = true := by
    cases h with
    | mk hwhole =>
      obtain ⟨d, ds, rfl, hd⟩ := hwhole.exists_cons
      exact ⟨d, _, rfl, hd⟩
  rcases hsign with rfl | rfl | rfl
  · have hpart := isNamePart_of_isDigit hd
    rw [List.nil_append, List.cons_append,
      scan_cons_of_not_isIgnored (not_isIgnored_of_isNamePart hpart), startingWith,
      Punctuator.ofChar?_of_isNamePart hpart]
    have hne : d ≠ '#' ∧ d ≠ '.' ∧ d ≠ '"' := by
      refine ⟨?_, ?_, ?_⟩ <;> rintro rfl <;> exact absurd hd (by decide)
    simp [hne, not_isNameStart_of_isDigit hd, hd]
  · show signed '-' .minus (d :: (ds ++ rest)) = _
    rw [signed, if_pos hd]
    rfl
  · show signed '+' .plus (d :: (ds ++ rest)) = _
    rw [signed, if_pos hd]
    rfl

/-- A word in front of a delimiter is taken as a whole. -/
theorem scan_word {c : Char} {cs rest : List Char} (hc : isNameStart c = true)
    (hcs : ∀ c ∈ cs, isNamePart c = true) (hrest : Delimited rest) :
    scan (c :: cs ++ rest) = token (c :: cs) rest (nameKind (String.ofList (c :: cs))) := by
  have hpart := isNamePart_of_isNameStart hc
  have hne : c ≠ '#' ∧ c ≠ '.' ∧ c ≠ '"' := by
    refine ⟨?_, ?_, ?_⟩ <;> rintro rfl <;> exact absurd hc (by decide)
  obtain ⟨htake, hdrop⟩ := takeWhile_append_of_head hcs
    (hrest.mono fun c hc => not_isNamePart_of_endsWord hc)
  rw [List.cons_append, scan_cons_of_not_isIgnored (not_isIgnored_of_isNamePart hpart),
    startingWith, Punctuator.ofChar?_of_isNamePart hpart]
  simp only [hne, hc, if_true, if_false]
  rw [name, htake, hdrop, word_of_delimited hrest]

/-- A comment goes on to the end of its line. -/
theorem scan_comment {cs rest : List Char} (hcs : ∀ c ∈ cs, Text.isBreak c = false)
    (hrest : HeadIn Text.isBreak rest) :
    scan ('#' :: cs ++ rest) = token ('#' :: cs) rest (.comment (String.ofList ('#' :: cs))) := by
  obtain ⟨htake, hdrop⟩ := @takeWhile_append_of_head (fun c => !Text.isBreak c) cs rest
    (fun c hc => by simp [hcs c hc]) (hrest.mono fun c hc => by simp [hc])
  show comment (cs ++ rest) = _
  rw [comment, htake, hdrop]

/-- A string ends with its quote, unless it is empty and another quote opens a block string. -/
theorem scan_string {cs rest : List Char} (hcs : IsStringTail cs)
    (hrest : HeadIn (· ≠ '"') rest) :
    scan ('"' :: cs ++ rest) = token ('"' :: cs) rest (.string (String.ofList ('"' :: cs))) := by
  show string (cs ++ rest) = _
  have hopen : ∀ tail, cs ++ rest ≠ '"' :: '"' :: tail := by
    intro tail he
    cases hcs with
    | close =>
      obtain rfl := (List.cons.inj he).2
      exact absurd (hrest '"' rfl) (by decide)
    | escape => simp at he
    | char hquote => exact hquote (List.cons.inj he).1
  rw [string]
  · rw [stringTail_append_rest hcs]
    rfl
  · exact hopen

/-- A dot is one token, unless another dot follows. -/
theorem scan_dot {rest : List Char} (hrest : HeadIn (· ≠ '.') rest) :
    scan ('.' :: rest) = token ['.'] rest (.punctuator .dot) := by
  show dots rest = _
  unfold dots
  split
  · exact absurd (hrest '.' rfl) (by decide)
  · rfl

/-- A sign without digits is a mark. -/
theorem signed_of_not_digit {rest : List Char} (hrest : HeadIn (fun c => !c.isDigit) rest)
    (sign : Char) (mark : Punctuator) :
    signed sign mark rest = token [sign] rest (.punctuator mark) := by
  unfold signed
  split
  · next d rest =>
    have hd : d.isDigit = false := by simpa using hrest d rfl
    simp [hd]
  · rfl

end Scan

theorem scan_mark {c : Char} {mark : Punctuator} (h : Punctuator.ofChar? c = some mark)
    (rest : List Char) : scan (c :: rest) = Scan.token [c] rest (.punctuator mark) := by
  have hc : isIgnored c = false := by
    rw [Bool.eq_false_iff]
    intro hc
    rw [Punctuator.ofChar?_of_isIgnored hc] at h
    cases h
  rw [scan_cons_of_not_isIgnored hc, Scan.startingWith, h]

/-- **A token is read again from its lexeme, if what stands behind it does not run into it.** -/
theorem scan_append_rest {lexeme rest : List Char} {kind : TokenKind} (h : Spells lexeme kind)
    (hrest : kind.EndsBefore rest) : scan (lexeme ++ rest) = Scan.token lexeme rest kind := by
  cases h with
  | mark h => exact scan_mark h rest
  | dot => exact Scan.scan_dot hrest
  | ellipsis => rfl
  | minus => exact Scan.signed_of_not_digit hrest '-' .minus
  | plus => exact Scan.signed_of_not_digit hrest '+' .plus
  | comment h => exact Scan.scan_comment h hrest
  | @word c cs hc hcs =>
    refine Scan.scan_word hc hcs ?_
    unfold Scan.nameKind at hrest
    split at hrest <;> exact hrest
  | float hsign h => rw [Scan.scan_number hsign h, Scan.number_append_rest h hrest]; rfl
  | integer hsign h => rw [Scan.scan_number hsign h, Scan.number_append_rest h hrest]; rfl
  | string h => exact Scan.scan_string h hrest
  | @blockString cs h =>
    show Scan.string ('"' :: '"' :: (cs ++ rest)) = _
    rw [Scan.string, blockTail_append_rest h]
    rfl

end SchemaMerge
