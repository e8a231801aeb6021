import SchemaMerge.Proofs.Token.Lossless

/-!
# Integers of any size

An integer literal is a text of digits, perhaps behind a sign, and denotes an integer however long
it is. Its canonical form is the integer in decimal notation (`canonical_eq_repr`): digits are
appended to a number that is not zero as they are appended to its notation, and leading zeros add
nothing. Notation and integer determine each other, so the token of a literal tells which integer
the literal denotes and nothing else (`kinds_ofText_integer`).
-/

namespace SchemaMerge

/-! ## Literals -/

/-- Digits, perhaps behind a sign. -/
inductive IsInteger : List Char → Prop
  | unsigned {ds : List Char} : IsDigits ds → IsInteger ds
  | negative {ds : List Char} : IsDigits ds → IsInteger ('-' :: ds)
  | positive {ds : List Char} : IsDigits ds → IsInteger ('+' :: ds)

namespace Integer

/-- The integer that a literal denotes. -/
def value : List Char → Int
  | '-' :: ds => -(Nat.ofDigitChars 10 ds 0 : Int)
  | '+' :: ds => Nat.ofDigitChars 10 ds 0
  | ds => Nat.ofDigitChars 10 ds 0

/-- A literal without a plus sign, without a leading zero in front of other digits, and without a
sign in front of zero. -/
inductive IsCanonical : List Char → Prop
  | zero : IsCanonical ['0']
  | positive {d : Char} {ds : List Char} :
    d ≠ '0' → (∀ c ∈ d :: ds, c.isDigit = true) → IsCanonical (d :: ds)
  | negative {d : Char} {ds : List Char} :
    d ≠ '0' → (∀ c ∈ d :: ds, c.isDigit = true) → IsCanonical ('-' :: d :: ds)

theorem value_of_isDigits {ds : List Char} (h : IsDigits ds) :
    value ds = Nat.ofDigitChars 10 ds 0 := by
  obtain ⟨d, ds, rfl, hd⟩ := h.exists_cons
  unfold value
  split
  · next hsign => exact absurd ((List.cons.inj hsign).1 ▸ hd) (by decide)
  · next hsign => exact absurd ((List.cons.inj hsign).1 ▸ hd) (by decide)
  · rfl

/-! ## Digits and numbers -/

/-- A digit is the character for a number less than ten. -/
theorem digitChar_of_isDigit {c : Char} (h : c.isDigit = true) :
    c.toNat - '0'.toNat < 10 ∧ Nat.digitChar (c.toNat - '0'.toNat) = c := by
  have hzero : '0'.toNat = 48 := rfl
  have hnine : '9'.toNat = 57 := rfl
  obtain ⟨hlow, hhigh⟩ := Char.isDigit_iff_toNat.1 h
  have hlt : c.toNat - '0'.toNat < 10 := by omega
  refine ⟨hlt, Char.toNat_inj.1 ?_⟩
  rw [Nat.toNat_digitChar_of_lt_ten hlt]
  omega

/-- Digits behind a number that is not zero are appended to its notation. -/
theorem toDigits_append_of_pos {ds : List Char} (h : ∀ c ∈ ds, c.isDigit = true) {n : Nat}
    (hn : 0 < n) : Nat.toDigits 10 n ++ ds = Nat.toDigits 10 (Nat.ofDigitChars 10 ds n) := by
  induction ds generalizing n with
  | nil => rw [Nat.ofDigitChars_nil, List.append_nil]
  | cons d ds ih =>
    obtain ⟨hd, hds⟩ := List.forall_mem_cons.1 h
    obtain ⟨hlt, hchar⟩ := digitChar_of_isDigit hd
    have hstep := Nat.toDigits_append_toDigits (b := 10) (by decide) hn hlt
    rw [Nat.toDigits_of_lt_base hlt, hchar] at hstep
    calc Nat.toDigits 10 n ++ d :: ds
        = (Nat.toDigits 10 n ++ [d]) ++ ds := by rw [List.append_assoc, List.singleton_append]
      _ = Nat.toDigits 10 (10 * n + (d.toNat - '0'.toNat)) ++ ds := by rw [hstep]
      _ = Nat.toDigits 10 (Nat.ofDigitChars 10 (d :: ds) n) := by
        rw [ih hds (by omega), Nat.ofDigitChars_cons]

/-- Digits without a leading zero are the notation of their number, which is not zero. -/
theorem toDigits_of_ne_zero {d : Char} {ds : List Char} (hne : d ≠ '0')
    (h : ∀ c ∈ d :: ds, c.isDigit = true) :
    0 < Nat.ofDigitChars 10 (d :: ds) 0 ∧
      Nat.toDigits 10 (Nat.ofDigitChars 10 (d :: ds) 0) = d :: ds := by
  obtain ⟨hd, hds⟩ := List.forall_mem_cons.1 h
  obtain ⟨hlt, hchar⟩ := digitChar_of_isDigit hd
  have hpos : 0 < d.toNat - '0'.toNat := by
    rw [Nat.pos_iff_ne_zero]
    intro hzero
    rw [hzero] at hchar
    exact hne hchar.symm
  rw [Nat.ofDigitChars_cons, Nat.mul_zero, Nat.zero_add]
  constructor
  · rw [Nat.ofDigitChars_eq_ofDigitChars_zero]
    exact Nat.add_pos_left (Nat.mul_pos (Nat.pow_pos (by decide)) hpos) _
  · rw [← toDigits_append_of_pos hds hpos, Nat.toDigits_of_lt_base hlt, hchar,
      List.singleton_append]

theorem ofDigitChars_dropWhile (ds : List Char) :
    Nat.ofDigitChars 10 (ds.dropWhile (· = '0')) 0 = Nat.ofDigitChars 10 ds 0 := by
  induction ds with
  | nil => rfl
  | cons d ds ih =>
    by_cases hd : d = '0'
    · subst hd
      rw [List.dropWhile_cons_of_pos (by simp), ih, Nat.ofDigitChars_cons]
      rfl
    · rw [List.dropWhile_cons_of_neg (by simpa using hd)]

/-- Canonical digits are a zero for nothing but zeros, or the digits from the first other one on. -/
theorem canonicalDigits_cases {ds : List Char} (h : ∀ c ∈ ds, c.isDigit = true) :
    (canonicalDigits ds = ['0'] ∧ ds.all (· = '0') = true ∧ Nat.ofDigitChars 10 ds 0 = 0) ∨
      ∃ d tail, canonicalDigits ds = d :: tail ∧ ds.all (· = '0') = false ∧ d ≠ '0' ∧
        (∀ c ∈ d :: tail, c.isDigit = true) ∧
          Nat.ofDigitChars 10 ds 0 = Nat.ofDigitChars 10 (d :: tail) 0 := by
  rw [← ofDigitChars_dropWhile]
  cases hdrop : ds.dropWhile (· = '0') with
  | nil =>
    have hall := List.dropWhile_eq_nil_iff.1 hdrop
    exact .inl ⟨by simp [canonicalDigits, hdrop], List.all_eq_true.2 hall, rfl⟩
  | cons d tail =>
    have hne : d ≠ '0' := by
      have hhead := List.head?_dropWhile_not (· = '0') ds
      simpa [hdrop] using hhead
    have hmem : ∀ c ∈ d :: tail, c ∈ ds := fun c hc =>
      (List.dropWhile_sublist _).subset (hdrop ▸ hc)
    have hall : ds.all (· = '0') = false :=
      List.all_eq_false.2 ⟨d, hmem d List.mem_cons_self, by simpa using hne⟩
    exact .inr ⟨d, tail, by simp [canonicalDigits, hdrop], hall, hne, fun c hc => h c (hmem c hc),
      rfl⟩

/-- **Canonical digits are the notation of their number.** -/
theorem canonicalDigits_eq_toDigits {ds : List Char} (h : ∀ c ∈ ds, c.isDigit = true) :
    canonicalDigits ds = Nat.toDigits 10 (Nat.ofDigitChars 10 ds 0) := by
  rcases canonicalDigits_cases h with ⟨hzero, -, hvalue⟩ | ⟨d, tail, htail, -, hne, hd, hvalue⟩
  · rw [hzero, hvalue, Nat.toDigits_zero]
  · rw [htail, hvalue, (toDigits_of_ne_zero hne hd).2]

theorem ofDigitChars_eq_zero_iff {ds : List Char} (h : ∀ c ∈ ds, c.isDigit = true) :
    Nat.ofDigitChars 10 ds 0 = 0 ↔ ds.all (· = '0') = true := by
  rcases canonicalDigits_cases h with ⟨-, hall, hvalue⟩ | ⟨d, tail, -, hall, hne, hd, hvalue⟩
  · exact iff_of_true hvalue hall
  · rw [hvalue, hall]
    exact iff_of_false (toDigits_of_ne_zero hne hd).1.ne' Bool.false_ne_true

/-! ## Literals and integers -/

theorem toList_repr_natCast (n : Nat) : (n : Int).repr.toList = Nat.toDigits 10 n :=
  Nat.toList_repr

theorem toList_repr_neg (n : Nat) :
    (-((n + 1 : Nat) : Int)).repr.toList = '-' :: Nat.toDigits 10 (n + 1) := by
  show ("-" ++ (n + 1).repr).toList = _
  rw [String.toList_append, Nat.toList_repr]
  rfl

/-- **The canonical form of a literal is its integer in decimal notation.** -/
theorem canonical_eq_repr {cs : List Char} (h : IsInteger cs) :
    canonical cs = (value cs).repr.toList := by
  cases h with
  | unsigned h =>
    rw [canonical_of_isDigits h.2, canonicalDigits_eq_toDigits h.2, value_of_isDigits h,
      toList_repr_natCast]
  | positive h => rw [canonical, canonicalDigits_eq_toDigits h.2, value, toList_repr_natCast]
  | @negative ds h =>
    rw [canonical, value]
    by_cases hzero : ds.all (· = '0') = true
    · rw [if_pos hzero, (ofDigitChars_eq_zero_iff h.2).2 hzero]
      rfl
    · have hne := mt (ofDigitChars_eq_zero_iff h.2).1 hzero
      obtain ⟨n, hn⟩ := Nat.exists_eq_add_one_of_ne_zero hne
      rw [if_neg hzero, canonicalDigits_eq_toDigits h.2, hn, toList_repr_neg]

/-- What stands for a literal has no superfluous characters. -/
theorem isCanonical_canonical {cs : List Char} (h : IsInteger cs) :
    IsCanonical (canonical cs) := by
  have hdigits {ds : List Char} (h : IsDigits ds) : IsCanonical (canonicalDigits ds) := by
    rcases canonicalDigits_cases h.2 with ⟨hzero, -⟩ | ⟨d, tail, htail, -, hne, hd, -⟩
    · exact hzero ▸ .zero
    · exact htail ▸ .positive hne hd
  cases h with
  | unsigned h => exact canonical_of_isDigits h.2 ▸ hdigits h
  | positive h => exact hdigits h
  | @negative ds h =>
    rw [canonical]
    rcases canonicalDigits_cases h.2 with ⟨-, hall, -⟩ | ⟨d, tail, htail, hall, hne, hd, -⟩
    · rw [if_pos hall]
      exact .zero
    · rw [hall, if_neg Bool.false_ne_true, htail]
      exact .negative hne hd

theorem isDigits_toDigits (n : Nat) : IsDigits (Nat.toDigits 10 n) :=
  ⟨Nat.toDigits_ne_nil, fun _ hc => Nat.isDigit_of_mem_toDigits (by decide) (by decide) hc⟩

/-- The notation of an integer is a literal that denotes it. -/
theorem value_repr (n : Int) : IsInteger n.repr.toList ∧ value n.repr.toList = n := by
  obtain ⟨n, rfl | rfl⟩ := n.eq_nat_or_neg
  · rw [toList_repr_natCast, value_of_isDigits (isDigits_toDigits n),
      Nat.ofDigitChars_ten_toDigits]
    exact ⟨.unsigned (isDigits_toDigits n), rfl⟩
  · cases n with
    | zero =>
      show IsInteger ['0'] ∧ value ['0'] = 0
      exact ⟨.unsigned ⟨List.cons_ne_nil _ _, List.forall_mem_singleton.2 rfl⟩, rfl⟩
    | succ n =>
      rw [toList_repr_neg, value, Nat.ofDigitChars_ten_toDigits]
      exact ⟨.negative (isDigits_toDigits (n + 1)), rfl⟩

/-- **Different integers have different notations.** -/
theorem repr_inj {m n : Int} : m.repr = n.repr ↔ m = n := by
  refine ⟨fun h => ?_, congrArg Int.repr⟩
  rw [← (value_repr m).2, h, (value_repr n).2]

end Integer

/-! ## Tokens of literals -/

theorem IsInteger.spells {cs : List Char} (h : IsInteger cs) :
    Spells cs (.integer (String.ofList (Integer.canonical cs))) := by
  cases h with
  | unsigned h => exact .integer (.inl rfl) h.isNumber
  | negative h => exact @Spells.integer ['-'] _ (.inr (.inl rfl)) h.isNumber
  | positive h => exact @Spells.integer ['+'] _ (.inr (.inr rfl)) h.isNumber

/-- A literal that stands alone is one token, which holds its integer in decimal notation. -/
theorem kinds_ofText_of_isInteger {text : String} (h : IsInteger text.toList) (file : String) :
    (Token.ofText file text).map Token.kind =
      [.integer (Integer.value text.toList).repr, .endOfText] := by
  have htext : String.ofList (Integer.canonical text.toList) =
      (Integer.value text.toList).repr := by
    rw [Integer.canonical_eq_repr h, String.ofList_toList]
  rw [← htext]
  exact h.spells.kinds_ofText file

/-- **Integers are kept in canonical form, at any size.** A literal that stands alone is one token,
whose text is a canonical literal for the same integer and is read as the same token again; and
another literal is the same token exactly when it denotes the same integer. -/
theorem kinds_ofText_integer (file : String) {text : String} (h : IsInteger text.toList) :
    ∃ canonical : String,
      (Token.ofText file text).map Token.kind = [.integer canonical, .endOfText] ∧
      IsInteger canonical.toList ∧ Integer.IsCanonical canonical.toList ∧
      Integer.value canonical.toList = Integer.value text.toList ∧
      (Token.ofText file canonical).map Token.kind = (Token.ofText file text).map Token.kind ∧
      ∀ other : String, IsInteger other.toList →
        ((Token.ofText file other).map Token.kind = (Token.ofText file text).map Token.kind ↔
          Integer.value other.toList = Integer.value text.toList) := by
  obtain ⟨hliteral, hvalue⟩ := Integer.value_repr (Integer.value text.toList)
  have hsame (other : String) (ho : IsInteger other.toList) :
      (Token.ofText file other).map Token.kind = (Token.ofText file text).map Token.kind ↔
        Integer.value other.toList = Integer.value text.toList := by
    rw [kinds_ofText_of_isInteger ho, kinds_ofText_of_isInteger h, ← Integer.repr_inj]
    simp
  refine ⟨_, kinds_ofText_of_isInteger h file, hliteral, ?_, hvalue, (hsame _ hliteral).2 hvalue,
    hsame⟩
  rw [← Integer.canonical_eq_repr h]
  exact Integer.isCanonical_canonical h

/-- A negative integer that fits in no machine word, with leading zeros and without. -/
theorem kinds_ofText_integer_beyond_words :
    let text := "-0018446744073709551616"
    let other := "-18446744073709551616"
    IsInteger text.toList ∧ Integer.value text.toList = -18446744073709551616 ∧
      (Token.ofText "a.graphql" text).map Token.kind = [.integer other, .endOfText] ∧
      (Token.ofText "a.graphql" other).map Token.kind =
        (Token.ofText "a.graphql" text).map Token.kind := by
  intro text other
  have hnegative {cs : List Char} (hsign : cs.head? = some '-') (hne : cs.tail ≠ [])
      (hall : cs.tail.all Char.isDigit = true) : IsInteger cs := by
    obtain ⟨ds, rfl⟩ := List.head?_eq_some_iff.1 hsign
    exact .negative ⟨hne, List.all_eq_true.1 hall⟩
  have h : IsInteger text.toList := hnegative (by decide) (by decide) (by decide)
  have ho : IsInteger other.toList := hnegative (by decide) (by decide) (by decide)
  obtain ⟨canonical, -, -, -, -, -, hsame⟩ := kinds_ofText_integer "a.graphql" h
  exact ⟨h, by decide, by decide +kernel, (hsame other ho).2 (by decide)⟩

end SchemaMerge
