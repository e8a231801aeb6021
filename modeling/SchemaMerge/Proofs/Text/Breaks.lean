import Mathlib.Data.List.TakeWhile
import SchemaMerge.Text.Position

/-!
# Texts with line feeds for their line breaks

Writing every line break as a line feed would be a map over the characters, were a carriage return
and the line feed behind it not one break. So the line breaks of a concatenation are those of its
two parts, unless the seam between them splits such a pair (`normalizeBreaks_append`). Then they are
fewer (`length_normalizeBreaks_append_lt`).

A tracker counts the same lines and columns along both texts (`Tracker.Alongside.advance`).
-/

namespace SchemaMerge

namespace Text

/-! ## The first character -/

/-- A text and the same text with line feeds for its line breaks, by what stands first in them. -/
inductive Front : List Char → List Char → Prop
  | nil : Front [] []
  | char {c : Char} {cs : List Char} (h : isBreak c = false) :
    Front (c :: cs) (c :: normalizeBreaks cs)
  | lineBreak {b : Char} {cs rest : List Char} (h : b = '\n' ∨ b = '\r') :
    Front (b :: cs) ('\n' :: normalizeBreaks rest)

theorem front_normalizeBreaks (cs : List Char) : Front cs (normalizeBreaks cs) := by
  fun_cases normalizeBreaks cs with
  | case1 => exact .nil
  | case2 rest => exact .lineBreak (.inr rfl)
  | case3 c rest =>
    by_cases hbreak : c = '\n' ∨ c = '\r'
    · have hfeed : (if c = '\r' then '\n' else c) = '\n' := by
        rcases hbreak with rfl | rfl <;> rfl
      rw [hfeed]
      exact .lineBreak hbreak
    · rw [if_neg fun hc => hbreak (.inr hc)]
      exact .char (by simpa [isBreak] using hbreak)

theorem return_ne_of_not_isBreak {c : Char} (h : ¬isBreak c = true) : '\r' ≠ c := by
  rintro rfl
  exact h rfl

theorem exists_normalizeBreaks_of_isBreak {b : Char} (h : isBreak b = true) (cs : List Char) :
    ∃ rest, normalizeBreaks (b :: cs) = '\n' :: rest := by
  have hfront := front_normalizeBreaks (b :: cs)
  generalize normalizeBreaks (b :: cs) = ds at hfront ⊢
  cases hfront with
  | char hb => exact absurd h (by simp [hb])
  | lineBreak => exact ⟨_, rfl⟩

/-- Behind a carriage return that is no pair with it stands no line feed. -/
theorem head?_ne_of_not_pair {c : Char} {cs : List Char}
    (h : ∀ rest, c = '\r' → cs = '\n' :: rest → False) : c = '\r' → cs.head? ≠ some '\n' := by
  intro hc hhead
  obtain ⟨rest, rfl⟩ := List.head?_eq_some_iff.1 hhead
  exact h rest hc rfl

theorem normalizeBreaks_cons {c : Char} {cs : List Char} (h : c = '\r' → cs.head? ≠ some '\n') :
    normalizeBreaks (c :: cs) = (if c = '\r' then '\n' else c) :: normalizeBreaks cs := by
  rw [normalizeBreaks]
  rintro rest hc rfl
  exact h hc rfl

theorem normalizeBreaks_cons_of_ne {c : Char} (h : c ≠ '\r') (cs : List Char) :
    normalizeBreaks (c :: cs) = c :: normalizeBreaks cs := by
  rw [normalizeBreaks_cons fun hc => absurd hc h, if_neg h]

/-- A character other than a line break stands for itself. -/
theorem eq_of_normalized_eq {c d : Char} (h : (if c = '\r' then '\n' else c) = d)
    (hd : isBreak d = false) : c = d := by
  split at h
  · subst h
    cases hd
  · exact h

theorem normalizeBreaks_return_feed (cs : List Char) :
    normalizeBreaks ('\r' :: '\n' :: cs) = normalizeBreaks ('\n' :: cs) := by
  rw [normalizeBreaks, normalizeBreaks_cons_of_ne (by decide)]

@[simp] theorem normalizeBreaks_eq_nil_iff {cs : List Char} :
    normalizeBreaks cs = [] ↔ cs = [] := by
  fun_cases normalizeBreaks cs <;> simp

/-- Other characters at the front of a text do not come from its line breaks. -/
theorem prefix_of_normalizeBreaks {front cs : List Char} (h : front.any isBreak = false)
    (hfront : front <+: normalizeBreaks cs) : front <+: cs := by
  induction front generalizing cs with
  | nil => exact List.nil_prefix
  | cons c front ih =>
    rw [List.any_cons, Bool.or_eq_false_iff] at h
    have hcs := front_normalizeBreaks cs
    generalize normalizeBreaks cs = ds at hcs hfront
    cases hcs with
    | nil => exact hfront
    | char =>
      obtain ⟨rfl, hrest⟩ := List.cons_prefix_cons.1 hfront
      exact List.cons_prefix_cons.2 ⟨rfl, ih h.2 hrest⟩
    | lineBreak =>
      obtain ⟨rfl, -⟩ := List.cons_prefix_cons.1 hfront
      exact absurd h.1 (by decide)

/-! ## Texts without carriage returns -/

theorem normalizeBreaks_eq_self {cs : List Char} (h : '\r' ∉ cs) : normalizeBreaks cs = cs := by
  induction cs with
  | nil => rfl
  | cons c cs ih =>
    obtain ⟨hc, hcs⟩ := not_or.1 (mt List.mem_cons.2 h)
    rw [normalizeBreaks_cons_of_ne (Ne.symm hc), ih hcs]

theorem return_not_mem_normalizeBreaks (cs : List Char) : '\r' ∉ normalizeBreaks cs := by
  fun_induction normalizeBreaks cs with
  | case1 => exact List.not_mem_nil
  | case2 rest ih => simpa using ih
  | case3 c rest _ ih =>
    split
    · simpa using ih
    · next hc => simpa [Ne.symm hc] using ih

theorem normalizeBreaks_normalizeBreaks (cs : List Char) :
    normalizeBreaks (normalizeBreaks cs) = normalizeBreaks cs :=
  normalizeBreaks_eq_self (return_not_mem_normalizeBreaks cs)

/-! ## Runs of characters -/

/-- Characters of a class that does not tell line breaks apart. -/
theorem takeWhile_normalizeBreaks {p : Char → Bool} (hp : p '\n' = p '\r') (cs : List Char) :
    (normalizeBreaks cs).takeWhile p = normalizeBreaks (cs.takeWhile p) ∧
      (normalizeBreaks cs).dropWhile p = normalizeBreaks (cs.dropWhile p) := by
  fun_induction normalizeBreaks cs with
  | case1 => exact ⟨rfl, rfl⟩
  | case2 rest ih =>
    cases h : p '\r' with
    | false => simp [hp, h, normalizeBreaks]
    | true => simp [hp, h, normalizeBreaks, ih]
  | case3 c rest hpair ih =>
    have hrest := head?_ne_of_not_pair hpair
    have hsame : p (if c = '\r' then '\n' else c) = p c := by
      split
      · next hc => rw [hp, hc]
      · rfl
    cases h : p c with
    | false =>
      rw [h] at hsame
      simp [hsame, h, normalizeBreaks_cons hrest, normalizeBreaks]
    | true =>
      rw [h] at hsame
      have htake : c = '\r' → (rest.takeWhile p).head? ≠ some '\n' := fun hc ht => by
        rw [List.head?_takeWhile, Option.filter_eq_some_iff] at ht
        exact hrest hc ht.1
      simp [hsame, h, normalizeBreaks_cons htake, ih]

theorem return_not_mem_takeWhile {p : Char → Bool} (h : p '\r' = false) (cs : List Char) :
    '\r' ∉ cs.takeWhile p := fun hmem => by
  have hp := List.mem_takeWhile_imp hmem
  rw [h] at hp
  cases hp

/-- Characters of a class to which no line break belongs. -/
theorem takeWhile_normalizeBreaks_of_not_break {p : Char → Bool} (hfeed : p '\n' = false)
    (hreturn : p '\r' = false) (cs : List Char) :
    (normalizeBreaks cs).takeWhile p = cs.takeWhile p ∧
      (normalizeBreaks cs).dropWhile p = normalizeBreaks (cs.dropWhile p) := by
  obtain ⟨htake, hdrop⟩ := takeWhile_normalizeBreaks (hfeed.trans hreturn.symm) cs
  rw [htake, hdrop, normalizeBreaks_eq_self (return_not_mem_takeWhile hreturn cs)]
  exact ⟨rfl, rfl⟩

/-! ## Concatenations -/

/-- The seam between two texts splits no break: it is not between a carriage return and a line
feed. -/
def Unsplit (cs ds : List Char) : Prop := cs.getLast? = some '\r' → ds.head? ≠ some '\n'

theorem Unsplit.of_cons {c : Char} {cs ds : List Char} (h : Unsplit (c :: cs) ds) :
    Unsplit cs ds := by
  intro hlast
  refine h ?_
  rw [List.getLast?_cons, hlast, Option.getD_some]

/-- Behind a carriage return that ends a text the next text starts with no line feed. -/
theorem Unsplit.head?_append {c : Char} {cs ds : List Char} (h : Unsplit (c :: cs) ds)
    (hpair : c = '\r' → cs.head? ≠ some '\n') : c = '\r' → (cs ++ ds).head? ≠ some '\n' := by
  intro hc
  cases cs with
  | nil => exact h (congrArg some hc)
  | cons d cs => exact hpair hc

theorem normalizeBreaks_append {cs ds : List Char} (h : Unsplit cs ds) :
    normalizeBreaks (cs ++ ds) = normalizeBreaks cs ++ normalizeBreaks ds := by
  fun_induction normalizeBreaks cs with
  | case1 => rfl
  | case2 rest ih =>
    rw [List.cons_append, List.cons_append, normalizeBreaks, ih h.of_cons.of_cons, List.cons_append]
  | case3 c rest hpair ih =>
    have hrest := head?_ne_of_not_pair hpair
    rw [List.cons_append, normalizeBreaks_cons (h.head?_append hrest), ih h.of_cons,
      List.cons_append]

theorem normalizeBreaks_append_of_not_mem {cs : List Char} (h : '\r' ∉ cs) (ds : List Char) :
    normalizeBreaks (cs ++ ds) = cs ++ normalizeBreaks ds := by
  rw [normalizeBreaks_append fun hlast => absurd (List.mem_of_getLast? hlast) h,
    normalizeBreaks_eq_self h]

/-- A seam that splits a break makes two of it. -/
theorem length_normalizeBreaks_append_lt {cs ds : List Char} (h : ¬Unsplit cs ds) :
    (normalizeBreaks (cs ++ ds)).length <
      (normalizeBreaks cs).length + (normalizeBreaks ds).length := by
  obtain ⟨hlast, hhead⟩ := Classical.not_imp.1 h
  obtain ⟨cs, rfl⟩ := List.getLast?_eq_some_iff.1 hlast
  obtain ⟨ds, rfl⟩ := List.head?_eq_some_iff.1 (not_not.1 hhead)
  rw [List.append_assoc, List.singleton_append, normalizeBreaks_append (by simp [Unsplit]),
    normalizeBreaks_append (by simp [Unsplit]), normalizeBreaks_return_feed]
  simp [normalizeBreaks]

theorem length_normalizeBreaks_append_le (cs ds : List Char) :
    (normalizeBreaks (cs ++ ds)).length ≤
      (normalizeBreaks cs).length + (normalizeBreaks ds).length := by
  by_cases h : Unsplit cs ds
  · rw [normalizeBreaks_append h, List.length_append]
  · exact Nat.le_of_lt (length_normalizeBreaks_append_lt h)

/-- Three texts whose breaks can be written as line feeds one by one have no seam that splits a
break. -/
theorem unsplit_of_normalizeBreaks_append {cs ds es : List Char}
    (h : normalizeBreaks (cs ++ ds ++ es) =
      normalizeBreaks cs ++ normalizeBreaks ds ++ normalizeBreaks es) :
    Unsplit cs (ds ++ es) ∧ Unsplit ds es := by
  have hlength := congrArg List.length h
  simp only [List.append_assoc, List.length_append] at hlength
  have hinner := length_normalizeBreaks_append_le ds es
  constructor
  · by_contra hsplit
    have := length_normalizeBreaks_append_lt hsplit
    omega
  · by_contra hsplit
    have := length_normalizeBreaks_append_lt hsplit
    have := length_normalizeBreaks_append_le cs (ds ++ es)
    omega

end Text

/-! ## Positions -/

/-- The position without its offset. -/
def Position.withoutOffset (position : Position) : Position := { position with offset := 0 }

namespace Tracker

/-- A tracker in a text, and one at the same place of the text with line feeds for its line breaks,
each before the rest of its text. -/
structure Alongside (tracker plain : Tracker) (rest : List Char) : Prop where
  position : plain.position.withoutOffset = tracker.position.withoutOffset
  afterReturn : plain.afterReturn = false
  unsplit : tracker.afterReturn = true → rest.head? ≠ some '\n'

theorem alongside_start (cs : List Char) : Alongside start start cs := ⟨rfl, rfl, nofun⟩

theorem Alongside.step {tracker plain : Tracker} {c : Char} {rest : List Char}
    (h : Alongside tracker plain (c :: rest)) (hrest : c = '\r' → rest.head? ≠ some '\n') :
    Alongside (tracker.step c) (plain.step (if c = '\r' then '\n' else c)) rest := by
  obtain ⟨⟨line, column, offset⟩, afterReturn⟩ := tracker
  obtain ⟨⟨line', column', offset'⟩, afterReturn'⟩ := plain
  obtain ⟨hposition, rfl, hunsplit⟩ := h
  obtain ⟨rfl, rfl⟩ : line' = line ∧ column' = column := by
    simpa [Position.withoutOffset] using hposition
  by_cases hreturn : c = '\r'
  · subst hreturn
    exact ⟨rfl, rfl, fun _ => hrest rfl⟩
  · by_cases hfeed : c = '\n'
    · subst hfeed
      obtain rfl : afterReturn = false := by simpa using mt hunsplit
      exact ⟨rfl, rfl, nofun⟩
    · simp only [Tracker.step, hreturn, hfeed, if_false]
      exact ⟨rfl, rfl, nofun⟩

theorem Alongside.step_return_feed {tracker plain : Tracker} {cs rest : List Char}
    (h : Alongside tracker plain cs) :
    Alongside ((tracker.step '\r').step '\n') (plain.step '\n') rest := by
  obtain ⟨⟨line, column, offset⟩, afterReturn⟩ := tracker
  obtain ⟨⟨line', column', offset'⟩, afterReturn'⟩ := plain
  obtain ⟨hposition, rfl, -⟩ := h
  obtain ⟨rfl, rfl⟩ : line' = line ∧ column' = column := by
    simpa [Position.withoutOffset] using hposition
  exact ⟨rfl, rfl, nofun⟩

/-- **Trackers stay alongside over a text that ends at no split break.** -/
theorem Alongside.advance {tracker plain : Tracker} {cs rest : List Char}
    (h : Alongside tracker plain (cs ++ rest)) (hunsplit : Text.Unsplit cs rest) :
    Alongside (tracker.advance cs) (plain.advance (Text.normalizeBreaks cs)) rest := by
  fun_induction Text.normalizeBreaks cs generalizing tracker plain with
  | case1 => exact h
  | case2 cs ih => exact ih h.step_return_feed hunsplit.of_cons.of_cons
  | case3 c cs hpair ih =>
    have hcs := Text.head?_ne_of_not_pair hpair
    exact ih (h.step (hunsplit.head?_append hcs)) hunsplit.of_cons

end Tracker

end SchemaMerge
