import SchemaMerge.Proofs.Text.Breaks

/-!
# Positions and the lines of a text

A tracker counts lines and columns character by character, and `Text.line?` finds a line by
searching the text for line breaks. They agree: a tracker that follows a text stands on the line
that it counts, behind as many of its characters as it counts columns (`Tracker.Before.advance`).
Between a carriage return and its line feed it would already be on the next line, so this is said of
a tracker that stands within no line break.

The line of a position shows the text from its offset on, up to the next line break
(`Tracker.Before.shownIn`).
-/

namespace SchemaMerge

namespace Text

/-! ## What stands behind line breaks -/

/-- The characters in front of the first line break. -/
def firstLine (cs : List Char) : List Char := cs.takeWhile fun c => !isBreak c

/-- What is left of the text behind a number of line breaks. -/
def behind? (cs : List Char) : Nat → Option (List Char)
  | 0 => some cs
  | n + 1 => (behind? cs n).bind afterBreak?

variable {front cs : List Char} {c : Char}

theorem firstLine_append (h : ∀ c ∈ front, isBreak c = false) (cs : List Char) :
    firstLine (front ++ cs) = front ++ firstLine cs :=
  List.takeWhile_append_of_pos fun c hc => by simp [h c hc]

theorem firstLine_eq_self (h : ∀ c ∈ cs, isBreak c = false) : firstLine cs = cs := by
  have happend := firstLine_append h []
  rwa [List.append_nil, show firstLine [] = [] from rfl, List.append_nil] at happend

theorem firstLine_append_of_isBreak (h : ¬∀ c ∈ front, isBreak c = false) (cs : List Char) :
    firstLine (front ++ cs) = firstLine front := by
  induction front with
  | nil => exact absurd (List.forall_mem_nil _) h
  | cons c front ih =>
    cases hc : isBreak c with
    | false =>
      have hrest := ih fun hfront => h (List.forall_mem_cons.2 ⟨hc, hfront⟩)
      simp only [firstLine, List.cons_append] at hrest ⊢
      rw [List.takeWhile_cons_of_pos (by simp [hc]), List.takeWhile_cons_of_pos (by simp [hc]),
        hrest]
    | true =>
      simp only [firstLine, List.cons_append]
      rw [List.takeWhile_cons_of_neg (by simp [hc]), List.takeWhile_cons_of_neg (by simp [hc])]

theorem behind?_eq_some_of_afterBreak? {rest : List Char} (h : afterBreak? cs = some rest)
    (n : Nat) : behind? cs (n + 1) = behind? rest n := by
  induction n with
  | zero => exact h
  | succ n ih => rw [behind?, ih, behind?]

theorem behind?_eq_none_of_afterBreak? (h : afterBreak? cs = none) (n : Nat) :
    behind? cs (n + 1) = none := by
  induction n with
  | zero => exact h
  | succ n ih => rw [behind?, ih, Option.bind_none]

/-- A line is the first one of what is left behind the line breaks in front of it. -/
theorem line?_eq (cs : List Char) (n : Nat) : line? cs n = (behind? cs n).map firstLine := by
  induction n generalizing cs with
  | zero => rfl
  | succ n ih =>
    rw [line?]
    cases h : afterBreak? cs with
    | none => rw [behind?_eq_none_of_afterBreak? h, Option.bind_none, Option.map_none]
    | some rest => rw [behind?_eq_some_of_afterBreak? h, Option.bind_some, ih]

theorem afterBreak?_append (h : ∀ c ∈ front, isBreak c = false) (cs : List Char) :
    afterBreak? (front ++ cs) = afterBreak? cs := by
  induction front with
  | nil => rfl
  | cons c front ih =>
    obtain ⟨hc, hfront⟩ := List.forall_mem_cons.1 h
    rw [List.cons_append, afterBreak?, hc, if_neg (by simp), ih hfront]
    rintro rest rfl -
    cases hc

theorem afterBreak?_of_isBreak (hc : isBreak c = true) (h : c = '\r' → cs.head? ≠ some '\n') :
    afterBreak? (c :: cs) = some cs := by
  rw [afterBreak?, if_pos hc]
  rintro rest hreturn rfl
  exact h hreturn rfl

end Text

/-- The text has the line of the position, and behind the column the line goes on as the text does
behind the offset, up to the next line break. -/
def Position.ShownIn (cs : List Char) (position : Position) : Prop :=
  ∃ line, Text.line? cs position.line = some line ∧ position.column ≤ line.length ∧
    line.drop position.column = Text.firstLine (cs.drop position.offset)

namespace Tracker

/-! ## Steps and runs -/

theorem step_of_not_isBreak (tracker : Tracker) {c : Char} (h : Text.isBreak c = false) :
    tracker.step c = ⟨⟨tracker.position.line, tracker.position.column + 1,
      tracker.position.offset + 1⟩, false⟩ := by
  simp only [Text.isBreak, Bool.or_eq_false_iff, decide_eq_false_iff_not] at h
  rw [step, if_neg h.1, if_neg h.2]

/-- A line break is counted once, where it is not the second half of one. -/
theorem step_of_isBreak {tracker : Tracker} {c : Char} (hc : Text.isBreak c = true)
    (h : tracker.afterReturn = true → c ≠ '\n') :
    tracker.step c = ⟨⟨tracker.position.line + 1, 0, tracker.position.offset + 1⟩,
      decide (c = '\r')⟩ := by
  simp only [Text.isBreak, Bool.or_eq_true, decide_eq_true_eq] at hc
  rcases hc with rfl | rfl
  · cases hreturn : tracker.afterReturn with
    | true => exact absurd rfl (h hreturn)
    | false => simp [step, hreturn]
  · rfl

theorem afterReturn_step (tracker : Tracker) (c : Char) :
    (tracker.step c).afterReturn = decide (c = '\r') := by
  unfold step
  split
  · next h => subst h; split <;> rfl
  · split
    · next h => simp [h]
    · next h => simp [h]

theorem afterReturn_advance {tracker : Tracker} {cs : List Char}
    (h : tracker.afterReturn = false) (hcs : cs.getLast? ≠ some '\r') :
    (tracker.advance cs).afterReturn = false := by
  cases hlast : cs.getLast? with
  | none =>
    rw [List.getLast?_eq_none_iff] at hlast
    exact hlast ▸ h
  | some c =>
    obtain ⟨ds, rfl⟩ := List.getLast?_eq_some_iff.1 hlast
    rw [advance_append, advance_cons, advance_nil, afterReturn_step]
    rw [hlast] at hcs
    simpa using hcs

/-- A step that is no line break stays on its line. -/
theorem line_step_of_not_isBreak (tracker : Tracker) {c : Char} (h : Text.isBreak c = false) :
    (tracker.step c).position.line = tracker.position.line := by rw [step_of_not_isBreak tracker h]

theorem line_advance_of_not_isBreak (tracker : Tracker) {cs : List Char}
    (h : ∀ c ∈ cs, Text.isBreak c = false) :
    (tracker.advance cs).position.line = tracker.position.line := by
  induction cs generalizing tracker with
  | nil => rfl
  | cons c cs ih =>
    rw [List.forall_mem_cons] at h
    rw [advance_cons, ih _ h.2, line_step_of_not_isBreak tracker h.1]

theorem line_le_advance (tracker : Tracker) (cs : List Char) :
    tracker.position.line ≤ (tracker.advance cs).position.line := by
  induction cs generalizing tracker with
  | nil => exact Nat.le_refl _
  | cons c cs ih =>
    refine Nat.le_trans ?_ (ih (tracker.step c))
    unfold step
    split
    · split <;> simp
    · split <;> simp

/-- A line feed leads to a later line. -/
theorem line_lt_advance {tracker : Tracker} (h : tracker.afterReturn = false) (cs : List Char) :
    tracker.position.line < (tracker.advance ('\n' :: cs)).position.line := by
  refine Nat.lt_of_lt_of_le ?_ (line_le_advance (tracker.step '\n') cs)
  simp [step, h]

/-- Characters that break no line are columns. -/
theorem column_advance_of_not_isBreak (tracker : Tracker) {cs : List Char}
    (h : ∀ c ∈ cs, Text.isBreak c = false) :
    (tracker.advance cs).position.column = tracker.position.column + cs.length := by
  induction cs generalizing tracker with
  | nil => rfl
  | cons c cs ih =>
    obtain ⟨hc, hcs⟩ := List.forall_mem_cons.1 h
    rw [advance_cons, ih _ hcs, step_of_not_isBreak tracker hc, List.length_cons]
    show tracker.position.column + 1 + cs.length = _
    omega

/-! ## Trackers in a text -/

/-- The tracker stands in the text `cs` in front of `rest`, within no line break: behind the line
breaks that it counts, and in the line behind as many characters as it counts columns. -/
structure Before (tracker : Tracker) (cs rest : List Char) : Prop where
  line : ∃ front, front.length = tracker.position.column ∧ (∀ c ∈ front, Text.isBreak c = false) ∧
    Text.behind? cs tracker.position.line = some (front ++ rest)
  offset : cs.drop tracker.position.offset = rest
  unsplit : tracker.afterReturn = true → rest.head? ≠ some '\n'

variable {tracker : Tracker} {cs ds rest : List Char} {c : Char}

theorem before_start (cs : List Char) : start.Before cs cs :=
  ⟨⟨[], rfl, List.forall_mem_nil _, rfl⟩, List.drop_zero, nofun⟩

theorem drop_succ_of_drop_eq_cons {n : Nat} (h : cs.drop n = c :: rest) :
    cs.drop (n + 1) = rest := by
  rw [← List.tail_drop, h, List.tail_cons]

theorem Before.step (h : tracker.Before cs (c :: rest))
    (hrest : c = '\r' → rest.head? ≠ some '\n') : (tracker.step c).Before cs rest := by
  obtain ⟨front, hlength, hfront, hbehind⟩ := h.line
  have hoffset : cs.drop (tracker.step c).position.offset = rest := by
    rw [step_offset]
    exact drop_succ_of_drop_eq_cons h.offset
  cases hc : Text.isBreak c with
  | false =>
    rw [step_of_not_isBreak tracker hc] at hoffset ⊢
    refine ⟨⟨front ++ [c], ?_, ?_, ?_⟩, hoffset, nofun⟩
    · rw [List.length_append, hlength, List.length_singleton]
    · exact List.forall_mem_append.2 ⟨hfront, List.forall_mem_singleton.2 hc⟩
    · rw [hbehind, List.append_assoc, List.singleton_append]
  | true =>
    rw [step_of_isBreak hc fun hreturn hfeed => h.unsplit hreturn (congrArg some hfeed)]
      at hoffset ⊢
    refine ⟨⟨[], rfl, List.forall_mem_nil _, ?_⟩, hoffset,
      fun hreturn => hrest (of_decide_eq_true hreturn)⟩
    rw [Text.behind?, hbehind, Option.bind_some, Text.afterBreak?_append hfront,
      Text.afterBreak?_of_isBreak hc hrest, List.nil_append]

theorem Before.step_return_feed (h : tracker.Before cs ('\r' :: '\n' :: rest)) :
    ((tracker.step '\r').step '\n').Before cs rest := by
  obtain ⟨front, -, hfront, hbehind⟩ := h.line
  refine ⟨⟨[], rfl, List.forall_mem_nil _, ?_⟩, ?_, nofun⟩
  · show Text.behind? cs (tracker.position.line + 1) = _
    rw [Text.behind?, hbehind, Option.bind_some, Text.afterBreak?_append hfront]
    rfl
  · rw [step_offset, step_offset]
    exact drop_succ_of_drop_eq_cons (drop_succ_of_drop_eq_cons h.offset)

/-- **A tracker that follows a text stands where it counts**, wherever that is in no line break. -/
theorem Before.advance (h : tracker.Before cs (ds ++ rest)) (hunsplit : Text.Unsplit ds rest) :
    (tracker.advance ds).Before cs rest := by
  fun_induction Text.normalizeBreaks ds generalizing tracker with
  | case1 => exact h
  | case2 ds ih => exact ih h.step_return_feed hunsplit.of_cons.of_cons
  | case3 c ds hpair ih =>
    exact ih (h.step (hunsplit.head?_append (Text.head?_ne_of_not_pair hpair))) hunsplit.of_cons

theorem Before.shownIn (h : tracker.Before cs rest) : tracker.position.ShownIn cs := by
  obtain ⟨front, hlength, hfront, hbehind⟩ := h.line
  refine ⟨front ++ Text.firstLine rest, ?_, ?_, ?_⟩
  · rw [Text.line?_eq, hbehind, Option.map_some, Text.firstLine_append hfront]
  · rw [List.length_append, hlength]
    exact Nat.le_add_right ..
  · rw [h.offset, ← hlength, List.drop_left]

/-- Behind a line break the tracker counts more lines. -/
theorem Before.line_lt_line_advance (h : tracker.Before cs (ds ++ rest))
    (hbreak : ¬∀ c ∈ ds, Text.isBreak c = false) :
    tracker.position.line < (tracker.advance ds).position.line := by
  induction ds generalizing tracker with
  | nil => exact absurd (List.forall_mem_nil _) hbreak
  | cons c ds ih =>
    rw [advance_cons]
    cases hc : Text.isBreak c with
    | false =>
      have hstep := h.step fun hreturn => by
        subst hreturn
        cases hc
      have hds : ¬∀ c ∈ ds, Text.isBreak c = false := fun hds =>
        hbreak (List.forall_mem_cons.2 ⟨hc, hds⟩)
      have hlt := ih hstep hds
      rwa [step_of_not_isBreak tracker hc] at hlt ⊢
    | true =>
      have hle := line_le_advance (tracker.step c) ds
      rw [step_of_isBreak hc fun hreturn hfeed => h.unsplit hreturn (congrArg some hfeed)]
        at hle ⊢
      exact hle

end Tracker

end SchemaMerge
