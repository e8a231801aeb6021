import SchemaMerge.Proofs.Token.Lexeme
import SchemaMerge.Text.Escape

/-!
# Trimmed texts

What is left of a text without some characters at its ends: the characters taken away are all of the
kind, and what is left neither starts nor ends with one (`Text.trims_trim`). It is determined by
that (`Text.trims_iff`).
-/

namespace SchemaMerge.Text

/-- The core is what is left of a text when the characters of `p` at both ends are taken away. -/
structure Trims (p : Char → Bool) (cs core : List Char) : Prop where
  ends : ∃ before after, cs = before ++ (core ++ after) ∧ (∀ c ∈ before, p c = true) ∧
    ∀ c ∈ after, p c = true
  head : HeadIn (fun c => !p c) core
  last : HeadIn (fun c => !p c) core.reverse

variable {p : Char → Bool}

theorem trims_trim (p : Char → Bool) (cs : List Char) : Trims p cs (trim p cs) := by
  generalize hinner : cs.dropWhile p = inner
  have htrim : trim p cs = (inner.reverse.dropWhile p).reverse := by rw [trim, hinner]
  have hsplit : inner = trim p cs ++ (inner.reverse.takeWhile p).reverse := by
    rw [htrim, ← List.reverse_append, List.takeWhile_append_dropWhile, List.reverse_reverse]
  refine ⟨⟨cs.takeWhile p, (inner.reverse.takeWhile p).reverse, ?_, forall_mem_takeWhile, ?_⟩, ?_,
    ?_⟩
  · rw [← hsplit, ← hinner, List.takeWhile_append_dropWhile]
  · exact fun c hc => forall_mem_takeWhile c (List.mem_reverse.1 hc)
  · intro c hc
    have hhead : c ∈ inner.head? := by
      rw [hsplit, List.head?_append, Option.mem_def.1 hc]
      rfl
    exact headIn_dropWhile p cs c (hinner ▸ hhead)
  · rw [htrim, List.reverse_reverse]
    exact headIn_dropWhile p inner.reverse

/-- What is left of a text is determined by its properties: it is what `trim` leaves. -/
theorem trims_iff {cs core : List Char} : Trims p cs core ↔ trim p cs = core := by
  refine ⟨fun h => ?_, fun h => h ▸ trims_trim p cs⟩
  obtain ⟨before, after, rfl, hbefore, hafter⟩ := h.ends
  cases core with
  | nil =>
    have hall : ∀ c ∈ before ++ after, p c = true := List.forall_mem_append.2 ⟨hbefore, hafter⟩
    rw [trim, List.nil_append, List.dropWhile_eq_nil_iff.2 hall]
    rfl
  | cons c core =>
    have hfront := (@takeWhile_append_of_head p _ (c :: core ++ after) hbefore h.head).2
    have hback := (takeWhile_append_of_head
      (fun c hc => hafter c (List.mem_reverse.1 hc)) h.last).2
    rw [trim, hfront, List.reverse_append, hback, List.reverse_reverse]

theorem trims_self {cs : List Char} (h : ∀ c ∈ cs, p c = false) : Trims p cs cs where
  ends := ⟨[], [], by simp, List.forall_mem_nil _, List.forall_mem_nil _⟩
  head c hc := by simp [h c (List.mem_of_mem_head? hc)]
  last c hc := by simp [h c (List.mem_reverse.1 (List.mem_of_mem_head? hc))]

end SchemaMerge.Text
