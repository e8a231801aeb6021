import SchemaMerge.Proofs.Reading.Joined
import SchemaMerge.Proofs.RoundTrip.Canonical

/-!
# Texts in another place

The same text further down in a file, or in a file of another name, has the same tokens with other
spans (`tokensFrom_relocate`). A `Relocation` says which; `relocate` moves every span in a node.
What it leaves alone is all that `withoutSpans` keeps.
-/

namespace SchemaMerge

/-- A move to other files, by a number of whole lines and the characters in them. -/
structure Relocation where
  file : String → String
  lines : Nat
  chars : Nat

namespace Relocation

/-- The move that leaves everything where it is. -/
def refl : Relocation := ⟨id, 0, 0⟩

/-- The move behind a number of lines, in the same file. -/
def down (lines chars : Nat) : Relocation := ⟨id, lines, chars⟩

/-- The move to a file of another name. -/
def rename (file : String) : Relocation := ⟨fun _ => file, 0, 0⟩

variable (ρ : Relocation)

def position (position : Position) : Position :=
  ⟨position.line + ρ.lines, position.column, position.offset + ρ.chars⟩

def span (span : Span) : Span := ⟨ρ.file span.file, ρ.position span.start, ρ.position span.stop⟩

def token (token : Token) : Token := ⟨token.kind, ρ.span token.span⟩

def tracker (tracker : Tracker) : Tracker := ⟨ρ.position tracker.position, tracker.afterReturn⟩

@[simp] theorem kind_token (token : Token) : (ρ.token token).kind = token.kind := rfl

@[simp] theorem span_token (token : Token) : (ρ.token token).span = ρ.span token.span := rfl

/-- Two positions are moved to one line when they are on one line. -/
@[simp] theorem line_position_eq_iff {p q : Position} :
    (ρ.position p).line = (ρ.position q).line ↔ p.line = q.line := by
  simp [position]

@[simp] theorem span_refl (span : Span) : refl.span span = span := rfl

theorem map_token_refl (tokens : List Token) : tokens.map refl.token = tokens := List.map_id tokens

/-! ## Tokens -/

theorem step_tracker (tracker : Tracker) (c : Char) :
    (ρ.tracker tracker).step c = ρ.tracker (tracker.step c) := by
  unfold Tracker.step
  by_cases hfeed : c = '\n'
  · simp only [hfeed, if_true]
    cases h : tracker.afterReturn
    · simp [Relocation.tracker, Relocation.position, h, Nat.add_right_comm]
    · simp [Relocation.tracker, Relocation.position, h, Nat.add_right_comm]
  · by_cases hreturn : c = '\r'
    · simp [hreturn, Relocation.tracker, Relocation.position, Nat.add_right_comm]
    · simp [hfeed, hreturn, Relocation.tracker, Relocation.position, Nat.add_right_comm]

theorem advance_tracker (tracker : Tracker) (cs : List Char) :
    (ρ.tracker tracker).advance cs = ρ.tracker (tracker.advance cs) := by
  induction cs generalizing tracker with
  | nil => rfl
  | cons c cs ih => rw [Tracker.advance_cons, step_tracker, ih, Tracker.advance_cons]

end Relocation

/-- **A text without faults has the same tokens in another place.** -/
theorem tokensFrom_relocate (ρ : Relocation) {file : String} {tracker : Tracker} {cs : List Char}
    (h : ∀ token ∈ tokensFrom file tracker cs, token.kind.isProper = true) :
    tokensFrom (ρ.file file) (ρ.tracker tracker) cs = (tokensFrom file tracker cs).map ρ.token := by
  fun_induction tokensFrom file tracker cs with
  | case1 tracker cs found start stop span token hnil =>
    obtain ⟨kind, hreading, -⟩ := exists_reading_of_isProper (h _ (List.mem_singleton_self _))
    rw [tokensFrom_eq, if_pos hnil]
    simp only [scanSpan, ρ.advance_tracker, List.map_singleton, Relocation.token, Scan.kindAt,
      hreading, token, found]
    rfl
  | case2 tracker cs found start stop span token hne ih =>
    rw [List.forall_mem_cons] at h
    obtain ⟨kind, hreading, -⟩ := exists_reading_of_isProper h.1
    rw [tokensFrom_eq, if_neg hne, List.map_cons, ← ih h.2]
    simp only [scanSpan, ρ.advance_tracker, Relocation.token, Scan.kindAt, hreading, token, found]
    rfl

/-! ## Nodes -/

/-- A part of a document whose spans can be moved. -/
class Relocatable (α : Type) [Spanned α] where
  relocate : Relocation → α → α
  relocate_refl : ∀ a, relocate .refl a = a
  withoutSpans_relocate : ∀ ρ a, withoutSpans (relocate ρ a) = withoutSpans a

export Relocatable (relocate)

attribute [simp] Relocatable.relocate_refl Relocatable.withoutSpans_relocate

section

variable {α : Type} [Spanned α] [Relocatable α]

@[simp] theorem map_relocate_refl (as : List α) : as.map (relocate .refl) = as := by
  rw [show (relocate .refl : α → α) = id from funext Relocatable.relocate_refl, List.map_id]

@[simp] theorem map_withoutSpans_relocate (ρ : Relocation) (as : List α) :
    (as.map (relocate ρ)).map withoutSpans = as.map withoutSpans := by
  simp [Function.comp_def]

end

instance : Relocatable Field where
  relocate ρ a := { a with span := ρ.span a.span }
  relocate_refl _ := rfl
  withoutSpans_relocate _ _ := rfl

instance : Relocatable SchemaBlock where
  relocate ρ a := { a with span := ρ.span a.span }
  relocate_refl _ := rfl
  withoutSpans_relocate _ _ := rfl

instance : Relocatable DirectiveDefinition where
  relocate ρ a := { a with span := ρ.span a.span }
  relocate_refl _ := rfl
  withoutSpans_relocate _ _ := rfl

instance : Relocatable ScalarDefinition where
  relocate ρ a := { a with span := ρ.span a.span }
  relocate_refl _ := rfl
  withoutSpans_relocate _ _ := rfl

instance : Relocatable EnumDefinition where
  relocate ρ a := { a with span := ρ.span a.span }
  relocate_refl _ := rfl
  withoutSpans_relocate _ _ := rfl

instance : Relocatable FieldsDefinition where
  relocate ρ a := { a with fields := a.fields.map (relocate ρ), span := ρ.span a.span }
  relocate_refl a := by simp
  withoutSpans_relocate ρ a :=
    congrArg (fun fields => { a with fields, span := default })
      (map_withoutSpans_relocate ρ a.fields)

instance : Relocatable UnionDefinition where
  relocate ρ a := { a with span := ρ.span a.span }
  relocate_refl _ := rfl
  withoutSpans_relocate _ _ := rfl

instance : Relocatable TypeDefinition where
  relocate ρ a := { a with fields := a.fields.map (relocate ρ), span := ρ.span a.span }
  relocate_refl a := by simp
  withoutSpans_relocate ρ a :=
    congrArg (fun fields => { a with fields, span := default })
      (map_withoutSpans_relocate ρ a.fields)

instance : Relocatable Document where
  relocate ρ d :=
    { schemaBlocks := d.schemaBlocks.map (relocate ρ)
      directiveDefinitions := d.directiveDefinitions.map (relocate ρ)
      scalars := d.scalars.map (relocate ρ)
      enums := d.enums.map (relocate ρ)
      interfaces := d.interfaces.map (relocate ρ)
      unions := d.unions.map (relocate ρ)
      inputs := d.inputs.map (relocate ρ)
      types := d.types.map (relocate ρ) }
  relocate_refl d := by simp
  withoutSpans_relocate ρ d := (Document.mk.injEq ..).mpr
    ⟨map_withoutSpans_relocate .., map_withoutSpans_relocate .., map_withoutSpans_relocate ..,
      map_withoutSpans_relocate .., map_withoutSpans_relocate .., map_withoutSpans_relocate ..,
      map_withoutSpans_relocate .., map_withoutSpans_relocate ..⟩

end SchemaMerge
