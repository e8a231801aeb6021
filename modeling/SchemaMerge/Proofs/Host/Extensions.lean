import Mathlib.Data.List.Forall2
import SchemaMerge.Host.Discovery
import SchemaMerge.Proofs.Text.Trimming

/-!
# Extensions of schema files

Extensions are compared without blank characters at their ends and without dots in front of them;
those of which nothing is left are dropped (`normalizesTo_iff`). A path has an extension if its last
name ends in a dot and the extension, with something before the dot (`hasExtension_iff`).
-/

namespace SchemaMerge

variable {extensions normal : List String} {path extension core : String}

/-! ## The form in which extensions are compared -/

/-- The core is what is left of an extension when the blank characters at its ends and then all dots
in front are taken away. -/
def StripsTo (extension core : String) : Prop :=
  ∃ trimmed dots, Text.Trims Text.isBlank extension.toList trimmed ∧
    trimmed = List.replicate dots '.' ++ core.toList ∧ HeadIn (· ≠ '.') core.toList

/-- Each extension is stripped, and those of which nothing is left are dropped. -/
def NormalizesTo (extensions normal : List String) : Prop :=
  ∃ cores, List.Forall₂ StripsTo extensions cores ∧ normal = cores.filter (· ≠ "")

theorem stripsTo_iff : StripsTo extension core ↔ normalizeExtension extension = core := by
  unfold StripsTo normalizeExtension
  constructor
  · rintro ⟨trimmed, dots, htrims, rfl, hhead⟩
    have hdots : ∀ c ∈ List.replicate dots '.', decide (c = '.') = true := by
      intro c hc
      simp [List.eq_of_mem_replicate hc]
    have hrest : HeadIn (fun c => !decide (c = '.')) core.toList :=
      hhead.mono fun c hc => by simpa using hc
    rw [Text.trims_iff.1 htrims, (takeWhile_append_of_head hdots hrest).2, String.ofList_toList]
  · rintro rfl
    set trimmed := Text.trim Text.isBlank extension.toList
    have hdots : trimmed.takeWhile (· = '.') =
        List.replicate (trimmed.takeWhile (· = '.')).length '.' :=
      List.eq_replicate_of_mem fun c hc => of_decide_eq_true (forall_mem_takeWhile c hc)
    refine ⟨trimmed, (trimmed.takeWhile (· = '.')).length, Text.trims_trim _ _, ?_, ?_⟩
    · rw [← hdots, String.toList_ofList, List.takeWhile_append_dropWhile]
    · rw [String.toList_ofList]
      exact (headIn_dropWhile _ trimmed).mono fun c hc => by simpa using hc

/-- The forms in which extensions are compared are those that are described. -/
theorem normalizesTo_iff :
    NormalizesTo extensions normal ↔ normalizeExtensions extensions = normal := by
  have hcores (cores : List String) :
      List.Forall₂ StripsTo extensions cores ↔ cores = extensions.map normalizeExtension := by
    rw [eq_comm, ← List.forall₂_eq_eq_eq, List.forall₂_map_left_iff]
    exact ⟨fun h => h.imp fun _ _ => stripsTo_iff.1, fun h => h.imp fun _ _ => stripsTo_iff.2⟩
  have hempty : (fun extension : String => !extension.isEmpty) =
      fun extension => decide (extension ≠ "") := by
    funext extension
    rw [Bool.eq_iff_iff]
    simp
  unfold NormalizesTo normalizeExtensions
  simp only [hcores, hempty, exists_eq_left, eq_comm]

/-! ## The extension of a path -/

/-- The last name of a path is something with a dot and the extension behind it; `..` is no name. -/
def EndsIn (path extension : String) : Prop :=
  ∃ name stem, (Path.essentialNames path).getLast? = some name ∧ name ≠ ".." ∧
    name.toList = stem ++ '.' :: extension.toList ∧ stem ≠ [] ∧ '.' ∉ extension.toList

/-- The last dot of a name decides: what stands behind it is the extension, unless nothing stands
before it. -/
theorem nameExtension?_eq_some_iff {name extension : List Char} :
    Path.nameExtension? name = some extension ↔ name ≠ ['.', '.'] ∧
      ∃ stem, name = stem ++ '.' :: extension ∧ stem ≠ [] ∧ '.' ∉ extension := by
  unfold Path.nameExtension?
  constructor
  · intro h
    split at h
    · next c before hbehind =>
      split at h
      · cases h
      · next hdots =>
        cases h
        refine ⟨hdots, (c :: before).reverse, ?_, by simp, fun hdot => ?_⟩
        · have hsplit := @List.takeWhile_append_dropWhile _ (fun c => c ≠ '.') name.reverse
          rw [hbehind] at hsplit
          simpa using congrArg List.reverse hsplit.symm
        · simpa using forall_mem_takeWhile '.' (List.mem_reverse.1 hdot)
    · cases h
  · rintro ⟨hdots, stem, rfl, hstem, hdot⟩
    have hextension : ∀ c ∈ extension.reverse, decide (c ≠ '.') = true := by
      intro c hc
      exact decide_eq_true fun heq => hdot (heq ▸ List.mem_reverse.1 hc)
    have hrest : HeadIn (fun c => !decide (c ≠ '.')) ('.' :: stem.reverse) := by simp [HeadIn]
    obtain ⟨htake, hdrop⟩ := takeWhile_append_of_head hextension hrest
    obtain ⟨c, before, hbefore⟩ := List.exists_cons_of_ne_nil (List.reverse_ne_nil_iff.2 hstem)
    have hreverse : (stem ++ '.' :: extension).reverse =
        extension.reverse ++ '.' :: stem.reverse := by simp
    rw [hreverse, htake, hdrop, hbefore, List.reverse_reverse]
    exact if_neg hdots

theorem extension?_eq_some_iff :
    Path.extension? path = some extension ↔ EndsIn path extension := by
  have hdots (name : String) : name.toList ≠ ['.', '.'] ↔ name ≠ ".." :=
    not_congr (by rw [← String.toList_inj]; rfl)
  unfold Path.extension? EndsIn
  rw [Option.map_eq_some_iff]
  constructor
  · rintro ⟨ending, hending, rfl⟩
    obtain ⟨name, hlast, hname⟩ := Option.bind_eq_some_iff.1 hending
    obtain ⟨hne, stem, hsplit⟩ := nameExtension?_eq_some_iff.1 hname
    rw [String.toList_ofList]
    exact ⟨name, stem, hlast, (hdots name).1 hne, hsplit⟩
  · rintro ⟨name, stem, hlast, hne, hsplit⟩
    have hname := nameExtension?_eq_some_iff.2 ⟨(hdots name).2 hne, stem, hsplit⟩
    exact ⟨extension.toList, Option.bind_eq_some_iff.2 ⟨name, hlast, hname⟩,
      String.ofList_toList⟩

/-- Paths are compared by what their last name ends in. -/
theorem hasExtension_iff :
    hasExtension extensions path = true ↔ ∃ extension ∈ extensions, EndsIn path extension := by
  unfold hasExtension
  simp only [← extension?_eq_some_iff]
  cases Path.extension? path <;> simp

end SchemaMerge
