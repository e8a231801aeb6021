import SchemaMerge.Merge.Node

/-!
# Merged directives apply each name once

`addDirective` keeps one application for each name, so the list that `mergeDirectives` extends stays
without repeated names. On lists without repeated names it is concatenation as long as the names
are new, and where the second list says the same as the first it only moves descriptions.

Results:
* `distinctNames_mergeDirectives`, `distinctNames_combineRepeated`: no name is applied twice.
* `combineRepeated_eq_self`: a list without repeated names is its own normal form.
* `skeletons_mergeDirectives`: merging a list of the same structure changes descriptions only.
* `mergeDirectives_map_skeleton`: merging does not see descriptions.
-/

namespace SchemaMerge

/-! ## Applications without descriptions -/

/-- The application without its descriptions. -/
def Directive.skeleton (directive : Directive) : Directive := { directive with descriptions := [] }

@[simp] theorem Directive.name_skeleton (d : Directive) : d.skeleton.name = d.name := rfl

@[simp] theorem Directive.skeleton_skeleton (d : Directive) : d.skeleton.skeleton = d.skeleton :=
  rfl

theorem Directive.sameStructure_iff (d e : Directive) :
    d.sameStructure e = true ↔ d.skeleton = e.skeleton := by
  simp [Directive.sameStructure, Directive.skeleton]

/-- Lists agree position by position under a test that compares images of a function exactly when
they have the same images. -/
theorem pairwise_iff_map_eq {α β : Type} {same : α → α → Bool} {f : α → β}
    (h : ∀ a b, same a b = true ↔ f a = f b) (as bs : List α) :
    pairwise same as bs = true ↔ as.map f = bs.map f := by
  induction as generalizing bs with
  | nil => cases bs <;> simp [pairwise]
  | cons a as ih =>
    cases bs with
    | nil => simp [pairwise]
    | cons b bs => simp [pairwise, h, ih]

theorem sameDirectives_iff (ds es : List Directive) :
    sameDirectives ds es = true ↔ ds.map Directive.skeleton = es.map Directive.skeleton :=
  pairwise_iff_map_eq Directive.sameStructure_iff ds es

/-! ## No name twice -/

/-- No directive is applied twice. -/
def DistinctNames (directives : List Directive) : Prop := (directives.map Directive.name).Nodup

theorem names_addDirective (ds : List Directive) (d : Directive) :
    (addDirective ds d).map Directive.name =
      if d.name ∈ ds.map Directive.name then ds.map Directive.name
      else ds.map Directive.name ++ [d.name] := by
  induction ds with
  | nil => simp [addDirective]
  | cons first rest ih =>
    unfold addDirective
    by_cases h : first.name = d.name
    · simp [h, Directive.absorb]
    · have h' : d.name ≠ first.name := fun e => h e.symm
      simp only [if_neg h, List.map_cons, ih, List.mem_cons, h', false_or]
      split <;> simp

theorem distinctNames_addDirective {ds : List Directive} (h : DistinctNames ds) (d : Directive) :
    DistinctNames (addDirective ds d) := by
  unfold DistinctNames at h ⊢
  rw [names_addDirective]
  split
  · exact h
  · next hd => simpa [List.nodup_append] using ⟨h, fun e he en => hd (en ▸ List.mem_map_of_mem he)⟩

/-- **Merging never repeats a name.** -/
theorem distinctNames_mergeDirectives {into : List Directive} (h : DistinctNames into)
    (incoming : List Directive) : DistinctNames (mergeDirectives into incoming) := by
  unfold mergeDirectives
  induction incoming generalizing into with
  | nil => exact h
  | cons d ds ih => exact ih (distinctNames_addDirective h d)

theorem distinctNames_combineRepeated (ds : List Directive) : DistinctNames (combineRepeated ds) :=
  distinctNames_mergeDirectives (show DistinctNames [] from .nil) ds

theorem addDirective_of_not_mem {ds : List Directive} {d : Directive}
    (h : d.name ∉ ds.map Directive.name) : addDirective ds d = ds ++ [d] := by
  induction ds with
  | nil => rfl
  | cons first rest ih =>
    simp only [List.map_cons, List.mem_cons, not_or] at h
    unfold addDirective
    rw [if_neg fun e => h.1 e.symm, ih h.2, List.cons_append]

/-- Lists that together repeat no name are merged by concatenation. -/
theorem mergeDirectives_eq_append {into incoming : List Directive}
    (h : DistinctNames (into ++ incoming)) : mergeDirectives into incoming = into ++ incoming := by
  unfold mergeDirectives
  induction incoming generalizing into with
  | nil => simp
  | cons d ds ih =>
    have hd : d.name ∉ into.map Directive.name := by
      intro hmem
      simp only [DistinctNames, List.map_append, List.map_cons, List.nodup_append] at h
      exact h.2.2 _ hmem _ List.mem_cons_self rfl
    rw [List.foldl_cons, addDirective_of_not_mem hd]
    simpa using ih (show DistinctNames ((into ++ [d]) ++ ds) by simpa using h)

/-- **A list that repeats no name is its own normal form.** -/
theorem combineRepeated_eq_self {ds : List Directive} (h : DistinctNames ds) :
    combineRepeated ds = ds := mergeDirectives_eq_append (show DistinctNames ([] ++ ds) from h)

/-! ## Merging what says the same -/

theorem addArgument_of_mem {arguments : List DirectiveArgument} {argument : DirectiveArgument}
    (h : argument ∈ arguments) : addArgument arguments argument = arguments := if_pos h

/-- Absorbing arguments that are all there leaves the arguments as they are. -/
theorem foldl_addArgument_of_subset {into incoming : List DirectiveArgument}
    (h : incoming ⊆ into) : incoming.foldl addArgument into = into := by
  induction incoming with
  | nil => rfl
  | cons a as ih =>
    obtain ⟨ha, has⟩ := List.cons_subset.1 h
    rw [List.foldl_cons, addArgument_of_mem ha, ih has]

theorem skeleton_absorb {d e : Directive} (h : d.arguments = e.arguments) :
    (d.absorb e).skeleton = d.skeleton := by
  simp [Directive.absorb, Directive.skeleton, ← h, foldl_addArgument_of_subset]

theorem skeletons_addDirective {ds : List Directive} (hds : DistinctNames ds) {d : Directive}
    (h : d.skeleton ∈ ds.map Directive.skeleton) :
    (addDirective ds d).map Directive.skeleton = ds.map Directive.skeleton := by
  induction ds with
  | nil => simp at h
  | cons first rest ih =>
    obtain ⟨hfirst, hrest⟩ := List.nodup_cons.1 hds
    unfold addDirective
    by_cases hn : first.name = d.name
    · rw [if_pos hn, List.map_cons, List.map_cons, skeleton_absorb]
      rw [List.map_cons, List.mem_cons] at h
      rcases h with h | h
      · exact (congrArg Directive.arguments h).symm
      · obtain ⟨e, he, heq⟩ := List.mem_map.1 h
        have hname : e.name = d.name := by simpa using congrArg Directive.name heq
        exact absurd (hn.trans hname.symm ▸ List.mem_map_of_mem he) hfirst
    · rw [if_neg hn, List.map_cons, List.map_cons, ih hrest]
      rw [List.map_cons, List.mem_cons] at h
      rcases h with h | h
      · exact absurd (congrArg Directive.name h).symm hn
      · exact h

/-- **Merging applications that are all there changes descriptions only.** -/
theorem skeletons_mergeDirectives_of_subset {into incoming : List Directive}
    (hinto : DistinctNames into)
    (h : incoming.map Directive.skeleton ⊆ into.map Directive.skeleton) :
    (mergeDirectives into incoming).map Directive.skeleton = into.map Directive.skeleton := by
  unfold mergeDirectives
  induction incoming generalizing into with
  | nil => rfl
  | cons d ds ih =>
    obtain ⟨hd, hds⟩ := List.cons_subset.1 h
    have hsame := skeletons_addDirective hinto hd
    rw [List.foldl_cons, ih (distinctNames_addDirective hinto d) (hsame ▸ hds), hsame]

theorem skeletons_mergeDirectives {into incoming : List Directive} (hinto : DistinctNames into)
    (h : into.map Directive.skeleton = incoming.map Directive.skeleton) :
    (mergeDirectives into incoming).map Directive.skeleton = into.map Directive.skeleton :=
  skeletons_mergeDirectives_of_subset hinto (h ▸ List.Subset.refl _)

/-! ## Merging without descriptions -/

theorem addDirective_map_skeleton (ds : List Directive) (d : Directive) :
    addDirective (ds.map Directive.skeleton) d.skeleton =
      (addDirective ds d).map Directive.skeleton := by
  induction ds with
  | nil => rfl
  | cons first rest ih =>
    rw [List.map_cons, addDirective, addDirective, Directive.name_skeleton, Directive.name_skeleton]
    split
    · rfl
    · rw [ih, List.map_cons]

/-- **Descriptions decide nothing about how directives are merged.** -/
theorem mergeDirectives_map_skeleton (ds es : List Directive) :
    mergeDirectives (ds.map Directive.skeleton) (es.map Directive.skeleton) =
      (mergeDirectives ds es).map Directive.skeleton := by
  unfold mergeDirectives
  induction es generalizing ds with
  | nil => rfl
  | cons e es ih => rw [List.map_cons, List.foldl_cons, addDirective_map_skeleton, ih]; rfl

theorem combineRepeated_map_skeleton (ds : List Directive) :
    combineRepeated (ds.map Directive.skeleton) =
      (combineRepeated ds).map Directive.skeleton :=
  mergeDirectives_map_skeleton [] ds

end SchemaMerge
