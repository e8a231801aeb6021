import SchemaMerge.Proofs.Merge.Statements

/-!
# Laws of merging lists of directives

Merging changes an application only where the other list applies the same directive, and then it
only adds to it: arguments that are not there yet, and descriptions (`Directive.Grows`). The two
orders in which three lists can be merged lead to the same list, if the list in the middle repeats
no name (`mergeDirectives_mergeDirectives`). If it repeats one, the third list is merged into the
first application of that name in one order, and behind the last in the other.

`mergeDirectives_laws` says all this, and what the normal form of a list is.
-/

namespace SchemaMerge

/-! ## Arguments -/

/-- An argument added to the incoming ones is one added behind all of them. -/
theorem foldl_addArgument_addArgument (into incoming : List DirectiveArgument)
    (a : DirectiveArgument) :
    (addArgument incoming a).foldl addArgument into =
      addArgument (incoming.foldl addArgument into) a := by
  by_cases h : a ∈ incoming
  · have hmem : a ∈ incoming.foldl addArgument into := mem_foldl_addArgument.2 (.inr h)
    rw [addArgument_of_mem h, addArgument_of_mem hmem]
  · rw [addArgument, if_neg h, List.foldl_append]
    rfl

theorem foldl_addArgument_foldl (into incoming others : List DirectiveArgument) :
    (others.foldl addArgument incoming).foldl addArgument into =
      others.foldl addArgument (incoming.foldl addArgument into) := by
  induction others generalizing incoming with
  | nil => rfl
  | cons a as ih => rw [List.foldl_cons, List.foldl_cons, ih, foldl_addArgument_addArgument]

/-- Only arguments that are not there yet are added, each once. -/
theorem exists_foldl_addArgument_eq (into incoming : List DirectiveArgument) :
    ∃ added, incoming.foldl addArgument into = into ++ added ∧ added.Nodup ∧
      ∀ x ∈ added, x ∉ into ∧ x ∈ incoming := by
  induction incoming generalizing into with
  | nil => exact ⟨[], by simp, List.nodup_nil, List.forall_mem_nil _⟩
  | cons a as ih =>
    rw [List.foldl_cons]
    by_cases ha : a ∈ into
    · rw [addArgument_of_mem ha]
      obtain ⟨added, heq, hnodup, hadded⟩ := ih into
      refine ⟨added, heq, hnodup, fun x hx => ?_⟩
      exact ⟨(hadded x hx).1, List.mem_cons_of_mem a (hadded x hx).2⟩
    · rw [addArgument, if_neg ha]
      obtain ⟨added, heq, hnodup, hadded⟩ := ih (into ++ [a])
      refine ⟨a :: added, by rw [heq]; simp, ?_, ?_⟩
      · exact List.nodup_cons.2 ⟨fun hmem => (hadded a hmem).1 (by simp), hnodup⟩
      · intro x hx
        rcases List.mem_cons.1 hx with rfl | hx
        · exact ⟨ha, List.mem_cons_self⟩
        · obtain ⟨hnot, hmem⟩ := hadded x hx
          exact ⟨fun h => hnot (List.mem_append_left _ h), List.mem_cons_of_mem a hmem⟩

/-! ## One application after another -/

section

variable {ds : List Directive} {d e : Directive}

theorem absorb_absorb (c d e : Directive) : (c.absorb d).absorb e = c.absorb (d.absorb e) := by
  simp [Directive.absorb, foldl_addArgument_foldl]

/-- Two applications of one name are merged like one that has absorbed the other. -/
theorem addDirective_addDirective_of_eq (ds : List Directive) (h : d.name = e.name) :
    addDirective (addDirective ds d) e = addDirective ds (d.absorb e) := by
  induction ds with
  | nil => simp [addDirective, h]
  | cons first rest ih =>
    have hname : (d.absorb e).name = d.name := rfl
    by_cases hfirst : first.name = d.name
    · have habsorb : (first.absorb d).name = e.name := hfirst.trans h
      rw [addDirective, if_pos hfirst, addDirective, if_pos habsorb, addDirective, hname,
        if_pos hfirst, absorb_absorb]
    · have hnot : first.name ≠ e.name := fun he => hfirst (he.trans h.symm)
      rw [addDirective, if_neg hfirst, addDirective, if_neg hnot, ih, addDirective, hname,
        if_neg hfirst]

/-- Applications of different names do not meet. What is put at the end is so in either order, if
the name of the other is there. -/
theorem addDirective_comm (hne : d.name ≠ e.name) (hmem : e.name ∈ ds.map Directive.name) :
    addDirective (addDirective ds d) e = addDirective (addDirective ds e) d := by
  induction ds with
  | nil => simp at hmem
  | cons first rest ih =>
    by_cases hd : first.name = d.name
    · have he : first.name ≠ e.name := fun he => hne (hd.symm.trans he)
      have hd' : (first.absorb d).name ≠ e.name := he
      simp only [addDirective, if_pos hd, if_neg he, if_neg hd']
    · by_cases he : first.name = e.name
      · have he' : (first.absorb e).name ≠ d.name := hd
        simp only [addDirective, if_neg hd, if_pos he, if_neg he']
      · have hrest : e.name ∈ rest.map Directive.name := by
          rw [List.map_cons, List.mem_cons] at hmem
          exact hmem.resolve_left fun h => he h.symm
        simp only [addDirective, if_neg hd, if_neg he, ih hrest]

theorem mem_names_addDirective (ds : List Directive) (d : Directive) :
    d.name ∈ (addDirective ds d).map Directive.name := by
  rw [names_addDirective]
  split
  · assumption
  · simp

/-! ## Three lists -/

/-- An application whose name is there may be merged in front of applications of other names. -/
theorem addDirective_mergeDirectives_comm {into incoming : List Directive}
    (hmem : d.name ∈ into.map Directive.name) (hnot : d.name ∉ incoming.map Directive.name) :
    addDirective (mergeDirectives into incoming) d =
      mergeDirectives (addDirective into d) incoming := by
  unfold mergeDirectives
  induction incoming generalizing into with
  | nil => rfl
  | cons f fs ih =>
    rw [List.map_cons, List.mem_cons, not_or] at hnot
    have hthere : d.name ∈ (addDirective into f).map Directive.name := by
      rw [names_addDirective]
      split
      · exact hmem
      · exact List.mem_append_left _ hmem
    rw [List.foldl_cons, List.foldl_cons, ih hthere hnot.2,
      addDirective_comm (fun h => hnot.1 h.symm) hmem]

/-- An application merged into a list without repeated names is one merged behind that list. -/
theorem mergeDirectives_addDirective (into : List Directive) {incoming : List Directive}
    (h : DistinctNames incoming) (d : Directive) :
    mergeDirectives into (addDirective incoming d) =
      addDirective (mergeDirectives into incoming) d := by
  induction incoming generalizing into with
  | nil => rfl
  | cons f fs ih =>
    obtain ⟨hf, hfs⟩ := List.nodup_cons.1 h
    by_cases hname : f.name = d.name
    · have hthere := hname ▸ mem_names_addDirective into f
      calc mergeDirectives into (addDirective (f :: fs) d)
          = mergeDirectives (addDirective into (f.absorb d)) fs := by
            rw [addDirective, if_pos hname]
            rfl
        _ = mergeDirectives (addDirective (addDirective into f) d) fs := by
            rw [addDirective_addDirective_of_eq into hname]
        _ = addDirective (mergeDirectives into (f :: fs)) d :=
            (addDirective_mergeDirectives_comm hthere (hname ▸ hf)).symm
    · rw [addDirective, if_neg hname]
      exact ih (addDirective into f) hfs

/-- **Three lists may be merged in either order**, if the one in the middle repeats no name. -/
theorem mergeDirectives_mergeDirectives (a : List Directive) {b : List Directive}
    (hb : DistinctNames b) (c : List Directive) :
    mergeDirectives (mergeDirectives a b) c = mergeDirectives a (mergeDirectives b c) := by
  induction c generalizing b with
  | nil => rfl
  | cons d ds ih =>
    calc mergeDirectives (mergeDirectives a b) (d :: ds)
        = mergeDirectives (addDirective (mergeDirectives a b) d) ds := rfl
      _ = mergeDirectives (mergeDirectives a (addDirective b d)) ds := by
          rw [mergeDirectives_addDirective a hb]
      _ = mergeDirectives a (mergeDirectives (addDirective b d) ds) :=
          ih (distinctNames_addDirective hb d)

end

/-! ## What is kept of a list -/

theorem names_mergeDirectives (into incoming : List Directive) :
    (mergeDirectives into incoming).map Directive.name =
      uniteNames (into.map Directive.name) (incoming.map Directive.name) := by
  induction incoming using List.reverseRecOn with
  | nil => rfl
  | append_singleton ds d ih =>
    rw [List.map_append, List.map_singleton, uniteNames_concat, ← ih, mergeDirectives,
      List.foldl_append]
    exact names_addDirective _ d

/-- An application with what applications of its name among `incoming` bring along: arguments that
it does not have, and descriptions. -/
structure Directive.Grows (incoming : List Directive) (d grown : Directive) : Prop where
  name_eq : grown.name = d.name
  arguments : ∃ added, grown.arguments = d.arguments ++ added ∧ added.Nodup ∧
    ∀ x ∈ added, x ∉ d.arguments ∧ ∃ e ∈ incoming, e.name = d.name ∧ x ∈ e.arguments
  descriptions : d.descriptions <+: grown.descriptions

/-- The list keeps each application, perhaps grown, and has applications of other names behind
them. -/
def Extends (into incoming merged : List Directive) : Prop :=
  ∃ grown fresh, merged = grown ++ fresh ∧ List.Forall₂ (Directive.Grows incoming) into grown ∧
    ∀ d ∈ fresh, d.name ∉ into.map Directive.name

section

variable {incoming : List Directive} {d e grown : Directive}

theorem Directive.grows_self (incoming : List Directive) (d : Directive) : d.Grows incoming d where
  name_eq := rfl
  arguments := ⟨[], by simp, List.nodup_nil, List.forall_mem_nil _⟩
  descriptions := List.prefix_rfl

theorem Directive.Grows.more (h : d.Grows incoming grown) (others : List Directive) :
    d.Grows (incoming ++ others) grown where
  name_eq := h.name_eq
  arguments := by
    obtain ⟨added, heq, hnodup, hadded⟩ := h.arguments
    refine ⟨added, heq, hnodup, fun x hx => ?_⟩
    obtain ⟨hnot, e, he, hfrom⟩ := hadded x hx
    exact ⟨hnot, e, List.mem_append_left _ he, hfrom⟩
  descriptions := h.descriptions

theorem Directive.Grows.absorb (h : d.Grows incoming grown) (hname : grown.name = e.name) :
    d.Grows (incoming ++ [e]) (grown.absorb e) where
  name_eq := h.name_eq
  arguments := by
    obtain ⟨added, heq, hnodup, hadded⟩ := h.arguments
    obtain ⟨more, hmoreEq, hmoreNodup, hmore⟩ :=
      exists_foldl_addArgument_eq grown.arguments e.arguments
    refine ⟨added ++ more, ?_, ?_, fun x hx => ?_⟩
    · rw [Directive.absorb, hmoreEq, heq, List.append_assoc]
    · refine List.nodup_append.2 ⟨hnodup, hmoreNodup, ?_⟩
      rintro x hx _ hy rfl
      exact (hmore x hy).1 (heq ▸ List.mem_append_right _ hx)
    · rcases List.mem_append.1 hx with hx | hx
      · obtain ⟨hnot, f, hf, hfrom⟩ := hadded x hx
        exact ⟨hnot, f, List.mem_append_left _ hf, hfrom⟩
      · obtain ⟨hnot, hmem⟩ := hmore x hx
        refine ⟨fun hd => hnot (heq ▸ List.mem_append_left _ hd), e, by simp, ?_, hmem⟩
        exact hname.symm.trans h.name_eq
  descriptions := h.descriptions.trans (List.prefix_append _ _)

theorem names_eq_of_forall₂_grows {into list : List Directive}
    (h : List.Forall₂ (Directive.Grows incoming) into list) :
    list.map Directive.name = into.map Directive.name := by
  induction h with
  | nil => rfl
  | cons hd _ ih => rw [List.map_cons, List.map_cons, hd.name_eq, ih]

theorem forall₂_grows_addDirective {into list : List Directive}
    (h : List.Forall₂ (Directive.Grows incoming) into list)
    (hmem : e.name ∈ list.map Directive.name) :
    List.Forall₂ (Directive.Grows (incoming ++ [e])) into (addDirective list e) := by
  induction h with
  | nil => simp at hmem
  | @cons d grown rest grownRest hd hrest ih =>
    by_cases hname : grown.name = e.name
    · rw [addDirective, if_pos hname]
      exact .cons (hd.absorb hname) (hrest.imp fun _ _ hgrows => hgrows.more [e])
    · rw [addDirective, if_neg hname]
      refine .cons (hd.more [e]) (ih ?_)
      rw [List.map_cons, List.mem_cons] at hmem
      exact hmem.resolve_left fun he => hname he.symm

theorem addDirective_append_of_mem {ds : List Directive} (others : List Directive)
    (h : e.name ∈ ds.map Directive.name) :
    addDirective (ds ++ others) e = addDirective ds e ++ others := by
  induction ds with
  | nil => simp at h
  | cons first rest ih =>
    by_cases hname : first.name = e.name
    · simp only [List.cons_append, addDirective, if_pos hname]
    · rw [List.map_cons, List.mem_cons] at h
      have hrest := h.resolve_left fun he => hname he.symm
      simp only [List.cons_append, addDirective, if_neg hname, ih hrest]

theorem addDirective_append_of_not_mem {ds : List Directive} (others : List Directive)
    (h : e.name ∉ ds.map Directive.name) :
    addDirective (ds ++ others) e = ds ++ addDirective others e := by
  induction ds with
  | nil => rfl
  | cons first rest ih =>
    rw [List.map_cons, List.mem_cons, not_or] at h
    have hname : first.name ≠ e.name := fun he => h.1 he.symm
    simp only [List.cons_append, addDirective, if_neg hname, ih h.2]

/-- **Merging only adds to the applications of a list.** -/
theorem extends_mergeDirectives (into incoming : List Directive) :
    Extends into incoming (mergeDirectives into incoming) := by
  induction incoming using List.reverseRecOn with
  | nil =>
    refine ⟨into, [], by rw [List.append_nil]; rfl, ?_, List.forall_mem_nil _⟩
    exact List.forall₂_same.2 fun d _ => d.grows_self []
  | append_singleton ds e ih =>
    obtain ⟨grown, fresh, hmerged, hgrown, hfresh⟩ := ih
    have hstep : mergeDirectives into (ds ++ [e]) = addDirective (grown ++ fresh) e := by
      rw [← hmerged, mergeDirectives, List.foldl_append]
      rfl
    rw [hstep]
    by_cases hmem : e.name ∈ grown.map Directive.name
    · exact ⟨addDirective grown e, fresh, addDirective_append_of_mem fresh hmem,
        forall₂_grows_addDirective hgrown hmem, hfresh⟩
    · refine ⟨grown, addDirective fresh e, addDirective_append_of_not_mem fresh hmem,
        hgrown.imp fun _ _ hgrows => hgrows.more [e], fun d hd => ?_⟩
      rw [names_eq_of_forall₂_grows hgrown] at hmem
      have hname := List.mem_map_of_mem (f := Directive.name) hd
      rw [names_addDirective] at hname
      split at hname
      · obtain ⟨f, hf, hfd⟩ := List.mem_map.1 hname
        exact hfd ▸ hfresh f hf
      · rcases List.mem_append.1 hname with hname | hname
        · obtain ⟨f, hf, hfd⟩ := List.mem_map.1 hname
          exact hfd ▸ hfresh f hf
        · exact List.mem_singleton.1 hname ▸ hmem

end

/-! ## The laws -/

/-- **Lists of directives under merging.** Three lists may be merged in either order, if the one in
the middle repeats no name. Such a list is the same merged with the empty list, on either side, and
merged with itself it gains descriptions only. The normal form of a list repeats no name, has the
names in the order in which they first occur, and is its own normal form. What is merged into a list
only adds to its applications, and to these only arguments that they do not have. -/
theorem mergeDirectives_laws {b : List Directive} (hb : DistinctNames b) (a c : List Directive) :
    mergeDirectives (mergeDirectives a b) c = mergeDirectives a (mergeDirectives b c) ∧
      (mergeDirectives b [] = b ∧ mergeDirectives [] b = b ∧
        (mergeDirectives b b).map Directive.skeleton = b.map Directive.skeleton) ∧
      (DistinctNames (combineRepeated a) ∧
        (combineRepeated a).map Directive.name = uniteNames [] (a.map Directive.name) ∧
        combineRepeated (combineRepeated a) = combineRepeated a) ∧
      Extends a c (mergeDirectives a c) := by
  have hnormal : DistinctNames (combineRepeated a) := distinctNames_combineRepeated a
  refine ⟨mergeDirectives_mergeDirectives a hb c, ⟨rfl, ?_, ?_⟩, ⟨hnormal, ?_, ?_⟩, ?_⟩
  · exact combineRepeated_eq_self hb
  · exact skeletons_mergeDirectives hb rfl
  · exact names_mergeDirectives [] a
  · exact combineRepeated_eq_self hnormal
  · exact extends_mergeDirectives a c

/-- Three lists that apply `@key` with arguments that they share in part. The first and the last
repeat it. -/
theorem mergeDirectives_laws_key :
    let key := fun fields texts => (⟨"key", [⟨"fields", [fields], false⟩], texts⟩ : Directive)
    let a := [key "\"id\"" ["# 1"], key "\"name\"" []]
    let b := [⟨"tag", [], ["# 2"]⟩, key "\"id\"" []]
    let c := [key "\"sku\"" ["# 3"], key "\"name\"" ["# 4"], key "\"sku\"" []]
    DistinctNames b ∧
      mergeDirectives (mergeDirectives a b) c = mergeDirectives a (mergeDirectives b c) ∧
      Extends a c (mergeDirectives a c) := by
  intro key a b c
  have hb : DistinctNames b := by
    unfold DistinctNames
    decide
  obtain ⟨hassoc, -, -, hextends⟩ := mergeDirectives_laws hb a c
  exact ⟨hb, hassoc, hextends⟩

end SchemaMerge
