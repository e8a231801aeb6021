import SchemaMerge.Proofs.Merge.Appearance
import SchemaMerge.Proofs.Merge.Statements

/-!
# Taking in what has been taken in

Unifying definitions, putting fields into a list and folding fragments into a type have one thing in
common: what a state has taken in it covers from then on, and to take in what is covered succeeds
and does not change what the state looks like. `Replays` states this of one step, and
`replay_foldlM` and `congr_foldlM` carry it over to runs. Merging needs it for runs in one phase or
in two in which all items come twice (`foldlM_twice`, `foldlM_twice_twice`).
-/

namespace SchemaMerge

open Node

/-! ## Steps and runs -/

section Runs

variable {σ ι ν : Type} {step other : σ → ι → Except Diagnostic σ} {good : σ → Prop}
  {fit : ι → Prop} {look : σ → ν} {covers coversOther : σ → ι → Prop}

/-- A step that shows nothing when it takes in an item for the second time. -/
structure Replays (step : σ → ι → Except Diagnostic σ) (good : σ → Prop) (fit : ι → Prop)
    (look : σ → ν) (covers : σ → ι → Prop) : Prop where
  keeps : ∀ {s t a}, good s → fit a → step s a = .ok t → good t
  covers_step : ∀ {s t a}, good s → fit a → step s a = .ok t → covers t a
  covers_mono : ∀ {s t a b}, good s → fit a → step s a = .ok t → covers s b → covers t b
  covers_congr : ∀ {s t b}, look s = look t → covers s b → covers t b
  replay : ∀ {s a}, good s → fit a → covers s a → ∃ t, step s a = .ok t ∧ look t = look s
  congr : ∀ {s s' t a}, good s → good s' → fit a → look s = look s' → step s a = .ok t →
    ∃ t', step s' a = .ok t' ∧ look t = look t'

theorem Replays.keeps_foldlM (hr : Replays step good fit look covers) {items : List ι} {s t : σ}
    (hs : good s) (hi : ∀ a ∈ items, fit a) (h : items.foldlM step s = .ok t) : good t := by
  induction items generalizing s with
  | nil => exact Except.ok.inj h ▸ hs
  | cons a items ih =>
    rw [List.forall_mem_cons] at hi
    rw [List.foldlM_cons, except_bind_eq_ok_iff] at h
    obtain ⟨middle, hm, h⟩ := h
    exact ih (hr.keeps hs hi.1 hm) hi.2 h

/-- What a run has taken in is covered, and what was covered stays covered. -/
theorem Replays.covers_foldlM (hr : Replays step good fit look covers) {items : List ι}
    {s t : σ} (hs : good s) (hi : ∀ a ∈ items, fit a) (h : items.foldlM step s = .ok t) {b : ι}
    (hb : covers s b ∨ b ∈ items) : covers t b := by
  induction items generalizing s with
  | nil =>
    obtain rfl := Except.ok.inj h
    simpa using hb
  | cons a items ih =>
    rw [List.forall_mem_cons] at hi
    rw [List.foldlM_cons, except_bind_eq_ok_iff] at h
    obtain ⟨middle, hm, h⟩ := h
    refine ih (hr.keeps hs hi.1 hm) hi.2 h ?_
    rcases hb with hb | hb
    · exact .inl (hr.covers_mono hs hi.1 hm hb)
    · rcases List.mem_cons.1 hb with rfl | hb
      · exact .inl (hr.covers_step hs hi.1 hm)
      · exact .inr hb

/-- **Items that are covered can be taken in again, and nothing shows.** -/
theorem Replays.replay_foldlM (hr : Replays step good fit look covers) {items : List ι} {s : σ}
    (hs : good s) (hi : ∀ a ∈ items, fit a) (hc : ∀ a ∈ items, covers s a) :
    ∃ t, items.foldlM step s = .ok t ∧ look t = look s := by
  induction items generalizing s with
  | nil => exact ⟨s, rfl, rfl⟩
  | cons a items ih =>
    rw [List.forall_mem_cons] at hi hc
    obtain ⟨middle, hm, hlook⟩ := hr.replay hs hi.1 hc.1
    obtain ⟨t, ht, hsame⟩ := ih (hr.keeps hs hi.1 hm) hi.2
      fun b hb => hr.covers_congr hlook.symm (hc.2 b hb)
    rw [List.foldlM_cons, hm]
    exact ⟨t, ht, hsame.trans hlook⟩

/-- Runs from states that look alike end in states that look alike. -/
theorem Replays.congr_foldlM (hr : Replays step good fit look covers) {items : List ι}
    {s s' t : σ} (hs : good s) (hs' : good s') (hi : ∀ a ∈ items, fit a) (hlook : look s = look s')
    (h : items.foldlM step s = .ok t) : ∃ t', items.foldlM step s' = .ok t' ∧ look t = look t' := by
  induction items generalizing s s' with
  | nil =>
    obtain rfl := Except.ok.inj h
    exact ⟨s', rfl, hlook⟩
  | cons a items ih =>
    rw [List.forall_mem_cons] at hi
    rw [List.foldlM_cons, except_bind_eq_ok_iff] at h
    obtain ⟨middle, hm, h⟩ := h
    obtain ⟨middle', hm', hsame⟩ := hr.congr hs hs' hi.1 hlook hm
    rw [List.foldlM_cons, hm']
    exact ih (hr.keeps hs hi.1 hm) (hr.keeps hs' hi.1 hm') hi.2 hsame h

/-- A run shows nothing of what it has taken in and takes in again, what it starts from included. -/
theorem Replays.foldlM_twice (hr : Replays step good fit look covers) {first t : σ} {as : List ι}
    {item : ι} (hfirst : good first) (hitem : fit item) (has : ∀ a ∈ as, fit a)
    (hcover : covers first item) (h : as.foldlM step first = .ok t) :
    ∃ t', (as ++ item :: as).foldlM step first = .ok t' ∧ good t' ∧ look t' = look t := by
  have hgood := hr.keeps_foldlM hfirst has h
  have hagain : ∀ a ∈ item :: as, fit a := List.forall_mem_cons.2 ⟨hitem, has⟩
  have hcovered : ∀ a ∈ item :: as, covers t a := List.forall_mem_cons.2
    ⟨hr.covers_foldlM hfirst has h (.inl hcover),
      fun a ha => hr.covers_foldlM hfirst has h (.inr ha)⟩
  obtain ⟨t', ht', hlook⟩ := hr.replay_foldlM hgood hagain hcovered
  refine ⟨t', ?_, hr.keeps_foldlM hgood hagain ht', hlook⟩
  rw [List.foldlM_append, h]
  exact ht'

/-- **A run in two phases shows nothing of the items that come twice.** -/
theorem Replays.foldlM_twice_twice (hr : Replays step good fit look covers)
    (ho : Replays other good fit look coversOther) {first t : σ} {as bs : List ι} {item : ι}
    (hfirst : good first) (hitem : fit item) (has : ∀ a ∈ as, fit a) (hbs : ∀ b ∈ bs, fit b)
    (hcover : covers first item)
    (h : (as.foldlM step first >>= bs.foldlM other) = .ok t) :
    ∃ t', ((as ++ item :: as).foldlM step first >>= (bs ++ bs).foldlM other) = .ok t' ∧
      look t' = look t := by
  obtain ⟨middle, hm, hb⟩ := except_bind_eq_ok_iff.1 h
  obtain ⟨middle', hm', hgood', hlook⟩ := hr.foldlM_twice hfirst hitem has hcover hm
  have hgood := hr.keeps_foldlM hfirst has hm
  obtain ⟨end₁, he₁, hlook₁⟩ := ho.congr_foldlM hgood hgood' hbs hlook.symm hb
  obtain ⟨end₂, he₂, hlook₂⟩ := ho.replay_foldlM (ho.keeps_foldlM hgood' hbs he₁) hbs
    fun b hb => ho.covers_foldlM hgood' hbs he₁ (.inr hb)
  refine ⟨end₂, ?_, hlook₂.trans hlook₁.symm⟩
  rw [hm']
  show (bs ++ bs).foldlM other middle' = _
  rw [List.foldlM_append, he₁]
  exact he₂

end Runs

/-! ## Unifying -/

section Unifying

variable {α : Type} [Definition α] [LawfulDefinition α] [Titled α] [LawfulTitled α]
  {category : Category} {label : α → String}

/-- A node has the structure of another and a title wherever the other has one. -/
def Covers (a b : α) : Prop :=
  skeleton a = skeleton b ∧ overlay (titles a) (titles b) = titles a

omit [LawfulTitled α] in
theorem covers_self (a : α) : Covers a a := ⟨rfl, overlay_self _⟩

omit [LawfulTitled α] in
theorem Covers.congr {a b c : α} (h : appearance a = appearance b) (hc : Covers a c) :
    Covers b c := by
  obtain ⟨hs, ht⟩ := appearance_eq_iff.1 h
  rwa [Covers, hs, ht] at hc

theorem covers_absorb {a b : α} (ha : normalize a = a) (h : skeleton a = skeleton b) :
    Covers (absorb a b) b := by
  refine ⟨(LawfulNode.skeleton_absorb ha h).trans h, ?_⟩
  rw [LawfulTitled.titles_absorb h, overlay_overlay_right]

theorem Covers.absorb {a b c : α} (ha : normalize a = a) (h : skeleton a = skeleton b)
    (hc : Covers a c) : Covers (absorb a b) c := by
  refine ⟨(LawfulNode.skeleton_absorb ha h).trans hc.1, ?_⟩
  rw [LawfulTitled.titles_absorb h, overlay_overlay_of_eq (LawfulTitled.length_titles h) hc.2]

theorem Covers.appearance_absorb {a b : α} (ha : normalize a = a) (hc : Covers a b) :
    appearance (Node.absorb a b) = appearance a :=
  appearance_eq_iff.2 ⟨LawfulNode.skeleton_absorb ha hc.1,
    (LawfulTitled.titles_absorb hc.1).trans hc.2⟩

theorem appearance_absorb_congr {a a' b : α} (ha : normalize a = a) (ha' : normalize a' = a')
    (h : appearance a = appearance a') (hb : skeleton a = skeleton b) :
    appearance (absorb a b) = appearance (absorb a' b) := by
  obtain ⟨hs, ht⟩ := appearance_eq_iff.1 h
  rw [appearance_eq_iff, LawfulNode.skeleton_absorb ha hb,
    LawfulNode.skeleton_absorb ha' (hs.symm.trans hb), LawfulTitled.titles_absorb hb,
    LawfulTitled.titles_absorb (hs.symm.trans hb), ht]
  exact ⟨hs, rfl⟩

theorem replays_unifying :
    Replays (unifying category label) (fun a : α => normalize a = a) (fun a => normalize a = a)
      appearance Covers where
  keeps hs ha h := (unify_eq_ok_iff.1 h).2 ▸ LawfulNode.normalize_absorb hs ha
  covers_step hs _ h := by
    obtain ⟨hsame, rfl⟩ := unify_eq_ok_iff.1 h
    exact covers_absorb hs hsame
  covers_mono hs _ h hc := by
    obtain ⟨hsame, rfl⟩ := unify_eq_ok_iff.1 h
    exact hc.absorb hs hsame
  covers_congr := Covers.congr
  replay hs _ hc := ⟨_, unify_eq_ok_iff.2 ⟨hc.1, rfl⟩, hc.appearance_absorb hs⟩
  congr hs hs' _ hlook h := by
    obtain ⟨hsame, rfl⟩ := unify_eq_ok_iff.1 h
    have hskeleton := (appearance_eq_iff.1 hlook).1
    exact ⟨_, unify_eq_ok_iff.2 ⟨hskeleton.symm.trans hsame, rfl⟩,
      appearance_absorb_congr hs hs' hlook hsame⟩

/-! ## Putting into a list -/

/-- The first node of the name of another covers it. -/
def FirstCovers : List α → α → Prop
  | [], _ => False
  | a :: as, b => if Definition.name a = Definition.name b then Covers a b else FirstCovers as b

omit [LawfulTitled α] [LawfulDefinition α] [Titled α] in
theorem insertKeyed_cons_eq_ok_iff {combine : α → α → Except Diagnostic α}
    {fresh : α → Except Diagnostic α} {first item : α} {rest result : List α} :
    insertKeyed Definition.name combine fresh (first :: rest) item = .ok result ↔
      if Definition.name first = Definition.name item then
        ∃ new, combine first item = .ok new ∧ new :: rest = result
      else ∃ others, insertKeyed Definition.name combine fresh rest item = .ok others ∧
        first :: others = result := by
  rw [insertKeyed]
  split <;> simp only [except_bind_eq_ok_iff, pure, Except.pure, Except.ok.injEq]

theorem firstCovers_insertKeyed {as bs : List α} {a : α} (hn : ∀ b ∈ as, normalize b = b)
    (h : insertKeyed Definition.name (unifying category label) Except.ok as a = .ok bs) :
    FirstCovers bs a := by
  induction as generalizing bs with
  | nil =>
    obtain rfl := Except.ok.inj h
    simpa [FirstCovers] using covers_self a
  | cons first rest ih =>
    rw [List.forall_mem_cons] at hn
    rw [insertKeyed_cons_eq_ok_iff] at h
    split at h
    · next hname =>
      obtain ⟨new, hnew, rfl⟩ := h
      obtain ⟨hsame, rfl⟩ := unify_eq_ok_iff.1 hnew
      rw [FirstCovers, if_pos (by simpa using hname)]
      exact covers_absorb hn.1 hsame
    · next hname =>
      obtain ⟨others, ho, rfl⟩ := h
      rw [FirstCovers, if_neg hname]
      exact ih hn.2 ho

theorem FirstCovers.stays {as bs : List α} {a b : α} (hn : ∀ b ∈ as, normalize b = b)
    (h : insertKeyed Definition.name (unifying category label) Except.ok as a = .ok bs)
    (hc : FirstCovers as b) : FirstCovers bs b := by
  induction as generalizing bs with
  | nil => exact hc.elim
  | cons first rest ih =>
    rw [List.forall_mem_cons] at hn
    rw [insertKeyed_cons_eq_ok_iff] at h
    rw [FirstCovers] at hc
    split at h
    · obtain ⟨new, hnew, rfl⟩ := h
      obtain ⟨hsame, rfl⟩ := unify_eq_ok_iff.1 hnew
      rw [FirstCovers, LawfulDefinition.name_absorb]
      split at hc
      · next hb => simpa [hb] using hc.absorb hn.1 hsame
      · next hb => simpa [hb] using hc
    · obtain ⟨others, ho, rfl⟩ := h
      rw [FirstCovers]
      split at hc
      · next hb => simpa [hb] using hc
      · next hb => simpa [hb] using ih hn.2 ho hc

omit [LawfulTitled α] in
theorem name_congr {a b : α} (h : appearance a = appearance b) :
    Definition.name a = Definition.name b := by
  rw [← LawfulDefinition.name_skeleton a, (appearance_eq_iff.1 h).1,
    LawfulDefinition.name_skeleton]

omit [LawfulTitled α] in
theorem FirstCovers.congr {as bs : List α} {c : α} (h : as.map appearance = bs.map appearance)
    (hc : FirstCovers as c) : FirstCovers bs c := by
  induction as generalizing bs with
  | nil => exact hc.elim
  | cons a as ih =>
    obtain ⟨b, bs, rfl, hb, hbs⟩ := List.map_eq_cons_iff.1 h.symm
    rw [FirstCovers] at hc ⊢
    rw [name_congr hb]
    split at hc
    · next hname => simpa [hname] using hc.congr hb.symm
    · next hname => simpa [hname] using ih hbs.symm hc

theorem FirstCovers.replay {as : List α} {b : α} (hn : ∀ a ∈ as, normalize a = a)
    (hc : FirstCovers as b) :
    ∃ bs, insertKeyed Definition.name (unifying category label) Except.ok as b = .ok bs ∧
      bs.map appearance = as.map appearance := by
  induction as with
  | nil => exact hc.elim
  | cons first rest ih =>
    rw [List.forall_mem_cons] at hn
    rw [FirstCovers] at hc
    simp only [insertKeyed_cons_eq_ok_iff]
    split at hc
    · next hname =>
      simp only [if_pos hname]
      exact ⟨_, ⟨_, unify_eq_ok_iff.2 ⟨hc.1, rfl⟩, rfl⟩, by
        rw [List.map_cons, List.map_cons, hc.appearance_absorb hn.1]⟩
    · next hname =>
      obtain ⟨others, ho, hsame⟩ := ih hn.2 hc
      simp only [if_neg hname]
      exact ⟨_, ⟨others, ho, rfl⟩, by rw [List.map_cons, List.map_cons, hsame]⟩

theorem insertKeyed_congr {as as' bs : List α} {b : α} (hn : ∀ a ∈ as, normalize a = a)
    (hn' : ∀ a ∈ as', normalize a = a) (h : as.map appearance = as'.map appearance)
    (hb : insertKeyed Definition.name (unifying category label) Except.ok as b = .ok bs) :
    ∃ bs', insertKeyed Definition.name (unifying category label) Except.ok as' b = .ok bs' ∧
      bs.map appearance = bs'.map appearance := by
  induction as generalizing as' bs with
  | nil =>
    obtain rfl := List.map_eq_nil_iff.1 h.symm
    exact ⟨bs, hb, rfl⟩
  | cons first rest ih =>
    obtain ⟨first', rest', rfl, hfirst, hrest⟩ := List.map_eq_cons_iff.1 h.symm
    rw [List.forall_mem_cons] at hn hn'
    rw [insertKeyed_cons_eq_ok_iff] at hb
    simp only [insertKeyed_cons_eq_ok_iff, name_congr hfirst]
    split at hb
    · next hname =>
      obtain ⟨new, hnew, rfl⟩ := hb
      obtain ⟨hsame, rfl⟩ := unify_eq_ok_iff.1 hnew
      have hskeleton := (appearance_eq_iff.1 hfirst).1
      simp only [if_pos hname]
      exact ⟨_, ⟨_, unify_eq_ok_iff.2 ⟨hskeleton.trans hsame, rfl⟩, rfl⟩, by
        rw [List.map_cons, List.map_cons, hrest,
          appearance_absorb_congr hn.1 hn'.1 hfirst.symm hsame]⟩
    · next hname =>
      obtain ⟨others, ho, rfl⟩ := hb
      obtain ⟨others', ho', hsame⟩ := ih hn.2 hn'.2 hrest.symm ho
      simp only [if_neg hname]
      exact ⟨_, ⟨others', ho', rfl⟩, by rw [List.map_cons, List.map_cons, hsame, hfirst]⟩

theorem replays_insertKeyed :
    Replays (insertKeyed Definition.name (unifying category label) Except.ok)
      (fun as : List α => ∀ a ∈ as, normalize a = a) (fun a => normalize a = a)
      (List.map appearance) FirstCovers where
  keeps hs ha h :=
    forall_mem_insertKeyed (P := fun a => normalize a = a) h ha (fun ha hb => Except.ok.inj hb ▸ ha)
      (fun ha hb hc => (unify_eq_ok_iff.1 hc).2 ▸ LawfulNode.normalize_absorb ha hb) hs
  covers_step hs _ h := firstCovers_insertKeyed hs h
  covers_mono hs _ h hc := hc.stays hs h
  covers_congr h hc := hc.congr h
  replay hs _ hc := hc.replay hs
  congr hs hs' _ hlook h := insertKeyed_congr hs hs' hlook h

omit [LawfulTitled α] in
/-- Nodes of different names each cover themselves. -/
theorem firstCovers_of_nodup {as : List α} (hd : (as.map Definition.name).Nodup) {a : α}
    (ha : a ∈ as) : FirstCovers as a := by
  induction as with
  | nil => cases ha
  | cons first rest ih =>
    obtain ⟨hfirst, hd⟩ := List.nodup_cons.1 hd
    rw [FirstCovers]
    rcases List.mem_cons.1 ha with rfl | ha
    · simpa using covers_self a
    · have hname : Definition.name first ≠ Definition.name a := fun h =>
        hfirst (h ▸ List.mem_map_of_mem ha)
      rw [if_neg hname]
      exact ih hd ha

end Unifying

/-! ## Merging directives -/

theorem skeletons_addDirective_of_covered {ds : List Directive} (hds : DistinctNames ds)
    {d e : Directive} (he : e ∈ ds) (hname : e.name = d.name) (hargs : d.arguments ⊆ e.arguments) :
    (addDirective ds d).map Directive.skeleton = ds.map Directive.skeleton := by
  induction ds with
  | nil => cases he
  | cons first rest ih =>
    obtain ⟨hfirst, hrest⟩ := List.nodup_cons.1 hds
    unfold addDirective
    rcases List.mem_cons.1 he with rfl | he
    · rw [if_pos hname, List.map_cons, List.map_cons]
      simp [Directive.absorb, Directive.skeleton, foldl_addArgument_of_subset hargs]
    · rw [if_neg fun h => hfirst (List.mem_map.2 ⟨e, he, hname.trans h.symm⟩), List.map_cons,
        List.map_cons, ih hrest he]

/-- Merging directives that say nothing new changes descriptions only. -/
theorem skeletons_mergeDirectives_of_says {ds es : List Directive} (hds : DistinctNames ds)
    (h : ∀ statement, DirectivesSay es statement → DirectivesSay ds statement) :
    (mergeDirectives ds es).map Directive.skeleton = ds.map Directive.skeleton := by
  unfold mergeDirectives
  induction es generalizing ds with
  | nil => rfl
  | cons e es ih =>
    obtain ⟨d, hd, hname⟩ := h (.applies e.name) ⟨e, List.mem_cons_self, rfl⟩
    have hargs : e.arguments ⊆ d.arguments := fun a ha => by
      have hsays := h (.passes e.name a) ⟨e, List.mem_cons_self, rfl, ha⟩
      rwa [← hname, directivesSay_passes_iff hds hd] at hsays
    have hsame := skeletons_addDirective_of_covered hds hd hname hargs
    rw [List.foldl_cons, ih (distinctNames_addDirective hds e), hsame]
    intro statement hsays
    exact (directivesSay_congr hsame).2 (h statement (directivesSay_cons.2 (.inr hsays)))

theorem skeletons_mergeDirectives_congr {ds ds' : List Directive} (es : List Directive)
    (h : ds.map Directive.skeleton = ds'.map Directive.skeleton) :
    (mergeDirectives ds es).map Directive.skeleton =
      (mergeDirectives ds' es).map Directive.skeleton := by
  rw [← mergeDirectives_map_skeleton, h, mergeDirectives_map_skeleton]

/-! ## Folding fragments -/

/-- A type has all that a fragment adds. -/
structure CoversFragment (type fragment : TypeDefinition) : Prop where
  interfaces : fragment.interfaces ⊆ type.interfaces
  directives : ∀ statement, DirectivesSay fragment.directives statement →
    DirectivesSay type.directives statement
  descriptions : type.descriptions.head?.or fragment.descriptions.head? = type.descriptions.head?
  comments : type.comments.head?.or fragment.comments.head? = type.comments.head?
  fields : ∀ f ∈ fragment.fields, FirstCovers type.fields f

theorem coversFragment_self {type : TypeDefinition} (hd : type.DistinctFields) :
    CoversFragment type type where
  interfaces := List.Subset.refl _
  directives _ h := h
  descriptions := Option.or_self
  comments := Option.or_self
  fields _ hf := firstCovers_of_nodup hd hf

/-- What decides how a type looks. -/
theorem appearance_type_iff {t u : TypeDefinition} :
    appearance t = appearance u ↔
      t.name = u.name ∧ t.interfaces = u.interfaces ∧
        t.fields.map appearance = u.fields.map appearance ∧
        t.directives.map Directive.skeleton = u.directives.map Directive.skeleton ∧
        t.isExtension = u.isExtension ∧ t.descriptions.head? = u.descriptions.head? ∧
        t.comments.head? = u.comments.head? := by
  rw [appearance_eq_iff, map_appearance_eq_iff]
  simp only [skeleton, TypeDefinition.mk.injEq, titles, List.cons.injEq, true_and, and_true]
  tauto

theorem coversFragment_addFragment {t u : TypeDefinition} {fields : List Field}
    (ht : normalize t = t) (hu : normalize u = u)
    (h : uniteFields t.name t.fields u.fields = .ok fields) :
    CoversFragment (t.addFragment u fields) u where
  interfaces _ hi := mem_uniteNames.2 (.inr hi)
  directives _ hs := directivesSay_mergeDirectives.2 (.inr hs)
  descriptions := by simp [TypeDefinition.addFragment, Option.or_assoc]
  comments := by simp [TypeDefinition.addFragment, Option.or_assoc]
  fields _ hf :=
    replays_insertKeyed.covers_foldlM (normalize_fields ht) (normalize_fields hu) h (.inr hf)

theorem head?_append_or {texts more others : List String}
    (h : texts.head?.or others.head? = texts.head?) :
    (texts ++ more).head?.or others.head? = (texts ++ more).head? := by
  cases texts with
  | nil =>
    have hnone : others.head? = none := by simpa using h
    simp [hnone]
  | cons text texts => simp

theorem CoversFragment.addFragment {t u v : TypeDefinition} {fields : List Field}
    (ht : normalize t = t) (hu : normalize u = u)
    (h : uniteFields t.name t.fields u.fields = .ok fields) (hc : CoversFragment t v) :
    CoversFragment (t.addFragment u fields) v where
  interfaces _ hi := mem_uniteNames.2 (.inl (hc.interfaces hi))
  directives _ hs := directivesSay_mergeDirectives.2 (.inl (hc.directives _ hs))
  descriptions := head?_append_or hc.descriptions
  comments := head?_append_or hc.comments
  fields f hf := replays_insertKeyed.covers_foldlM (normalize_fields ht) (normalize_fields hu) h
    (.inl (hc.fields f hf))

theorem CoversFragment.congr {t u v : TypeDefinition} (h : appearance t = appearance u)
    (hc : CoversFragment t v) : CoversFragment u v := by
  obtain ⟨-, hi, hf, hd, -, hdesc, hcom⟩ := appearance_type_iff.1 h
  exact
    { interfaces := hi ▸ hc.interfaces
      directives := fun s hs => (directivesSay_congr hd).1 (hc.directives s hs)
      descriptions := hdesc ▸ hc.descriptions
      comments := hcom ▸ hc.comments
      fields := fun f hmem => (hc.fields f hmem).congr hf }

theorem CoversFragment.replay {t u : TypeDefinition} (ht : normalize t = t) (hu : normalize u = u)
    (hc : CoversFragment t u) : ∃ v, t.fold u = .ok v ∧ appearance v = appearance t := by
  obtain ⟨fields, hf, hsame⟩ :=
    (@replays_insertKeyed Field _ _ _ _ .field (fieldLabel t.name)).replay_foldlM
      (normalize_fields ht) (normalize_fields hu) hc.fields
  refine ⟨_, fold_eq_ok_iff.2 ⟨fields, hf, rfl⟩, appearance_type_iff.2 ⟨rfl, ?_, hsame, ?_, rfl, ?_,
    ?_⟩⟩
  · exact uniteNames_of_subset hc.interfaces
  · exact skeletons_mergeDirectives_of_says
      (distinctNames_of_combineRepeated (congrArg TypeDefinition.directives ht)) hc.directives
  · exact (List.head?_append ..).trans hc.descriptions
  · exact (List.head?_append ..).trans hc.comments

theorem fold_congr {t t' u v : TypeDefinition} (ht : normalize t = t) (ht' : normalize t' = t')
    (hu : normalize u = u) (h : appearance t = appearance t') (hv : t.fold u = .ok v) :
    ∃ v', t'.fold u = .ok v' ∧ appearance v = appearance v' := by
  obtain ⟨hname, hi, hf, hd, he, hdesc, hcom⟩ := appearance_type_iff.1 h
  obtain ⟨fields, hfields, rfl⟩ := fold_eq_ok_iff.1 hv
  obtain ⟨fields', hfields', hsame⟩ := replays_insertKeyed.congr_foldlM (normalize_fields ht)
    (normalize_fields ht') (normalize_fields hu) hf hfields
  refine ⟨_, fold_eq_ok_iff.2 ⟨fields', hname ▸ hfields', rfl⟩,
    appearance_type_iff.2 ⟨hname, ?_, hsame, skeletons_mergeDirectives_congr _ hd, he, ?_, ?_⟩⟩
  · simp only [TypeDefinition.addFragment, hi]
  · simp only [TypeDefinition.addFragment, List.head?_append, hdesc]
  · simp only [TypeDefinition.addFragment, List.head?_append, hcom]

theorem replays_fold :
    Replays TypeDefinition.fold (fun t => normalize t = t) (fun t => normalize t = t) appearance
      CoversFragment where
  keeps hs ha h := by
    obtain ⟨fields, hf, rfl⟩ := fold_eq_ok_iff.1 h
    exact normalize_addFragment hs
      (normalize_of_mem_uniteFields hf (normalize_fields hs) (normalize_fields ha))
  covers_step hs ha h := by
    obtain ⟨fields, hf, rfl⟩ := fold_eq_ok_iff.1 h
    exact coversFragment_addFragment hs ha hf
  covers_mono hs ha h hc := by
    obtain ⟨fields, hf, rfl⟩ := fold_eq_ok_iff.1 h
    exact hc.addFragment hs ha hf
  covers_congr := CoversFragment.congr
  replay hs ha hc := hc.replay hs ha
  congr hs hs' ha hlook h := fold_congr hs hs' ha hlook h

end SchemaMerge
