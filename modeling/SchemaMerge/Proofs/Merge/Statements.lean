import SchemaMerge.Proofs.Merge.Documentation

/-!
# What a folded type says

A type says which interfaces it implements, which directives it applies, with which arguments, and
which fields it declares. `Says` lists these statements without order, repetition and documentation.
A type that two have been united to says what either of them says, whether they are unified or one
is folded into the other, so a folded type says what any of its definitions and extensions says
(`says_of_mem_foldTypes`).
-/

namespace SchemaMerge

/-! ## What a type says -/

/-- Something that a type can say, with order, repetition and documentation left aside. -/
inductive Statement
  | implements (interface : String)
  | applies (directive : String)
  | passes (directive : String) (argument : DirectiveArgument)
  | declares (field : Field)

/-- What applications of directives say. -/
def DirectivesSay (directives : List Directive) : Statement → Prop
  | .applies name => ∃ d ∈ directives, d.name = name
  | .passes name argument => ∃ d ∈ directives, d.name = name ∧ argument ∈ d.arguments
  | _ => False

/-- What a type says. -/
def TypeDefinition.Says (type : TypeDefinition) (statement : Statement) : Prop :=
  (∃ interface ∈ type.interfaces, statement = .implements interface) ∨
    DirectivesSay type.directives statement ∨
    ∃ field ∈ type.fields.map skeleton, statement = .declares field

section Directives

variable {statement : Statement}

theorem mem_foldl_addArgument {into incoming : List DirectiveArgument} {a : DirectiveArgument} :
    a ∈ incoming.foldl addArgument into ↔ a ∈ into ∨ a ∈ incoming := by
  induction incoming generalizing into with
  | nil => simp
  | cons b bs ih =>
    have hb : a ∈ addArgument into b ↔ a ∈ into ∨ a = b := by
      unfold addArgument
      split
      · next hmem => exact ⟨Or.inl, fun h => h.elim id fun e => e ▸ hmem⟩
      · simp
    rw [List.foldl_cons, ih, hb, List.mem_cons, or_assoc]

theorem directivesSay_cons {d : Directive} {ds : List Directive} :
    DirectivesSay (d :: ds) statement ↔
      DirectivesSay [d] statement ∨ DirectivesSay ds statement := by
  cases statement <;> simp [DirectivesSay]

/-- A directive that absorbs another says what both say. -/
theorem directivesSay_absorb {d e : Directive} (h : d.name = e.name) :
    DirectivesSay [d.absorb e] statement ↔
      DirectivesSay [d] statement ∨ DirectivesSay [e] statement := by
  cases statement <;>
    simp [DirectivesSay, Directive.absorb, mem_foldl_addArgument, h, and_or_left]

theorem directivesSay_addDirective {ds : List Directive} {d : Directive} :
    DirectivesSay (addDirective ds d) statement ↔
      DirectivesSay ds statement ∨ DirectivesSay [d] statement := by
  induction ds with
  | nil => cases statement <;> simp [addDirective, DirectivesSay]
  | cons first rest ih =>
    unfold addDirective
    split
    · next hname =>
      rw [directivesSay_cons, directivesSay_absorb hname, @directivesSay_cons _ first rest]
      exact or_right_comm
    · rw [directivesSay_cons, ih, @directivesSay_cons _ first rest, or_assoc]

/-- **Merged directives say what either list says.** -/
theorem directivesSay_mergeDirectives {into incoming : List Directive} :
    DirectivesSay (mergeDirectives into incoming) statement ↔
      DirectivesSay into statement ∨ DirectivesSay incoming statement := by
  unfold mergeDirectives
  induction incoming generalizing into with
  | nil => cases statement <;> simp [DirectivesSay]
  | cons d ds ih =>
    rw [List.foldl_cons, ih, directivesSay_addDirective, @directivesSay_cons _ d ds, or_assoc]

/-- Directives of the same structure say the same. -/
theorem directivesSay_congr {ds es : List Directive}
    (h : ds.map Directive.skeleton = es.map Directive.skeleton) :
    DirectivesSay ds statement ↔ DirectivesSay es statement := by
  induction ds generalizing es with
  | nil =>
    obtain rfl := List.map_eq_nil_iff.1 h.symm
    rfl
  | cons d ds ih =>
    obtain ⟨e, es, rfl, he, hes⟩ := List.map_eq_cons_iff.1 h.symm
    have hde : DirectivesSay [d] statement ↔ DirectivesSay [e] statement := by
      simp only [Directive.skeleton, Directive.mk.injEq] at he
      cases statement <;> simp [DirectivesSay, he]
    rw [directivesSay_cons, hde, ih hes.symm, ← directivesSay_cons]

/-- Where names are distinct, a directive alone says which arguments are passed to it. -/
theorem directivesSay_passes_iff {directives : List Directive} (hd : DistinctNames directives)
    {d : Directive} (hmem : d ∈ directives) {a : DirectiveArgument} :
    DirectivesSay directives (.passes d.name a) ↔ a ∈ d.arguments := by
  constructor
  · rintro ⟨e, he, hname, ha⟩
    rwa [← List.inj_on_of_nodup_map hd he hmem hname]
  · exact fun ha => ⟨d, hmem, rfl, ha⟩

end Directives

/-! ## Fields put together -/

section Unifying

variable {α : Type} [Definition α] [LawfulDefinition α] {category : Category} {label : α → String}

theorem mem_skeletons_insertKeyed {merged result : List α} {item s : α}
    (hn : ∀ a ∈ merged, normalize a = a)
    (h : insertKeyed Definition.name (unifying category label) Except.ok merged item =
      .ok result) :
    s ∈ result.map skeleton ↔ s ∈ merged.map skeleton ∨ s = skeleton item := by
  induction merged generalizing result with
  | nil =>
    obtain rfl := Except.ok.inj h
    simp
  | cons first rest ih =>
    rw [List.forall_mem_cons] at hn
    rw [insertKeyed] at h
    split at h
    · obtain ⟨new, hnew, hr⟩ := except_bind_eq_ok_iff.1 h
      obtain rfl := Except.ok.inj hr
      obtain ⟨hsame, rfl⟩ := unify_eq_ok_iff.1 hnew
      rw [List.map_cons, List.map_cons, LawfulNode.skeleton_absorb hn.1 hsame, ← hsame]
      exact ⟨Or.inl, fun hs => hs.elim id fun e => e ▸ List.mem_cons_self⟩
    · obtain ⟨others, ho, hr⟩ := except_bind_eq_ok_iff.1 h
      obtain rfl := Except.ok.inj hr
      rw [List.map_cons, List.mem_cons, ih hn.2 ho, List.map_cons, List.mem_cons, or_assoc]

/-- Every structure is kept, and none is new. -/
theorem mem_skeletons_insertAll {merged items result : List α} {s : α}
    (hn : ∀ a ∈ merged, normalize a = a) (hi : ∀ a ∈ items, normalize a = a)
    (h : insertAll Definition.name (unifying category label) Except.ok merged items =
      .ok result) :
    s ∈ result.map skeleton ↔ s ∈ merged.map skeleton ∨ s ∈ items.map skeleton := by
  unfold insertAll at h
  induction items generalizing merged with
  | nil =>
    obtain rfl := Except.ok.inj h
    simp
  | cons item items ih =>
    rw [List.forall_mem_cons] at hi
    rw [List.foldlM_cons, except_bind_eq_ok_iff] at h
    obtain ⟨middle, hm, hr⟩ := h
    have hmiddle : ∀ a ∈ middle, normalize a = a :=
      forall_mem_insertKeyed (P := fun a => normalize a = a) hm hi.1
        (fun ha hb => Except.ok.inj hb ▸ ha)
        (fun ha hb hc => (unify_eq_ok_iff.1 hc).2 ▸ LawfulNode.normalize_absorb ha hb) hn
    rw [ih hmiddle hi.2 hr, mem_skeletons_insertKeyed hn hm, List.map_cons, List.mem_cons, or_assoc]

end Unifying

/-! ## Folded types -/

section Types

variable {roots : List String} {types result : List TypeDefinition} {statement : Statement}

theorem says_congr {t u : TypeDefinition} (h : skeleton t = skeleton u) :
    t.Says statement ↔ u.Says statement := by
  have hi : t.interfaces = u.interfaces :=
    show (skeleton t).interfaces = (skeleton u).interfaces by rw [h]
  have hd : t.directives.map Directive.skeleton = u.directives.map Directive.skeleton :=
    congrArg TypeDefinition.directives h
  rw [TypeDefinition.Says, hi, directivesSay_congr hd, skeletons_fields h, ← TypeDefinition.Says]

/-- A type that takes over what another says, says what both say. -/
theorem says_addFragment {t u : TypeDefinition} {fields : List Field} (ht : normalize t = t)
    (hu : normalize u = u) (h : uniteFields t.name t.fields u.fields = .ok fields) :
    (t.addFragment u fields).Says statement ↔ t.Says statement ∨ u.Says statement := by
  have hfields (s : Field) :
      s ∈ fields.map skeleton ↔ s ∈ t.fields.map skeleton ∨ s ∈ u.fields.map skeleton :=
    mem_skeletons_insertAll (normalize_fields ht) (normalize_fields hu) h
  simp only [TypeDefinition.Says, TypeDefinition.addFragment, mem_uniteNames,
    directivesSay_mergeDirectives, hfields, or_and_right, exists_or]
  exact (or_congr_right or_or_or_comm).trans or_or_or_comm

/-- **A united type says what either of the two says**, whether they are unified or folded. -/
theorem says_unite {t u v : TypeDefinition} (ht : normalize t = t) (hu : normalize u = u)
    (h : t.unite roots u = .ok v) :
    normalize v = v ∧ (v.Says statement ↔ t.Says statement ∨ u.Says statement) := by
  unfold TypeDefinition.unite at h
  split at h
  · obtain ⟨fields, hf, rfl⟩ := fold_eq_ok_iff.1 h
    exact ⟨normalize_addFragment ht (normalize_of_mem_uniteFields hf (normalize_fields ht)
      (normalize_fields hu)), says_addFragment ht hu hf⟩
  · obtain ⟨hsame, rfl⟩ := unify_eq_ok_iff.1 h
    refine ⟨LawfulNode.normalize_absorb ht hu, ?_⟩
    rw [says_congr (LawfulNode.skeleton_absorb ht hsame), ← says_congr hsame, or_self]

/-- A type that others are united with, one by one, says what all say. -/
theorem says_foldlM {items : List TypeDefinition} {start t : TypeDefinition}
    (hstart : normalize start = start) (hitems : ∀ u ∈ items, normalize u = u)
    (h : items.foldlM (TypeDefinition.unite roots) start = .ok t) :
    t.Says statement ↔ start.Says statement ∨ ∃ u ∈ items, u.Says statement := by
  induction items generalizing start with
  | nil =>
    obtain rfl := Except.ok.inj h
    simp
  | cons u items ih =>
    rw [List.forall_mem_cons] at hitems
    rw [List.foldlM_cons, except_bind_eq_ok_iff] at h
    obtain ⟨middle, hm, hr⟩ := h
    obtain ⟨hmiddle, hsays⟩ := says_unite hstart hitems.1 hm
    rw [ih hmiddle hitems.2 hr, hsays, List.exists_mem_cons_iff, or_assoc]

theorem says_of_combined {items : List TypeDefinition} {t : TypeDefinition}
    (hitems : ∀ u ∈ items, normalize u = u)
    (h : Combined (TypeDefinition.unite roots) TypeDefinition.asBase items t) :
    t.Says statement ↔ ∃ u ∈ items, u.Says statement := by
  cases items with
  | nil => exact h.elim
  | cons first others =>
    rw [List.forall_mem_cons] at hitems
    obtain ⟨start, hs, hr⟩ := h
    obtain ⟨-, rfl⟩ := asBase_eq_ok_iff.1 hs
    rw [says_foldlM hitems.1 hitems.2 hr, List.exists_mem_cons_iff]

/-- A folded type says what the types of its name say. -/
theorem says_of_mem_foldTypes (h : foldTypes roots types = .ok result) {t : TypeDefinition}
    (ht : t ∈ result) :
    t.Says statement ↔ ∃ d ∈ types, d.name = t.name ∧ (normalize d).Says statement := by
  rw [foldTypes_eq_insertAll] at h
  have hc := combined_of_mem_insertAll keepsKey_unite h ht
  rw [itemsOf_append] at hc
  have hn : ∀ u ∈ groupOf t.name types, normalize u = u := by
    intro u hu
    obtain ⟨d, -, -, rfl⟩ := mem_groupOf.1 hu
    exact LawfulNode.normalize_normalize d
  rw [says_of_combined hn hc]
  constructor
  · rintro ⟨u, hu, hsays⟩
    obtain ⟨d, hd, hname, rfl⟩ := mem_groupOf.1 hu
    exact ⟨d, hd, hname, hsays⟩
  · rintro ⟨d, hd, hname, hsays⟩
    exact ⟨_, mem_groupOf.2 ⟨d, hd, hname, rfl⟩, hsays⟩

end Types

end SchemaMerge
