import SchemaMerge.Merge.Types
import SchemaMerge.Proofs.Merge.Deduplicate

/-!
# Folded types

The fields that a type has after folding are those of all its fragments put into one list, so
folding fails exactly where two fields of one name disagree (`foldlM_fold_isOk_iff`). All that a
type becomes is decided by its definitions and extensions, and `foldTypes_isOk_iff` says when they
fit together: there is a definition to extend, definitions of a type that is no root type have the
same structure, and fields of one name agree.
-/

namespace SchemaMerge

/-! ## Uniting fields -/

/-- The name of a field in a conflict. -/
abbrev fieldLabel (type : String) (field : Field) : String := type ++ "." ++ field.name

theorem uniteFields_eq_insertAll (type : String) (fields incoming : List Field) :
    uniteFields type fields incoming =
      insertAll Definition.name (unifying .field (fieldLabel type)) .ok fields incoming := rfl

theorem insertAll_append {α : Type} {key : α → String}
    {combine : α → α → Except Diagnostic α} {fresh : α → Except Diagnostic α}
    (merged items others : List α) :
    insertAll key combine fresh merged (items ++ others) =
      insertAll key combine fresh merged items >>= fun all =>
        insertAll key combine fresh all others := by
  simp [insertAll]

/-- Normal fields unite to normal fields. -/
theorem normalize_of_mem_uniteFields {type : String} {fields incoming result : List Field}
    (h : uniteFields type fields incoming = .ok result) (hfields : ∀ f ∈ fields, normalize f = f)
    (hincoming : ∀ f ∈ incoming, normalize f = f) : ∀ f ∈ result, normalize f = f := by
  refine forall_mem_insertAll h hincoming ?_ ?_ hfields
  · rintro a b ha hb
    exact Except.ok.inj hb ▸ ha
  · rintro a b c ha hb hc
    exact (unify_eq_ok_iff.1 hc).2 ▸ LawfulNode.normalize_absorb ha hb

/-- No field of a type is defined twice. -/
def TypeDefinition.DistinctFields (type : TypeDefinition) : Prop :=
  (type.fields.map Field.name).Nodup

theorem TypeDefinition.DistinctFields.normalize {type : TypeDefinition} (h : type.DistinctFields) :
    (Node.normalize type).DistinctFields := by
  have hnames : (type.fields.map Node.normalize).map Field.name = type.fields.map Field.name := by
    rw [List.map_map]
    rfl
  exact show ((type.fields.map Node.normalize).map Field.name).Nodup from hnames ▸ h

/-- Fields can be put together exactly when those of one name agree. -/
theorem uniteFields_isOk_iff {type : String} {fields incoming : List Field}
    (hd : (fields.map Field.name).Nodup) (hn : ∀ f ∈ fields ++ incoming, normalize f = f) :
    (∃ result, uniteFields type fields incoming = .ok result) ↔ Agree (fields ++ incoming) := by
  have hfields : insertAll Definition.name (unifying .field (fieldLabel type)) .ok [] fields =
      .ok fields := insertAll_of_nodup hd fun _ _ => rfl
  rw [← @insertAll_unifying_isOk_iff Field _ _ .field (fieldLabel type) _ _ hn,
    insertAll_append, hfields]
  rfl

/-! ## Folding fragments -/

/-- The base with what a fragment adds, given the fields of both. -/
def TypeDefinition.addFragment (base fragment : TypeDefinition) (fields : List Field) :
    TypeDefinition :=
  { base with
    interfaces := uniteNames base.interfaces fragment.interfaces
    directives := mergeDirectives base.directives fragment.directives
    fields
    descriptions := base.descriptions ++ fragment.descriptions
    comments := base.comments ++ fragment.comments }

theorem fold_eq_bind (base fragment : TypeDefinition) :
    base.fold fragment = uniteFields base.name base.fields fragment.fields >>= fun fields =>
      .ok (base.addFragment fragment fields) := rfl

/-- Folding fails with the fields and with nothing else. -/
theorem fold_eq_ok_iff {base fragment result : TypeDefinition} :
    base.fold fragment = .ok result ↔
      ∃ fields, uniteFields base.name base.fields fragment.fields = .ok fields ∧
        base.addFragment fragment fields = result := by
  simp only [fold_eq_bind, except_bind_eq_ok_iff, Except.ok.injEq]

/-- Folding fragments in turn succeeds when their fields can be united. -/
theorem foldlM_fold_isOk_iff {base : TypeDefinition} {fragments : List TypeDefinition} :
    (∃ result, fragments.foldlM TypeDefinition.fold base = .ok result) ↔
      ∃ fields, uniteFields base.name base.fields (fragments.flatMap TypeDefinition.fields) =
        .ok fields := by
  induction fragments generalizing base with
  | nil => exact ⟨fun _ => ⟨base.fields, rfl⟩, fun _ => ⟨base, rfl⟩⟩
  | cons fragment fragments ih =>
    simp only [List.foldlM_cons, except_bind_eq_ok_iff, fold_eq_ok_iff, List.flatMap_cons,
      uniteFields_eq_insertAll, insertAll_append] at ih ⊢
    constructor
    · rintro ⟨result, _, ⟨fields, hf, rfl⟩, hr⟩
      obtain ⟨all, hall⟩ := ih.1 ⟨result, hr⟩
      exact ⟨all, fields, hf, hall⟩
    · rintro ⟨all, fields, hf, hall⟩
      obtain ⟨result, hr⟩ := (@ih (base.addFragment fragment fields)).2 ⟨all, hall⟩
      exact ⟨result, _, ⟨fields, hf, rfl⟩, hr⟩

@[simp] theorem TypeDefinition.name_normalize (t : TypeDefinition) : (normalize t).name = t.name :=
  rfl

@[simp] theorem TypeDefinition.isExtension_normalize (t : TypeDefinition) :
    (normalize t).isExtension = t.isExtension := rfl

/-! ## The definitions and extensions of one type -/

section Group

variable {roots : List String}

theorem normalize_fields {type : TypeDefinition} (h : normalize type = type) :
    ∀ f ∈ type.fields, normalize f = f :=
  map_normalize_eq_self_iff.1 (congrArg TypeDefinition.fields h)

theorem unite_of_extension {base definition : TypeDefinition} (h : definition.isExtension = true) :
    base.unite roots definition = base.fold definition := by
  simp [TypeDefinition.unite, h]

theorem unite_of_root {base definition : TypeDefinition} (h : definition.name ∈ roots) :
    base.unite roots definition = base.fold definition := by
  simp [TypeDefinition.unite, h]

/-- A second definition of a type that serves no operation is compared with the first and absorbed.
-/
theorem unite_of_base {base definition : TypeDefinition} (he : definition.isExtension = false)
    (hr : definition.name ∉ roots) :
    base.unite roots definition = unifying .type TypeDefinition.name base definition := by
  simp [TypeDefinition.unite, he, hr]

/-- An extension cannot stand alone. -/
theorem asBase_eq_ok_iff {definition result : TypeDefinition} :
    definition.asBase = .ok result ↔ definition.isExtension = false ∧ definition = result := by
  unfold TypeDefinition.asBase
  cases definition.isExtension <;> simp

theorem keepsKey_unite : KeepsKey TypeDefinition.name (TypeDefinition.unite roots)
    TypeDefinition.asBase where
  fresh h := by rw [(asBase_eq_ok_iff.1 h).2]
  combine {a b c} h := by
    unfold TypeDefinition.unite at h
    split at h
    · obtain ⟨fields, -, rfl⟩ := fold_eq_ok_iff.1 h
      rfl
    · exact (@keepsKey_unifying TypeDefinition _ _ .type TypeDefinition.name).combine h

theorem foldlM_congr {β γ ε : Type} {f g : β → γ → Except ε β} {items : List γ}
    (h : ∀ a ∈ items, ∀ s, f s a = g s a) (start : β) :
    items.foldlM f start = items.foldlM g start := by
  induction items generalizing start with
  | nil => rfl
  | cons a items ih =>
    rw [List.forall_mem_cons] at h
    simp only [List.foldlM_cons, h.1]
    exact bind_congr fun s => ih h.2 s

theorem combined_congr {α : Type} {combine combine' : α → α → Except Diagnostic α}
    {fresh fresh' : α → Except Diagnostic α} {items : List α} {result : α}
    (hfresh : ∀ a ∈ items, fresh a = fresh' a)
    (hcombine : ∀ a ∈ items, ∀ s, combine s a = combine' s a) :
    Combined combine fresh items result ↔ Combined combine' fresh' items result := by
  cases items with
  | nil => rfl
  | cons first others =>
    rw [List.forall_mem_cons] at hfresh hcombine
    simp only [Combined, hfresh.1, foldlM_congr hcombine.2]

/-- Folding a base and fragments succeeds when all their fields of one name agree. -/
theorem foldlM_fold_isOk_iff_agree {base : TypeDefinition} {fragments : List TypeDefinition}
    (hbase : normalize base = base) (hfragments : ∀ t ∈ fragments, normalize t = t)
    (hd : base.DistinctFields) :
    (∃ result, fragments.foldlM TypeDefinition.fold base = .ok result) ↔
      Agree (base.fields ++ fragments.flatMap TypeDefinition.fields) := by
  have hn : ∀ f ∈ base.fields ++ fragments.flatMap TypeDefinition.fields, normalize f = f := by
    intro f hf
    rcases List.mem_append.1 hf with hf | hf
    · exact normalize_fields hbase f hf
    · obtain ⟨t, ht, hft⟩ := List.mem_flatMap.1 hf
      exact normalize_fields (hfragments t ht) f hft
  rw [foldlM_fold_isOk_iff, uniteFields_isOk_iff hd hn]

theorem skeletons_fields {t u : TypeDefinition} (h : skeleton t = skeleton u) :
    t.fields.map skeleton = u.fields.map skeleton := congrArg TypeDefinition.fields h

theorem TypeDefinition.DistinctFields.of_skeleton_eq {t u : TypeDefinition} (ht : t.DistinctFields)
    (h : skeleton t = skeleton u) : u.DistinctFields := by
  have hnames : t.fields.map Field.name = u.fields.map Field.name :=
    names_eq_of_skeletons_eq (skeletons_fields h)
  exact show (u.fields.map Field.name).Nodup from hnames ▸ ht

/-- Only one of several definitions of one skeleton is needed to see whether fields agree. -/
theorem agree_fields_iff {middle base : TypeDefinition} {bases extensions : List TypeDefinition}
    (hm : skeleton middle = skeleton base) (hb : ∀ t ∈ bases, skeleton t = skeleton base) :
    Agree (middle.fields ++ extensions.flatMap TypeDefinition.fields) ↔
      Agree ((base :: (bases ++ extensions)).flatMap TypeDefinition.fields) := by
  have hall : ∀ t ∈ base :: bases, t.fields.map skeleton = middle.fields.map skeleton :=
    List.forall_mem_cons.2 ⟨skeletons_fields hm.symm,
      fun t ht => skeletons_fields ((hb t ht).trans hm.symm)⟩
  constructor <;> refine Agree.of_skeletons_subset fun s hs => ?_
  · rw [← List.cons_append, List.flatMap_append, List.map_append, List.mem_append] at hs
    rw [List.map_append, List.mem_append]
    refine hs.imp_left fun hs => ?_
    obtain ⟨f, hf, rfl⟩ := List.mem_map.1 hs
    obtain ⟨t, ht, hft⟩ := List.mem_flatMap.1 hf
    exact hall t ht ▸ List.mem_map_of_mem hft
  · rw [List.map_append, List.mem_append] at hs
    rw [List.flatMap_cons, List.flatMap_append, List.map_append, List.map_append, List.mem_append,
      List.mem_append]
    exact hs.elim (fun hs => .inl (skeletons_fields hm ▸ hs)) fun hs => .inr (.inr hs)

/-- Extensions are folded into what the definitions of a type have been unified to, which has the
fields of the first of them. -/
theorem foldlM_unite_isOk_iff {base : TypeDefinition} {bases extensions : List TypeDefinition}
    (hn : ∀ t ∈ base :: (bases ++ extensions), normalize t = t) (hd : base.DistinctFields)
    (hbases : ∀ t ∈ bases, t.isExtension = false ∧ t.name ∉ roots)
    (hextensions : ∀ t ∈ extensions, t.isExtension = true) :
    (∃ result, (bases ++ extensions).foldlM (TypeDefinition.unite roots) base = .ok result) ↔
      (∀ t ∈ bases, skeleton t = skeleton base) ∧
        Agree ((base :: (bases ++ extensions)).flatMap TypeDefinition.fields) := by
  obtain ⟨hbase, hrest⟩ := List.forall_mem_cons.1 hn
  obtain ⟨hnb, hne⟩ := List.forall_mem_append.1 hrest
  have hiff := @foldlM_unifying_isOk_iff TypeDefinition _ _ .type TypeDefinition.name _ _ hbase hnb
  have hfold {middle : TypeDefinition} (hm : skeleton middle = skeleton base)
      (hnm : normalize middle = middle) (hb : ∀ t ∈ bases, skeleton t = skeleton base) :
      (∃ result, extensions.foldlM TypeDefinition.fold middle = .ok result) ↔
        Agree ((base :: (bases ++ extensions)).flatMap TypeDefinition.fields) := by
    rw [← agree_fields_iff hm hb]
    exact foldlM_fold_isOk_iff_agree hnm hne (hd.of_skeleton_eq hm.symm)
  have hunite (t : TypeDefinition) (ht : t ∈ bases) (s : TypeDefinition) :
      s.unite roots t = unifying .type TypeDefinition.name s t :=
    unite_of_base (hbases t ht).1 (hbases t ht).2
  have hextend (t : TypeDefinition) (ht : t ∈ extensions) (s : TypeDefinition) :
      s.unite roots t = s.fold t := unite_of_extension (hextensions t ht)
  simp only [List.foldlM_append, except_bind_eq_ok_iff, foldlM_congr hunite, foldlM_congr hextend]
  -- What the definitions are unified to still has the fields of the first, up to documentation.
  constructor
  · rintro ⟨result, middle, hm, hr⟩
    have hb := hiff.1 ⟨middle, hm⟩
    obtain ⟨hs, hnm⟩ := skeleton_foldlM_unifying hbase hnb hm
    exact ⟨hb, (hfold hs hnm hb).1 ⟨result, hr⟩⟩
  · rintro ⟨hb, hagree⟩
    obtain ⟨middle, hm⟩ := hiff.2 hb
    obtain ⟨hs, hnm⟩ := skeleton_foldlM_unifying hbase hnb hm
    obtain ⟨result, hr⟩ := (hfold hs hnm hb).2 hagree
    exact ⟨result, middle, hm, hr⟩

/-- Definitions of a type and its extensions, all in normal form, can be put together exactly when
there is a definition, the definitions say the same unless the type is a root type, and the fields
agree. -/
theorem exists_combined_unite_iff {k : String} {bases extensions : List TypeDefinition}
    (hn : ∀ t ∈ bases ++ extensions, normalize t = t) (hk : ∀ t ∈ bases, t.name = k)
    (hd : ∀ t ∈ bases, t.DistinctFields) (hbases : ∀ t ∈ bases, t.isExtension = false)
    (hextensions : ∀ t ∈ extensions, t.isExtension = true) :
    (∃ result, Combined (TypeDefinition.unite roots) TypeDefinition.asBase (bases ++ extensions)
        result) ↔
      bases ≠ [] ∧ (k ∉ roots → ∀ a ∈ bases, ∀ b ∈ bases, skeleton a = skeleton b) ∧
        Agree ((bases ++ extensions).flatMap TypeDefinition.fields) := by
  cases bases with
  | nil =>
    cases extensions with
    | nil => simp [Combined]
    | cons first others =>
      simp [Combined, TypeDefinition.asBase, hextensions first List.mem_cons_self]
  | cons base bases =>
    obtain ⟨hbase, hrest⟩ := List.forall_mem_cons.1 hbases
    obtain ⟨hkbase, hkrest⟩ := List.forall_mem_cons.1 hk
    have hdbase := hd base List.mem_cons_self
    have hstart : base.asBase = .ok base := asBase_eq_ok_iff.2 ⟨hbase, rfl⟩
    simp only [Combined, List.cons_append, hstart, Except.ok.injEq, exists_eq_left', ne_eq,
      reduceCtorEq, not_false_eq_true, true_and]
    by_cases hr : k ∈ roots
    · have hfold : ∀ t ∈ bases ++ extensions, ∀ s, TypeDefinition.unite roots s t = s.fold t := by
        intro t ht s
        rcases List.mem_append.1 ht with ht | ht
        · exact unite_of_root (hkrest t ht ▸ hr)
        · exact unite_of_extension (hextensions t ht)
      rw [List.cons_append, List.forall_mem_cons] at hn
      rw [foldlM_congr hfold, foldlM_fold_isOk_iff_agree hn.1 hn.2 hdbase]
      simp [hr]
    · have hunify : ∀ t ∈ bases, t.isExtension = false ∧ t.name ∉ roots := fun t ht =>
        ⟨hrest t ht, hkrest t ht ▸ hr⟩
      rw [foldlM_unite_isOk_iff hn hdbase hunify hextensions, forall_eq_first_iff]
      simp [hr]

end Group

/-! ## All types -/

/-- What definitions and extensions of types need for folding, given which types are root types. -/
structure TypesFit (root : String → Prop) (types : List TypeDefinition) : Prop where
  extensions : ∀ e ∈ types, e.isExtension = true →
    ∃ t ∈ types, t.isExtension = false ∧ t.name = e.name
  definitions : ∀ t ∈ types, ∀ u ∈ types, t.isExtension = false → u.isExtension = false →
    t.name = u.name → ¬root t.name → sameStructure (normalize t) (normalize u) = true
  fields : ∀ t ∈ types, ∀ u ∈ types, t.name = u.name → ∀ f ∈ t.fields, ∀ g ∈ u.fields,
    f.name = g.name → sameStructure (normalize f) (normalize g) = true

/-- The types that are no extensions, in normal form. -/
def basesOf (types : List TypeDefinition) : List TypeDefinition :=
  (types.filter fun type => !type.isExtension).map normalize

/-- The extensions in normal form. -/
def extensionsOf (types : List TypeDefinition) : List TypeDefinition :=
  (types.filter TypeDefinition.isExtension).map normalize

/-- Bases go in before extensions, so an extension meets its type wherever it stands. -/
theorem foldTypes_eq_insertAll (roots : List String) (types : List TypeDefinition) :
    foldTypes roots types =
      insertAll TypeDefinition.name (TypeDefinition.unite roots) TypeDefinition.asBase []
        (basesOf types ++ extensionsOf types) := by
  simp only [foldTypes, insertAll, basesOf, extensionsOf, ← List.map_append, List.foldlM_map,
    List.partition_eq_filter_filter]
  rfl

theorem mem_itemsOf_bases {types : List TypeDefinition} {k : String} {t : TypeDefinition} :
    t ∈ itemsOf TypeDefinition.name k (basesOf types) ↔
      ∃ d ∈ types, d.isExtension = false ∧ d.name = k ∧ normalize d = t := by
  simp only [mem_itemsOf, basesOf, List.mem_map, List.mem_filter, Bool.not_eq_true']
  constructor
  · rintro ⟨⟨d, ⟨hd, he⟩, rfl⟩, hk⟩
    exact ⟨d, hd, he, hk, rfl⟩
  · rintro ⟨d, hd, he, hk, rfl⟩
    exact ⟨⟨d, ⟨hd, he⟩, rfl⟩, hk⟩

theorem mem_itemsOf_extensions {types : List TypeDefinition} {k : String} {t : TypeDefinition} :
    t ∈ itemsOf TypeDefinition.name k (extensionsOf types) ↔
      ∃ d ∈ types, d.isExtension = true ∧ d.name = k ∧ normalize d = t := by
  simp only [mem_itemsOf, extensionsOf, List.mem_map, List.mem_filter]
  constructor
  · rintro ⟨⟨d, ⟨hd, he⟩, rfl⟩, hk⟩
    exact ⟨d, hd, he, hk, rfl⟩
  · rintro ⟨d, hd, he, hk, rfl⟩
    exact ⟨⟨d, ⟨hd, he⟩, rfl⟩, hk⟩

/-- The definitions of a name before its extensions. -/
abbrev groupOf (k : String) (types : List TypeDefinition) : List TypeDefinition :=
  itemsOf TypeDefinition.name k (basesOf types) ++
    itemsOf TypeDefinition.name k (extensionsOf types)

theorem mem_groupOf {types : List TypeDefinition} {k : String} {t : TypeDefinition} :
    t ∈ groupOf k types ↔ ∃ d ∈ types, d.name = k ∧ normalize d = t := by
  rw [List.mem_append, mem_itemsOf_bases, mem_itemsOf_extensions]
  constructor
  · rintro (⟨d, hd, -, hk⟩ | ⟨d, hd, -, hk⟩) <;> exact ⟨d, hd, hk⟩
  · rintro ⟨d, hd, hk⟩
    cases he : d.isExtension
    · exact .inl ⟨d, hd, he, hk⟩
    · exact .inr ⟨d, hd, he, hk⟩

/-- The types of one name fold if there is a base, the bases are the same unless they serve an
operation, and the fields agree. -/
theorem exists_combined_groupOf_iff {roots : List String} {types : List TypeDefinition}
    (hd : ∀ t ∈ types, t.DistinctFields) (k : String) :
    (∃ result, Combined (TypeDefinition.unite roots) TypeDefinition.asBase (groupOf k types)
        result) ↔
      itemsOf TypeDefinition.name k (basesOf types) ≠ [] ∧
        (k ∉ roots → ∀ t ∈ itemsOf TypeDefinition.name k (basesOf types),
          ∀ u ∈ itemsOf TypeDefinition.name k (basesOf types), skeleton t = skeleton u) ∧
        Agree ((groupOf k types).flatMap TypeDefinition.fields) := by
  apply exists_combined_unite_iff
  · intro t ht
    obtain ⟨d, -, -, rfl⟩ := mem_groupOf.1 ht
    exact LawfulNode.normalize_normalize d
  · intro t ht
    obtain ⟨d, -, -, hk, rfl⟩ := mem_itemsOf_bases.1 ht
    exact hk
  · intro t ht
    obtain ⟨d, hmem, -, -, rfl⟩ := mem_itemsOf_bases.1 ht
    have hnames : (d.fields.map normalize).map Field.name = d.fields.map Field.name := by
      rw [List.map_map]
      rfl
    exact show ((d.fields.map normalize).map Field.name).Nodup from hnames ▸ hd d hmem
  · intro t ht
    obtain ⟨d, -, he, -, rfl⟩ := mem_itemsOf_bases.1 ht
    exact he
  · intro t ht
    obtain ⟨d, -, he, -, rfl⟩ := mem_itemsOf_extensions.1 ht
    exact he

theorem mem_keysOf_types {types : List TypeDefinition} {k : String} :
    k ∈ keysOf TypeDefinition.name (basesOf types ++ extensionsOf types) ↔
      ∃ d ∈ types, d.name = k := by
  rw [mem_keysOf]
  constructor
  · rintro ⟨t, ht, rfl⟩
    obtain ⟨d, hd, hk, -⟩ := mem_groupOf.1 (itemsOf_append .. ▸ mem_itemsOf.2 ⟨ht, rfl⟩)
    exact ⟨d, hd, hk⟩
  · rintro ⟨d, hd, rfl⟩
    have hgroup := mem_groupOf.2 ⟨d, hd, rfl, rfl⟩
    rw [groupOf, ← itemsOf_append, mem_itemsOf] at hgroup
    exact ⟨_, hgroup⟩

/-- The fields to be united are the normal forms of those of all types of the name. -/
theorem mem_fields_groupOf {types : List TypeDefinition} {k : String} {f : Field} :
    f ∈ (groupOf k types).flatMap TypeDefinition.fields ↔
      ∃ t ∈ types, t.name = k ∧ ∃ a ∈ t.fields, normalize a = f := by
  rw [List.mem_flatMap]
  constructor
  · rintro ⟨_, ht, hf⟩
    obtain ⟨t, hmem, hk, rfl⟩ := mem_groupOf.1 ht
    exact ⟨t, hmem, hk, List.mem_map.1 hf⟩
  · rintro ⟨t, hmem, hk, a, ha, rfl⟩
    exact ⟨normalize t, mem_groupOf.2 ⟨t, hmem, hk, rfl⟩, List.mem_map_of_mem ha⟩

/-- **Types can be folded exactly when they fit together.** -/
theorem foldTypes_isOk_iff {roots : List String} {types : List TypeDefinition}
    (hd : ∀ t ∈ types, t.DistinctFields) :
    (∃ result, foldTypes roots types = .ok result) ↔ TypesFit (· ∈ roots) types := by
  simp only [foldTypes_eq_insertAll, insertAll_isOk_iff keepsKey_unite, itemsOf_append,
    exists_combined_groupOf_iff hd]
  constructor
  · intro h
    have hgroup {t : TypeDefinition} (ht : t ∈ types) := h t.name (mem_keysOf_types.2 ⟨t, ht, rfl⟩)
    refine ⟨fun e he _ => ?_, fun t ht u hu hte hue hname hroot => ?_,
      fun t ht u hu hname f hf g hg hfg => ?_⟩
    · obtain ⟨b, hb⟩ := List.exists_mem_of_ne_nil _ (hgroup he).1
      obtain ⟨d, hd, hde, hk, -⟩ := mem_itemsOf_bases.1 hb
      exact ⟨d, hd, hde, hk⟩
    · rw [sameStructure_iff]
      exact (hgroup ht).2.1 hroot _ (mem_itemsOf_bases.2 ⟨t, ht, hte, rfl, rfl⟩) _
        (mem_itemsOf_bases.2 ⟨u, hu, hue, hname.symm, rfl⟩)
    · rw [sameStructure_iff]
      exact (hgroup ht).2.2 _ (mem_fields_groupOf.2 ⟨t, ht, rfl, f, hf, rfl⟩) _
        (mem_fields_groupOf.2 ⟨u, hu, hname.symm, g, hg, rfl⟩) hfg
  · intro h k hk
    obtain ⟨d, hdmem, rfl⟩ := mem_keysOf_types.1 hk
    refine ⟨?_, fun hroot t ht u hu => ?_, fun f hf g hg hfg => ?_⟩
    · cases he : d.isExtension with
      | false => exact List.ne_nil_of_mem (mem_itemsOf_bases.2 ⟨d, hdmem, he, rfl, rfl⟩)
      | true =>
        obtain ⟨b, hb, hbe, hname⟩ := h.extensions d hdmem he
        exact List.ne_nil_of_mem (mem_itemsOf_bases.2 ⟨b, hb, hbe, hname, rfl⟩)
    · obtain ⟨t, htmem, hte, htn, rfl⟩ := mem_itemsOf_bases.1 ht
      obtain ⟨u, humem, hue, hun, rfl⟩ := mem_itemsOf_bases.1 hu
      rw [← sameStructure_iff]
      exact h.definitions t htmem u humem hte hue (htn.trans hun.symm) (htn ▸ hroot)
    · obtain ⟨t, ht, htn, a, ha, rfl⟩ := mem_fields_groupOf.1 hf
      obtain ⟨u, hu, hun, b, hb, rfl⟩ := mem_fields_groupOf.1 hg
      rw [← sameStructure_iff]
      exact h.fields t ht u hu (htn.trans hun.symm) a ha b hb hfg

/-! ## What holds of every result -/

/-- Each type stands once in the result. -/
theorem names_nodup_of_foldTypes {roots : List String} {types result : List TypeDefinition}
    (h : foldTypes roots types = .ok result) : (result.map TypeDefinition.name).Nodup := by
  rw [foldTypes_eq_insertAll] at h
  rw [keys_of_insertAll keepsKey_unite h]
  exact nodup_keysOf _

/-- No extension is left. -/
theorem isExtension_of_foldTypes {roots : List String} {types result : List TypeDefinition}
    (h : foldTypes roots types = .ok result) : ∀ t ∈ result, t.isExtension = false := by
  rw [foldTypes_eq_insertAll] at h
  refine forall_mem_insertAll h (P := fun _ => True) (by simp) ?_ ?_ (by simp)
  · rintro a b - hb
    obtain ⟨he, rfl⟩ := asBase_eq_ok_iff.1 hb
    exact he
  · rintro a b c ha - hc
    unfold TypeDefinition.unite at hc
    split at hc
    · obtain ⟨fields, -, rfl⟩ := fold_eq_ok_iff.1 hc
      exact ha
    · exact (unify_eq_ok_iff.1 hc).2 ▸ ha

/-- A property of types that normal forms have, and that unifying and folding keep, is one of the
result. -/
theorem forall_mem_foldTypes {P : TypeDefinition → Prop} {roots : List String}
    {types result : List TypeDefinition} (h : foldTypes roots types = .ok result)
    (hnormalize : ∀ t ∈ types, P (normalize t))
    (habsorb : ∀ {t u}, P t → P u → P (absorb t u))
    (hfold : ∀ {t u fields}, P t → P u → uniteFields t.name t.fields u.fields = .ok fields →
      P (t.addFragment u fields)) : ∀ t ∈ result, P t := by
  rw [foldTypes_eq_insertAll] at h
  refine forall_mem_insertAll h (P := P) ?_ ?_ ?_ (by simp)
  · intro t ht
    rw [basesOf, extensionsOf, ← List.map_append, List.mem_map] at ht
    obtain ⟨d, hd, rfl⟩ := ht
    refine hnormalize d ?_
    rcases List.mem_append.1 hd with hd | hd <;> exact (List.mem_filter.1 hd).1
  · rintro a b ha hb
    obtain ⟨-, rfl⟩ := asBase_eq_ok_iff.1 hb
    exact ha
  · rintro a b c ha hb hc
    unfold TypeDefinition.unite at hc
    split at hc
    · obtain ⟨fields, hf, rfl⟩ := fold_eq_ok_iff.1 hc
      exact hfold ha hb hf
    · exact (unify_eq_ok_iff.1 hc).2 ▸ habsorb ha hb

theorem normalize_addFragment {t u : TypeDefinition} {fields : List Field}
    (ht : normalize t = t) (hfields : ∀ f ∈ fields, normalize f = f) :
    normalize (t.addFragment u fields) = t.addFragment u fields := by
  have hd : combineRepeated t.directives = t.directives := congrArg TypeDefinition.directives ht
  show { t.addFragment u fields with
    fields := fields.map normalize
    directives := combineRepeated (mergeDirectives t.directives u.directives) } = _
  rw [map_normalize_eq_self_iff.2 hfields, combineRepeated_mergeDirectives hd]
  rfl

theorem normalize_of_mem_foldTypes {roots : List String} {types result : List TypeDefinition}
    (h : foldTypes roots types = .ok result) : ∀ t ∈ result, normalize t = t :=
  forall_mem_foldTypes h (fun t _ => LawfulNode.normalize_normalize t)
    (fun ht hu => LawfulNode.normalize_absorb ht hu) fun ht hu hf =>
      normalize_addFragment ht
        (normalize_of_mem_uniteFields hf (normalize_fields ht) (normalize_fields hu))

/-- Definitions of different names in normal form are left as they are. -/
theorem foldTypes_of_nodup {roots : List String} {types : List TypeDefinition}
    (hd : (types.map TypeDefinition.name).Nodup) (he : ∀ t ∈ types, t.isExtension = false)
    (hn : ∀ t ∈ types, normalize t = t) : foldTypes roots types = .ok types := by
  have hbases : basesOf types = types := by
    rw [basesOf, List.filter_eq_self.2 fun t ht => by simp [he t ht]]
    exact map_normalize_eq_self_iff.2 hn
  have hextensions : extensionsOf types = [] := by
    rw [extensionsOf, List.filter_eq_nil_iff.2 fun t ht => by simp [he t ht], List.map_nil]
  rw [foldTypes_eq_insertAll, hbases, hextensions, List.append_nil]
  exact insertAll_of_nodup hd fun t ht => asBase_eq_ok_iff.2 ⟨he t ht, rfl⟩

end SchemaMerge
