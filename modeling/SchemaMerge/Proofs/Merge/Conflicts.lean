import SchemaMerge.Proofs.Merge.Documents

/-!
# Conflicts that are reported are there

Merging compares a definition with what earlier ones have become, and reports the place that is kept
there. What is kept is the place of the first of them, and that one differs from the definition at
hand just as well: absorbing others changes neither its place nor its structure (`Represents`). For
the fields of a type, which fragments add to, the invariant is that each stems from a field of some
fragment (`StemFrom`).

Results:
* `definitionsClash_of_deduplicate`, `typesClash_of_foldTypes`, `blocksClash_of_reduceSchemaBlocks`:
  a report names two definitions, fields or blocks that were given and do not go together, or an
  extension of nothing.
* `clash_of_merge`: the report of a merge is that of the first part that cannot be merged.
-/

namespace SchemaMerge

open Node

/-! ## What a definition has become -/

section Represents

variable {α : Type} [Definition α] [LawfulDefinition α] {origin other a b c : α}
  {category : Category} {label : String} {e : Diagnostic}

/-- `a` is what `origin` has become by absorbing others: it keeps name, place and structure. -/
structure Represents (origin a : α) : Prop where
  span_eq : Definition.span a = Definition.span origin
  skeleton_eq : skeleton a = skeleton (normalize origin)
  normalize_eq : normalize a = a

theorem represents_normalize (origin : α) : Represents origin (normalize origin) :=
  ⟨LawfulDefinition.span_normalize origin, rfl, LawfulNode.normalize_normalize origin⟩

namespace Represents

theorem name_eq (h : Represents origin a) : Definition.name a = Definition.name origin := by
  rw [← LawfulDefinition.name_skeleton a, h.skeleton_eq, LawfulDefinition.name_skeleton,
    LawfulDefinition.name_normalize]

theorem absorb (ha : Represents origin a) (hb : normalize b = b) (h : skeleton a = skeleton b) :
    Represents origin (absorb a b) :=
  ⟨(LawfulDefinition.span_absorb a b).trans ha.span_eq,
    (LawfulNode.skeleton_absorb ha.normalize_eq h).trans ha.skeleton_eq,
    LawfulNode.normalize_absorb ha.normalize_eq hb⟩

theorem unify (ha : Represents origin a) (hb : normalize b = b)
    (h : unify category label a b = .ok c) : Represents origin c := by
  obtain ⟨hsame, rfl⟩ := unify_eq_ok_iff.1 h
  exact ha.absorb hb hsame

/-- Definitions that cannot be unified come from definitions that differ. -/
theorem of_unify_eq_error (ha : Represents origin a) (hb : Represents other b)
    (h : SchemaMerge.unify category label a b = .error e) :
    sameStructure (normalize origin) (normalize other) = false ∧
      e = .duplicateDefinition category label (Definition.span origin) (Definition.span other) := by
  unfold SchemaMerge.unify at h
  split at h
  · cases h
  · next hdiffer =>
    rw [sameStructure_iff, ha.skeleton_eq, hb.skeleton_eq, ← sameStructure_iff,
      Bool.not_eq_true] at hdiffer
    rw [← ha.span_eq, ← hb.span_eq]
    exact ⟨hdiffer, (Except.error.inj h).symm⟩

end Represents

end Represents

/-! ## Definitions of one name -/

section Definitions

variable {α : Type} [Definition α]

/-- A report on two definitions of one name, the first of that name and another, that differ in
normal form. -/
inductive DefinitionsClash (category : Category) (definitions : List α) : Diagnostic → Prop
  | intro {earlier later : α}
      (hearlier : definitions.find? (fun a => Definition.name a = Definition.name later) =
        some earlier)
      (hlater : later ∈ definitions)
      (hdiffer : sameStructure (normalize earlier) (normalize later) = false) :
      DefinitionsClash category definitions
        (.duplicateDefinition category (Definition.name later) (Definition.span earlier)
          (Definition.span later))

variable [LawfulDefinition α] {category : Category} {label : α → String}

/-- What definitions of one name are unified to represents the first of them. -/
theorem represents_of_combined {definitions : List α} {k : String} {entry : α}
    (h : Combined (unifying category label) Except.ok
      (itemsOf Definition.name k (definitions.map normalize)) entry) :
    ∃ first, definitions.find? (fun a => Definition.name a = k) = some first ∧
      Represents first entry := by
  rw [itemsOf_map_normalize] at h
  have hhead : definitions.find? (fun a => Definition.name a = k) =
      (itemsOf Definition.name k definitions).head? := (List.head?_filter ..).symm
  cases hgroup : itemsOf Definition.name k definitions with
  | nil =>
    rw [hgroup] at h
    exact h.elim
  | cons first others =>
    rw [hgroup] at h hhead
    obtain ⟨start, hs, hr⟩ := h
    obtain rfl := Except.ok.inj hs
    refine ⟨first, hhead, ?_⟩
    exact of_foldlM hr normalize_map_normalize (represents_normalize first)
      fun ha hb hc => ha.unify hb hc

theorem definitionsClash_of_deduplicate [Inhabited α] {definitions : List α} {e : Diagnostic}
    (h : deduplicate category definitions = .error e) :
    DefinitionsClash category definitions e := by
  rw [deduplicate_eq_insertAll] at h
  obtain ⟨before, later, after, state, rfl, hstate, herror⟩ := exists_of_insertAll_map_eq_error h
  rcases of_insertKeyed_eq_error herror with ⟨-, hfresh⟩ | ⟨entry, hentry, hname, hunify⟩
  · cases hfresh
  · have hcombined := combined_of_mem_insertAll keepsKey_unifying hstate hentry
    rw [hname, LawfulDefinition.name_normalize] at hcombined
    obtain ⟨first, hfirst, hrepresents⟩ := represents_of_combined hcombined
    obtain ⟨hdiffer, rfl⟩ := hrepresents.of_unify_eq_error (represents_normalize later) hunify
    rw [hname, LawfulDefinition.name_normalize]
    exact .intro (by rw [List.find?_append, hfirst, Option.some_or]) (by simp) hdiffer

end Definitions

/-! ## Fields of one type -/

section Fields

variable {origin : Field → Prop} {type : String} {fields incoming result : List Field}
  {e : Diagnostic}

/-- Each field is what one of the original fields has become. -/
def StemFrom (origin : Field → Prop) (fields : List Field) : Prop :=
  ∀ f ∈ fields, ∃ o, origin o ∧ Represents o f

theorem stemFrom_of_uniteFields (h : uniteFields type fields incoming = .ok result)
    (hfields : StemFrom origin fields) (hincoming : StemFrom origin incoming) :
    StemFrom origin result := by
  refine forall_mem_insertAll h hincoming ?_ ?_ hfields
  · rintro a b ha hb
    exact Except.ok.inj hb ▸ ha
  · rintro a b c ⟨o, ho, ha⟩ ⟨p, -, hb⟩ hc
    exact ⟨o, ho, ha.unify hb.normalize_eq hc⟩

/-- Fields that cannot be united come from two fields of one name that differ. -/
theorem exists_of_uniteFields_eq_error (h : uniteFields type fields incoming = .error e)
    (hfields : StemFrom origin fields) (hincoming : StemFrom origin incoming) :
    ∃ o p, origin o ∧ origin p ∧ o.name = p.name ∧
      sameStructure (normalize o) (normalize p) = false ∧
      e = .duplicateDefinition .field (type ++ "." ++ p.name) o.span p.span := by
  obtain ⟨before, later, after, state, rfl, hstate, herror⟩ := exists_of_insertAll_eq_error h
  obtain ⟨hbefore, hlater⟩ := List.forall_mem_append.1 hincoming
  have hstems := stemFrom_of_uniteFields hstate hfields hbefore
  rcases of_insertKeyed_eq_error herror with ⟨-, hfresh⟩ | ⟨entry, hentry, hname, hunify⟩
  · cases hfresh
  · obtain ⟨o, ho, hentry⟩ := hstems entry hentry
    obtain ⟨p, hp, hlater⟩ := hlater later List.mem_cons_self
    obtain ⟨hdiffer, rfl⟩ := hentry.of_unify_eq_error hlater hunify
    have hsame : o.name = p.name := by
      rw [← show entry.name = o.name from hentry.name_eq, hname]
      exact hlater.name_eq
    refine ⟨o, p, ho, hp, hsame, hdiffer, ?_⟩
    rw [← hsame, ← show entry.name = o.name from hentry.name_eq]
    rfl

theorem StemFrom.absorbPairwise {as bs : List Field} (has : StemFrom origin as)
    (hbs : StemFrom origin bs) (h : as.map skeleton = bs.map skeleton) :
    StemFrom origin (absorbPairwise as bs) := by
  induction as generalizing bs with
  | nil => exact has
  | cons a as ih =>
    cases bs with
    | nil => exact has
    | cons b bs =>
      obtain ⟨⟨o, ho, ha⟩, has⟩ := List.forall_mem_cons.1 has
      obtain ⟨⟨p, -, hb⟩, hbs⟩ := List.forall_mem_cons.1 hbs
      obtain ⟨hab, hrest⟩ := List.cons.inj h
      exact List.forall_mem_cons.2 ⟨⟨o, ho, ha.absorb hb.normalize_eq hab⟩, ih has hbs hrest⟩

end Fields

/-! ## Types -/

/-- The fields that types of a name have. -/
def FieldOf (types : List TypeDefinition) (name : String) (f : Field) : Prop :=
  ∃ t ∈ types, t.name = name ∧ f ∈ t.fields

/-- A report on types: on two definitions of one type or two fields of one type that differ in
normal form, or on the first extension of a type that is nowhere defined. -/
inductive TypesClash (types : List TypeDefinition) : Diagnostic → Prop
  | definitions {e : Diagnostic}
      (h : DefinitionsClash .type (types.filter fun t => !t.isExtension) e) : TypesClash types e
  | fields {type : String} {f g : Field} (hf : FieldOf types type f) (hg : FieldOf types type g)
      (hname : f.name = g.name) (hdiffer : sameStructure (normalize f) (normalize g) = false) :
      TypesClash types (.duplicateDefinition .field (type ++ "." ++ g.name) f.span g.span)
  | extension {t : TypeDefinition}
      (ht : (types.filter TypeDefinition.isExtension).find? (fun u => u.name = t.name) = some t)
      (hundefined : ∀ u ∈ types, u.name = t.name → u.isExtension = true) :
      TypesClash types (.extensionWithoutBase t.name t.span)

section Types

variable {roots : List String} {types : List TypeDefinition}

/-- The types in the order in which they are folded, definitions before extensions. -/
def foldingOrder (types : List TypeDefinition) : List TypeDefinition :=
  types.filter (fun t => !t.isExtension) ++ types.filter TypeDefinition.isExtension

theorem foldTypes_eq_insertAll_foldingOrder :
    foldTypes roots types =
      insertAll TypeDefinition.name (TypeDefinition.unite roots) TypeDefinition.asBase []
        ((foldingOrder types).map normalize) := by
  rw [foldTypes_eq_insertAll, foldingOrder, List.map_append]
  rfl

theorem mem_foldingOrder {t : TypeDefinition} : t ∈ foldingOrder types ↔ t ∈ types := by
  cases h : t.isExtension <;> simp [foldingOrder, h]

/-- Behind an extension there are only extensions. -/
theorem pairwise_foldingOrder :
    (foldingOrder types).Pairwise fun t u => t.isExtension = true → u.isExtension = true := by
  refine List.pairwise_append.2 ⟨?_, ?_, ?_⟩
  · refine List.pairwise_of_forall_mem_list fun t ht u _ he => ?_
    exact absurd he (by simpa using (List.mem_filter.1 ht).2)
  · exact List.pairwise_of_forall_mem_list fun t _ u hu _ => (List.mem_filter.1 hu).2
  · exact fun t _ u hu _ => (List.mem_filter.1 hu).2

/-- The first type that passes a test is the first definition to pass it if there is one, and else
the first extension. -/
theorem find?_foldingOrder {p : TypeDefinition → Bool} {t : TypeDefinition}
    (h : (foldingOrder types).find? p = some t) :
    (t.isExtension = false → (types.filter fun u => !u.isExtension).find? p = some t) ∧
      (t.isExtension = true → (types.filter TypeDefinition.isExtension).find? p = some t) := by
  rw [foldingOrder, List.find?_append, Option.or_eq_some_iff] at h
  rcases h with h | ⟨-, h⟩ <;> have he := (List.mem_filter.1 (List.mem_of_find?_eq_some h)).2
  · exact ⟨fun _ => h, fun ht => by simp [ht] at he⟩
  · exact ⟨fun ht => by simp [ht] at he, fun _ => h⟩

theorem stemFrom_fields_normalize {t : TypeDefinition} (ht : t ∈ types) :
    StemFrom (FieldOf types t.name) (normalize t).fields := by
  refine List.forall_mem_map.2 fun f hf => ?_
  exact ⟨f, ⟨t, ht, rfl, hf⟩, represents_normalize f⟩

theorem stemFrom_fields_of_unite {origin : Field → Prop} {t u v : TypeDefinition}
    (ht : StemFrom origin t.fields) (hu : StemFrom origin u.fields)
    (h : t.unite roots u = .ok v) : StemFrom origin v.fields := by
  unfold TypeDefinition.unite at h
  split at h
  · obtain ⟨fields, hf, rfl⟩ := fold_eq_ok_iff.1 h
    exact stemFrom_of_uniteFields hf ht hu
  · obtain ⟨hsame, rfl⟩ := unify_eq_ok_iff.1 h
    exact ht.absorbPairwise hu (skeletons_fields hsame)

/-! ### The first type that does not fit -/

section Misfit

variable {before after : List TypeDefinition} {item entry : TypeDefinition} {e : Diagnostic}

theorem mem_of_foldingOrder_eq (h : foldingOrder types = before ++ item :: after) :
    before ⊆ types ∧ item ∈ types := by
  have hall {t : TypeDefinition} (ht : t ∈ before ++ item :: after) : t ∈ types :=
    mem_foldingOrder.1 (h ▸ ht)
  exact ⟨fun t ht => hall (List.mem_append_left _ ht), hall (by simp)⟩

/-- A type of a new name does not fit if it is an extension. -/
theorem typesClash_of_asBase (horder : foldingOrder types = before ++ item :: after)
    (hnew : ∀ t ∈ before, t.name ≠ item.name) (h : (normalize item).asBase = .error e) :
    TypesClash types e := by
  unfold TypeDefinition.asBase at h
  split at h
  · next he =>
    obtain rfl := Except.error.inj h
    rw [TypeDefinition.isExtension_normalize] at he
    have hnone : before.find? (fun t => t.name = item.name) = none := by simpa using hnew
    have hfirst : (foldingOrder types).find? (fun t => t.name = item.name) = some item := by
      simp [horder, List.find?_append, hnone]
    have hbehind := (List.pairwise_append.1 (horder ▸ pairwise_foldingOrder)).2.1
    refine .extension (t := item) ((find?_foldingOrder hfirst).2 he) fun t ht hn => ?_
    rcases List.mem_append.1 (horder ▸ mem_foldingOrder.2 ht) with ht | ht
    · exact absurd hn (hnew t ht)
    · rcases List.mem_cons.1 ht with rfl | ht
      · exact he
      · exact (List.pairwise_cons.1 hbehind).1 t ht he
  · cases h

theorem stemFrom_fields_of_combined {k : String} (hbefore : before ⊆ types)
    (h : Combined (TypeDefinition.unite roots) TypeDefinition.asBase
      (itemsOf TypeDefinition.name k (before.map normalize)) entry) :
    StemFrom (FieldOf types k) entry.fields := by
  have hstem {t : TypeDefinition}
      (ht : t ∈ itemsOf TypeDefinition.name k (before.map normalize)) :
      StemFrom (FieldOf types k) t.fields := by
    obtain ⟨hmap, hk⟩ := mem_itemsOf.1 ht
    obtain ⟨d, hd, rfl⟩ := List.mem_map.1 hmap
    exact hk ▸ stemFrom_fields_normalize (hbefore hd)
  refine of_combined h (fun _ => hstem) (Q := fun t => StemFrom (FieldOf types k) t.fields) ?_ ?_
  · rintro a b ha hb
    exact (asBase_eq_ok_iff.1 hb).2 ▸ ha
  · exact fun ht hu hv => stemFrom_fields_of_unite ht hu hv

/-- A fragment does not fit if one of its fields differs from an earlier one. -/
theorem typesClash_of_fold (horder : foldingOrder types = before ++ item :: after)
    (hcombined : Combined (TypeDefinition.unite roots) TypeDefinition.asBase
      (itemsOf TypeDefinition.name item.name (before.map normalize)) entry)
    (h : entry.fold (normalize item) = .error e) : TypesClash types e := by
  obtain ⟨hbefore, hitem⟩ := mem_of_foldingOrder_eq horder
  have hname : entry.name = item.name := key_of_combined keepsKey_unite hcombined
  obtain ⟨f, g, hf, hg, hfg, hdiffer, rfl⟩ :=
    exists_of_uniteFields_eq_error (eq_error_of_bind_pure h)
      (stemFrom_fields_of_combined hbefore hcombined) (stemFrom_fields_normalize hitem)
  rw [hname]
  exact .fields hf hg hfg hdiffer

/-- Definitions of a type that is no root type are put together as definitions of other kinds. -/
theorem combined_unifying_of_combined_unite {group : List TypeDefinition}
    (hgroup : ∀ t ∈ group, t.isExtension = false ∧ t.name ∉ roots)
    (h : Combined (TypeDefinition.unite roots) TypeDefinition.asBase group entry) :
    Combined (unifying .type TypeDefinition.name) Except.ok group entry :=
  (combined_congr (fun t ht => asBase_eq_ok_iff.2 ⟨(hgroup t ht).1, rfl⟩)
    fun t ht _ => unite_of_base (hgroup t ht).1 (hgroup t ht).2).1 h

/-- A definition of a type that is no root type does not fit if it differs from the first. -/
theorem typesClash_of_unify (horder : foldingOrder types = before ++ item :: after)
    (hbase : item.isExtension = false) (hroot : item.name ∉ roots)
    (hcombined : Combined (TypeDefinition.unite roots) TypeDefinition.asBase
      (itemsOf TypeDefinition.name item.name (before.map normalize)) entry)
    (h : unify .type entry.name entry (normalize item) = .error e) : TypesClash types e := by
  have hahead := (List.pairwise_append.1 (horder ▸ pairwise_foldingOrder)).2.2
  have hgroup : ∀ t ∈ itemsOf TypeDefinition.name item.name (before.map normalize),
      t.isExtension = false ∧ t.name ∉ roots := by
    intro t ht
    obtain ⟨ht, hk⟩ := mem_itemsOf.1 ht
    obtain ⟨d, hd, rfl⟩ := List.mem_map.1 ht
    refine ⟨?_, hk ▸ hroot⟩
    simpa [hbase] using hahead d hd item List.mem_cons_self
  have hname : entry.name = item.name := key_of_combined keepsKey_unite hcombined
  obtain ⟨first, hfirst, hrepresents⟩ :=
    represents_of_combined (combined_unifying_of_combined_unite hgroup hcombined)
  obtain ⟨hdiffer, rfl⟩ := hrepresents.of_unify_eq_error (represents_normalize item) h
  have hmem := List.mem_of_find?_eq_some hfirst
  have he : first.isExtension = false := by
    simpa [hbase] using hahead first hmem item List.mem_cons_self
  have horderFirst : (foldingOrder types).find? (fun t => t.name = item.name) = some first := by
    rw [horder, List.find?_append]
    exact congrArg (Option.or · _) hfirst
  have hitem : item ∈ types.filter fun t => !t.isExtension :=
    List.mem_filter.2 ⟨(mem_of_foldingOrder_eq horder).2, by simp [hbase]⟩
  rw [hname]
  exact .definitions (.intro ((find?_foldingOrder horderFirst).1 he) hitem hdiffer)

theorem typesClash_of_foldTypes (h : foldTypes roots types = .error e) : TypesClash types e := by
  rw [foldTypes_eq_insertAll_foldingOrder] at h
  obtain ⟨before, item, after, state, horder, hstate, herror⟩ := exists_of_insertAll_map_eq_error h
  rcases of_insertKeyed_eq_error herror with ⟨hnew, hfresh⟩ | ⟨entry, hentry, hname, hunite⟩
  · rw [keys_of_insertAll keepsKey_unite hstate, mem_keysOf] at hnew
    refine typesClash_of_asBase horder (fun t ht hn => hnew ?_) hfresh
    exact ⟨normalize t, List.mem_map_of_mem ht, hn⟩
  · have hcombined := combined_of_mem_insertAll keepsKey_unite hstate hentry
    rw [hname] at hcombined
    unfold TypeDefinition.unite at hunite
    split at hunite
    · exact typesClash_of_fold horder hcombined hunite
    · next hbase =>
      obtain ⟨hbase, hroot⟩ : item.isExtension = false ∧ item.name ∉ roots := by simpa using hbase
      exact typesClash_of_unify horder hbase hroot hcombined hunite

end Misfit

end Types

/-! ## Schema blocks -/

/-- A report on two schema blocks that name different types for an operation. -/
inductive BlocksClash (blocks : List SchemaBlock) : Diagnostic → Prop
  | intro {operation : RootOperation} {earlier later : SchemaBlock} {first second : String}
      (hearlier : earlier ∈ blocks) (hlater : later ∈ blocks)
      (hfirst : earlier.rootType? operation = some first)
      (hsecond : later.rootType? operation = some second) (hdiffer : first ≠ second) :
      BlocksClash blocks
        (.rootOperationMismatch operation first second earlier.span later.span)

section SchemaBlocks

variable {blocks earlier : List SchemaBlock} {block : SchemaBlock} {e : Diagnostic}

theorem blocksClash_of_blockConflict? {operation : RootOperation}
    (h : blockConflict? earlier block operation = some e) : BlocksClash (earlier ++ [block]) e := by
  simp only [blockConflict?, Option.bind_eq_bind, Option.bind_eq_some_iff] at h
  obtain ⟨second, hsecond, ⟨origin, first⟩, hfirst, h⟩ := h
  obtain ⟨hmem, hfirst⟩ := of_firstNaming_eq_some hfirst
  split at h
  · cases h
  · next hdiffer =>
    obtain rfl := Option.some.inj h
    exact .intro (List.mem_append_left _ hmem) (by simp) hfirst hsecond hdiffer

theorem BlocksClash.mono {others : List SchemaBlock} (h : BlocksClash blocks e)
    (hsub : blocks ⊆ others) : BlocksClash others e := by
  obtain ⟨hearlier, hlater, hfirst, hsecond, hdiffer⟩ := h
  exact .intro (hsub hearlier) (hsub hlater) hfirst hsecond hdiffer

theorem blocksClash_of_firstConflict? (h : firstConflict? earlier blocks = some e) :
    BlocksClash (earlier ++ blocks) e := by
  induction blocks generalizing earlier with
  | nil => cases h
  | cons block blocks ih =>
    rw [firstConflict?] at h
    split at h
    · next hconflict =>
      obtain rfl := Option.some.inj h
      obtain ⟨operation, -, hconflict⟩ := List.exists_of_findSome?_eq_some hconflict
      exact (blocksClash_of_blockConflict? hconflict).mono (by simp)
    · simpa using ih h

theorem blocksClash_of_reduceSchemaBlocks (h : reduceSchemaBlocks blocks = .error e) :
    BlocksClash blocks e := by
  cases blocks with
  | nil => cases h
  | cons first blocks =>
    rw [reduceSchemaBlocks_cons] at h
    split at h
    · next hconflict =>
      obtain rfl := Except.error.inj h
      exact blocksClash_of_firstConflict? hconflict
    · cases h

end SchemaBlocks

/-! ## The first part that fails -/

/-- The parts of documents that are merged one after the other. -/
inductive Stage
  | schemaBlocks | directiveDefinitions | scalars | enums | interfaces | unions | inputs | types

namespace Stage

/-- The parts in the order in which they are merged. -/
def all : List Stage :=
  [.schemaBlocks, .directiveDefinitions, .scalars, .enums, .interfaces, .unions, .inputs, .types]

/-- Whether a part of documents can be merged, and if not, why. -/
def outcome (documents : List Document) : Stage → Except Diagnostic Unit
  | schemaBlocks => discard (reduceSchemaBlocks (documents.flatMap Document.schemaBlocks))
  | directiveDefinitions =>
    discard (deduplicate .directive (documents.flatMap Document.directiveDefinitions))
  | scalars => discard (deduplicate .scalar (documents.flatMap Document.scalars))
  | enums => discard (deduplicate .enum (documents.flatMap Document.enums))
  | interfaces => discard (deduplicate .interface (documents.flatMap Document.interfaces))
  | unions => discard (deduplicate .union (documents.flatMap Document.unions))
  | inputs => discard (deduplicate .input (documents.flatMap Document.inputs))
  | types => do
    let block ← reduceSchemaBlocks (documents.flatMap Document.schemaBlocks)
    discard (foldTypes (rootTypeNames block) (documents.flatMap Document.types))

/-- A report on a part of documents that names what is in conflict there. -/
def Clash (documents : List Document) : Stage → Diagnostic → Prop
  | schemaBlocks => BlocksClash (documents.flatMap Document.schemaBlocks)
  | directiveDefinitions =>
    DefinitionsClash .directive (documents.flatMap Document.directiveDefinitions)
  | scalars => DefinitionsClash .scalar (documents.flatMap Document.scalars)
  | enums => DefinitionsClash .enum (documents.flatMap Document.enums)
  | interfaces => DefinitionsClash .interface (documents.flatMap Document.interfaces)
  | unions => DefinitionsClash .union (documents.flatMap Document.unions)
  | inputs => DefinitionsClash .input (documents.flatMap Document.inputs)
  | types => TypesClash (documents.flatMap Document.types)

end Stage

section FirstFailure

variable {documents : List Document} {e : Diagnostic}

theorem discard_bind {α β : Type} {x : Except Diagnostic α} {f : α → Except Diagnostic β}
    {next : Except Diagnostic Unit} (h : ∀ a, x = .ok a → discard (f a) = next) :
    discard (x >>= f) = (discard x >>= fun _ => next) := by
  cases x with
  | error => rfl
  | ok a => exact h a rfl

/-- Merging goes through the parts in order and stops at the first that fails. -/
theorem discard_merge (documents : List Document) :
    discard (Document.merge documents) = forM Stage.all (Stage.outcome documents) := by
  simp only [Document.merge, Document.schemaBlocks_concat, Document.directiveDefinitions_concat,
    Document.scalars_concat, Document.enums_concat, Document.interfaces_concat,
    Document.unions_concat, Document.inputs_concat, Document.types_concat]
  refine discard_bind fun block hblock => ?_
  refine discard_bind fun _ _ => discard_bind fun _ _ => discard_bind fun _ _ => ?_
  refine discard_bind fun _ _ => discard_bind fun _ _ => discard_bind fun _ _ => ?_
  rw [List.forM_eq_forM, List.forM_cons, List.forM_nil, Stage.outcome, hblock]
  exact discard_bind fun _ _ => rfl

theorem exists_of_forM_eq_error {α : Type} {f : α → Except Diagnostic Unit} {items : List α}
    (h : forM items f = .error e) :
    ∃ before item after, items = before ++ item :: after ∧ (∀ a ∈ before, f a = .ok ()) ∧
      f item = .error e := by
  induction items with
  | nil => cases h
  | cons item items ih =>
    rw [List.forM_cons, except_bind_eq_error_iff] at h
    rcases h with h | ⟨⟨⟩, hitem, h⟩
    · exact ⟨[], item, items, rfl, by simp, h⟩
    · obtain ⟨before, last, after, rfl, hbefore, hlast⟩ := ih h
      exact ⟨item :: before, last, after, rfl, List.forall_mem_cons.2 ⟨hitem, hbefore⟩, hlast⟩

theorem discard_eq_error_iff {α : Type} {x : Except Diagnostic α} :
    discard x = .error e ↔ x = .error e := by
  cases x <;> simp [discard, Functor.mapConst, Except.map]

theorem clash_of_outcome {stage : Stage} (h : stage.outcome documents = .error e)
    (hblocks : stage = .types → Stage.outcome documents .schemaBlocks = .ok ()) :
    stage.Clash documents e := by
  cases stage with
  | schemaBlocks => exact blocksClash_of_reduceSchemaBlocks (discard_eq_error_iff.1 h)
  | directiveDefinitions => exact definitionsClash_of_deduplicate (discard_eq_error_iff.1 h)
  | scalars => exact definitionsClash_of_deduplicate (discard_eq_error_iff.1 h)
  | enums => exact definitionsClash_of_deduplicate (discard_eq_error_iff.1 h)
  | interfaces => exact definitionsClash_of_deduplicate (discard_eq_error_iff.1 h)
  | unions => exact definitionsClash_of_deduplicate (discard_eq_error_iff.1 h)
  | inputs => exact definitionsClash_of_deduplicate (discard_eq_error_iff.1 h)
  | types =>
    rcases except_bind_eq_error_iff.1 h with h | ⟨block, -, h⟩
    · have hok := hblocks rfl
      rw [Stage.outcome, h] at hok
      cases hok
    · exact typesClash_of_foldTypes (discard_eq_error_iff.1 h)

/-- **A conflict that is reported is there**, in the first part that fails. -/
theorem clash_of_merge (h : Document.merge documents = .error e) :
    ∃ before stage after, Stage.all = before ++ stage :: after ∧
      (∀ earlier ∈ before, earlier.outcome documents = .ok ()) ∧
      stage.outcome documents = .error e ∧ stage.Clash documents e := by
  rw [← discard_eq_error_iff, discard_merge] at h
  obtain ⟨before, stage, after, hall, hbefore, hstage⟩ := exists_of_forM_eq_error h
  refine ⟨before, stage, after, hall, hbefore, hstage, clash_of_outcome hstage ?_⟩
  rintro rfl
  cases before with
  | nil => cases hall
  | cons first before =>
    obtain ⟨rfl, -⟩ := List.cons.inj hall
    exact hbefore _ List.mem_cons_self

/-- A field that an extension in another document gives another type. -/
theorem clash_of_merge_query :
    let place := fun file => ({ (default : Span) with file } : Span)
    let query := fun file type isExtension =>
      let field := (⟨"a", [], .named type true, none, [], [], [], place file⟩ : Field)
      { Document.empty with
        types := [⟨"Query", [], [field], [], [], [], isExtension, place file⟩] }
    let documents := [query "a.graphql" "Int" false, query "b.graphql" "String" true]
    let e := Diagnostic.duplicateDefinition .field "Query.a" (place "a.graphql") (place "b.graphql")
    ∃ before stage after, Stage.all = before ++ stage :: after ∧
      (∀ earlier ∈ before, earlier.outcome documents = .ok ()) ∧
      stage.outcome documents = .error e ∧ stage.Clash documents e :=
  clash_of_merge rfl

end FirstFailure

end SchemaMerge
