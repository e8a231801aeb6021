import SchemaMerge.Proofs.Merge.Types

/-!
# What a folded type is made of

A type is folded from all definitions and extensions of its name, the definitions first. Whether one
of them is absorbed as a whole or folded in as a fragment, it adds the same (`madeOf_unite`): the
interfaces and fields that are new, at the end, and its documentation. So what a type ends with does
not depend on which of the two happens (`content_of_foldTypes`).

Fields are compared by their skeletons, since the first field of a name also takes over what the
later ones are documented with.
-/

namespace SchemaMerge

open TypeDefinition

/-! ## Fields of new names -/

/-- The fields with one more, unless there is one of its name. -/
def addField (fields : List Field) (field : Field) : List Field :=
  if field.name ∈ fields.map Field.name then fields else fields ++ [field]

/-- The fields with those of another list that are the first of a new name. -/
def addFields (fields incoming : List Field) : List Field := incoming.foldl addField fields

theorem addFields_concat (fields incoming : List Field) (field : Field) :
    addFields fields (incoming ++ [field]) = addField (addFields fields incoming) field := by
  rw [addFields, List.foldl_append]
  rfl

theorem addFields_append (fields incoming others : List Field) :
    addFields fields (incoming ++ others) = addFields (addFields fields incoming) others :=
  List.foldl_append ..

theorem addFields_of_subset {fields incoming : List Field}
    (h : incoming.map Field.name ⊆ fields.map Field.name) : addFields fields incoming = fields := by
  unfold addFields
  induction incoming with
  | nil => rfl
  | cons field incoming ih =>
    rw [List.map_cons, List.cons_subset] at h
    rw [List.foldl_cons, addField, if_pos h.1, ih h.2]

theorem names_addFields (fields incoming : List Field) :
    (addFields fields incoming).map Field.name =
      uniteNames (fields.map Field.name) (incoming.map Field.name) := by
  induction incoming using List.reverseRecOn with
  | nil => rfl
  | append_singleton incoming field ih =>
    rw [addFields_concat, addField, List.map_append, List.map_singleton, uniteNames_concat, ← ih]
    split
    · rfl
    · rw [List.map_append, List.map_singleton]

/-- A field that is added is the first of its name among those that come. -/
theorem exists_addFields_eq (fields incoming : List Field) :
    ∃ added, addFields fields incoming = fields ++ added ∧
      ∀ f ∈ added, incoming.find? (fun g => g.name = f.name) = some f := by
  induction incoming using List.reverseRecOn with
  | nil => exact ⟨[], (List.append_nil fields).symm, List.forall_mem_nil _⟩
  | append_singleton incoming field ih =>
    obtain ⟨added, heq, hadded⟩ := ih
    have hfirst : ∀ f ∈ added, (incoming ++ [field]).find? (fun g => g.name = f.name) = some f :=
      fun f hf => by rw [List.find?_append, hadded f hf, Option.some_or]
    rw [addFields_concat, addField]
    split
    · exact ⟨added, heq, hfirst⟩
    · next hnew =>
      refine ⟨added ++ [field], by rw [heq, List.append_assoc], ?_⟩
      refine List.forall_mem_append.2 ⟨hfirst, List.forall_mem_singleton.2 ?_⟩
      rw [names_addFields, mem_uniteNames, not_or] at hnew
      have hnone : incoming.find? (fun g => g.name = field.name) = none :=
        List.find?_eq_none.2 fun g hg hname =>
          hnew.2 (List.mem_map.2 ⟨g, hg, of_decide_eq_true hname⟩)
      rw [List.find?_append, hnone, Option.none_or, List.find?_singleton]
      simp

/-! ## Fields that are united -/

theorem names_skeletons (fields : List Field) :
    (fields.map skeleton).map Field.name = fields.map Field.name := by
  rw [List.map_map]
  rfl

/-- One field more changes the skeletons only if it is the first of its name. -/
theorem skeletons_insertKeyed {type : String} {fields result : List Field} {field : Field}
    (h : insertKeyed Field.name (fun earlier later =>
      unify .field (type ++ "." ++ earlier.name) earlier later) .ok fields field = .ok result)
    (hfields : ∀ f ∈ fields, normalize f = f) :
    result.map skeleton = addField (fields.map skeleton) (skeleton field) := by
  rw [addField, names_skeletons, show (skeleton field).name = field.name from rfl]
  induction fields generalizing result with
  | nil =>
    cases h
    rfl
  | cons first fields ih =>
    obtain ⟨hfirst, hrest⟩ := List.forall_mem_cons.1 hfields
    rw [insertKeyed] at h
    split at h
    · next hname =>
      obtain ⟨c, hc, hresult⟩ := except_bind_eq_ok_iff.1 h
      obtain ⟨hsame, rfl⟩ := unify_eq_ok_iff.1 hc
      cases hresult
      rw [if_pos (by simp [hname]), List.map_cons, LawfulNode.skeleton_absorb hfirst hsame,
        List.map_cons]
    · next hname =>
      obtain ⟨rest, hc, hresult⟩ := except_bind_eq_ok_iff.1 h
      cases hresult
      have hne : ¬field.name = first.name := fun he => hname he.symm
      rw [List.map_cons, ih hc hrest]
      simp only [List.map_cons, List.mem_cons, hne, false_or]
      split <;> rfl

/-- Fields that are united keep to the first of each name, up to documentation. -/
theorem skeletons_uniteFields {type : String} {fields incoming result : List Field}
    (h : uniteFields type fields incoming = .ok result) (hfields : ∀ f ∈ fields, normalize f = f)
    (hincoming : ∀ f ∈ incoming, normalize f = f) :
    result.map skeleton = addFields (fields.map skeleton) (incoming.map skeleton) := by
  induction incoming generalizing fields with
  | nil =>
    cases h
    rfl
  | cons field incoming ih =>
    rw [uniteFields, List.foldlM_cons] at h
    obtain ⟨middle, hmiddle, hresult⟩ := except_bind_eq_ok_iff.1 h
    obtain ⟨hfield, hrest⟩ := List.forall_mem_cons.1 hincoming
    have hsingle : uniteFields type fields [field] = .ok middle := by
      rw [uniteFields, List.foldlM_cons, hmiddle]
      rfl
    have hn : ∀ f ∈ middle, normalize f = f :=
      normalize_of_mem_uniteFields hsingle hfields (List.forall_mem_singleton.2 hfield)
    rw [ih hresult hn hrest, skeletons_insertKeyed hmiddle hfields]
    rfl

/-! ## Definitions that are united -/

/-- The type has what the first definition has and what the others add to it: it stands where the
first does, its interfaces and fields are those of the first and then the new ones, and it is
documented with all that the definitions are documented with. -/
structure MadeOf (first : TypeDefinition) (others : List TypeDefinition) (t : TypeDefinition) :
    Prop where
  normal : normalize t = t
  span : t.span = first.span
  isExtension : t.isExtension = first.isExtension
  interfaces : t.interfaces = uniteNames first.interfaces (others.flatMap interfaces)
  fields : t.fields.map skeleton =
    addFields (first.fields.map skeleton) ((others.flatMap TypeDefinition.fields).map skeleton)
  descriptions : t.descriptions = (first :: others).flatMap descriptions
  comments : t.comments = (first :: others).flatMap comments

theorem madeOf_self {t : TypeDefinition} (h : normalize t = t) : MadeOf t [] t where
  normal := h
  span := rfl
  isExtension := rfl
  interfaces := rfl
  fields := rfl
  descriptions := (List.append_nil _).symm
  comments := (List.append_nil _).symm

section

variable {first t u result : TypeDefinition} {others : List TypeDefinition}

theorem flatMap_concat {β : Type} (f : TypeDefinition → List β) (ts : List TypeDefinition)
    (u : TypeDefinition) : (ts ++ [u]).flatMap f = ts.flatMap f ++ f u := by
  rw [List.flatMap_append, List.flatMap_singleton]

/-- A fragment that is folded in adds what is new in it. -/
theorem MadeOf.addFragment (h : MadeOf first others t) (hu : normalize u = u)
    {fields : List Field} (hfields : uniteFields t.name t.fields u.fields = .ok fields) :
    MadeOf first (others ++ [u]) (t.addFragment u fields) where
  normal := normalize_addFragment h.normal
    (normalize_of_mem_uniteFields hfields (normalize_fields h.normal) (normalize_fields hu))
  span := h.span
  isExtension := h.isExtension
  interfaces := by
    rw [flatMap_concat, uniteNames_append, ← h.interfaces]
    rfl
  fields := by
    rw [flatMap_concat, List.map_append, addFields_append, ← h.fields]
    exact skeletons_uniteFields hfields (normalize_fields h.normal) (normalize_fields hu)
  descriptions := by
    rw [← List.cons_append, flatMap_concat, ← h.descriptions]
    rfl
  comments := by
    rw [← List.cons_append, flatMap_concat, ← h.comments]
    rfl

/-- A definition of the same structure has nothing new but its documentation. -/
theorem MadeOf.absorb (h : MadeOf first others t) (hu : normalize u = u)
    (hsame : skeleton t = skeleton u) : MadeOf first (others ++ [u]) (absorb t u) where
  normal := LawfulNode.normalize_absorb h.normal hu
  span := h.span
  isExtension := h.isExtension
  interfaces := by
    have hinterfaces : t.interfaces = u.interfaces :=
      show (skeleton t).interfaces = (skeleton u).interfaces from
        congrArg TypeDefinition.interfaces hsame
    rw [flatMap_concat, uniteNames_append, ← h.interfaces, ← hinterfaces,
      uniteNames_of_subset (List.Subset.refl _)]
    rfl
  fields := by
    have hfields := skeletons_fields hsame
    have habsorb := skeletons_fields (LawfulNode.skeleton_absorb h.normal hsame)
    rw [flatMap_concat, List.map_append, addFields_append, ← h.fields, ← hfields,
      addFields_of_subset (List.Subset.refl _)]
    exact habsorb
  descriptions := by
    rw [← List.cons_append, flatMap_concat, ← h.descriptions]
    rfl
  comments := by
    rw [← List.cons_append, flatMap_concat, ← h.comments]
    rfl

/-- **One definition more adds the same however it is united with the others.** -/
theorem madeOf_unite {roots : List String} (h : MadeOf first others t) (hu : normalize u = u)
    (hresult : t.unite roots u = .ok result) : MadeOf first (others ++ [u]) result := by
  unfold TypeDefinition.unite at hresult
  split at hresult
  · obtain ⟨fields, hfields, rfl⟩ := fold_eq_ok_iff.1 hresult
    exact h.addFragment hu hfields
  · obtain ⟨hsame, rfl⟩ := unify_eq_ok_iff.1 hresult
    exact h.absorb hu hsame

theorem madeOf_foldlM {roots : List String} (h : MadeOf first others t)
    {us : List TypeDefinition} (hus : ∀ u ∈ us, normalize u = u)
    (hresult : us.foldlM (TypeDefinition.unite roots) t = .ok result) :
    MadeOf first (others ++ us) result := by
  induction us generalizing t others with
  | nil =>
    cases hresult
    rwa [List.append_nil]
  | cons u us ih =>
    obtain ⟨hu, hrest⟩ := List.forall_mem_cons.1 hus
    rw [List.foldlM_cons] at hresult
    obtain ⟨middle, hmiddle, hlast⟩ := except_bind_eq_ok_iff.1 hresult
    have hall := ih (madeOf_unite h hu hmiddle) hrest hlast
    rwa [List.append_assoc, List.singleton_append] at hall

/-- The fields of a type, by where they come from. -/
theorem MadeOf.fields_eq (h : MadeOf first others t) :
    t.fields.map Field.name = uniteNames (first.fields.map Field.name)
        ((others.flatMap TypeDefinition.fields).map Field.name) ∧
      sameStructures (t.fields.take first.fields.length) first.fields = true ∧
      ∀ f ∈ t.fields.drop first.fields.length,
        ∃ g, (others.flatMap TypeDefinition.fields).find? (fun g => g.name = f.name) = some g ∧
          sameStructure f g = true := by
  obtain ⟨added, heq, hadded⟩ := exists_addFields_eq (first.fields.map skeleton)
    ((others.flatMap TypeDefinition.fields).map skeleton)
  have hfields := h.fields.trans heq
  refine ⟨?_, ?_, fun f hf => ?_⟩
  · rw [← names_skeletons, h.fields, names_addFields, names_skeletons, names_skeletons]
  · rw [sameStructures_iff, List.map_take, hfields, List.take_left' (List.length_map ..)]
  · have hmem : skeleton f ∈ added := by
      have hdrop := congrArg (List.drop first.fields.length) hfields
      rw [← List.map_drop, List.drop_left' (List.length_map ..)] at hdrop
      exact hdrop ▸ List.mem_map_of_mem hf
    have hfind := hadded _ hmem
    rw [List.find?_map, Option.map_eq_some_iff] at hfind
    obtain ⟨g, hg, hsame⟩ := hfind
    exact ⟨g, hg, (sameStructure_iff f g).2 hsame.symm⟩

end

/-! ## Folded types -/

section

variable {roots : List String} {types result : List TypeDefinition}

theorem normalize_of_mem_groupOf {k : String} {t : TypeDefinition} (h : t ∈ groupOf k types) :
    normalize t = t := by
  obtain ⟨d, -, -, rfl⟩ := mem_groupOf.1 h
  exact LawfulNode.normalize_normalize d

/-- A type is made of the definitions and extensions of its name, the first of which is a
definition. -/
theorem exists_madeOf_of_foldTypes (h : foldTypes roots types = .ok result) {t : TypeDefinition}
    (ht : t ∈ result) : ∃ first others, groupOf t.name types = first :: others ∧
      first.isExtension = false ∧ MadeOf first others t := by
  rw [foldTypes_eq_insertAll] at h
  have hcombined := combined_of_mem_insertAll keepsKey_unite h ht
  rw [itemsOf_append] at hcombined
  cases hgroup : groupOf t.name types with
  | nil =>
    rw [show itemsOf TypeDefinition.name t.name (basesOf types) ++ _ = [] from hgroup] at hcombined
    exact absurd hcombined id
  | cons first others =>
    rw [show itemsOf TypeDefinition.name t.name (basesOf types) ++ _ = first :: others from hgroup]
      at hcombined
    obtain ⟨start, hstart, hfold⟩ := hcombined
    obtain ⟨hbase, rfl⟩ := asBase_eq_ok_iff.1 hstart
    have hnormal : ∀ u ∈ first :: others, normalize u = u := fun u hu =>
      normalize_of_mem_groupOf (hgroup ▸ hu)
    obtain ⟨hfirst, hothers⟩ := List.forall_mem_cons.1 hnormal
    exact ⟨first, others, rfl, hbase, madeOf_foldlM (madeOf_self hfirst) hothers hfold⟩

/-- Extensions add no names, since there is a definition of each name. -/
theorem names_of_foldTypes (h : foldTypes roots types = .ok result) :
    result.map TypeDefinition.name =
      uniteNames [] ((types.filter fun t => !t.isExtension).map TypeDefinition.name) := by
  have hbases : (basesOf types).map TypeDefinition.name =
      (types.filter fun t => !t.isExtension).map TypeDefinition.name := by
    rw [basesOf, List.map_map]
    rfl
  have hkeys : result.map TypeDefinition.name =
      keysOf TypeDefinition.name (basesOf types ++ extensionsOf types) :=
    keys_of_insertAll keepsKey_unite (foldTypes_eq_insertAll roots types ▸ h)
  have hextensions : (extensionsOf types).map TypeDefinition.name ⊆
      uniteNames [] ((basesOf types).map TypeDefinition.name) := by
    intro k hk
    obtain ⟨e, he, rfl⟩ := List.mem_map.1 hk
    have hmem : e.name ∈ result.map TypeDefinition.name :=
      hkeys ▸ mem_keysOf.2 ⟨e, List.mem_append_right _ he, rfl⟩
    obtain ⟨t, ht, hname⟩ := List.mem_map.1 hmem
    obtain ⟨first, others, hgroup, hbase, -⟩ := exists_madeOf_of_foldTypes h ht
    obtain ⟨d, hd, hdname, rfl⟩ := mem_groupOf.1 (hgroup ▸ List.mem_cons_self)
    have hdefinition := mem_itemsOf_bases.2 ⟨d, hd, hbase, hdname.trans hname, rfl⟩
    rw [mem_itemsOf] at hdefinition
    exact mem_uniteNames.2 (.inr (List.mem_map.2 ⟨_, hdefinition⟩))
  rw [hkeys, keysOf, List.map_append, uniteNames_append, uniteNames_of_subset hextensions, hbases]

/-- **What a folded type has is what its definitions and extensions have.** The types stand in the
order in which their names are first defined. Each has the interfaces and fields of the first
definition of its name, in normal form, and behind them those that are new in the other ones, the
extensions last; it is documented with all that these are documented with. Its fields have the
structure of the first field of their name. -/
theorem content_of_foldTypes (h : foldTypes roots types = .ok result) :
    result.map TypeDefinition.name =
        uniteNames [] ((types.filter fun t => !t.isExtension).map TypeDefinition.name) ∧
      ∀ t ∈ result, ∃ first others, groupOf t.name types = first :: others ∧
        t.span = first.span ∧ t.isExtension = false ∧
        t.interfaces = uniteNames first.interfaces (others.flatMap TypeDefinition.interfaces) ∧
        t.fields.map Field.name = uniteNames (first.fields.map Field.name)
          ((others.flatMap TypeDefinition.fields).map Field.name) ∧
        sameStructures (t.fields.take first.fields.length) first.fields = true ∧
        (∀ f ∈ t.fields.drop first.fields.length,
          ∃ g, (others.flatMap TypeDefinition.fields).find? (fun g => g.name = f.name) = some g ∧
            sameStructure f g = true) ∧
        t.descriptions = (first :: others).flatMap TypeDefinition.descriptions ∧
        t.comments = (first :: others).flatMap TypeDefinition.comments := by
  refine ⟨names_of_foldTypes h, fun t ht => ?_⟩
  obtain ⟨first, others, hgroup, hbase, hmade⟩ := exists_madeOf_of_foldTypes h ht
  obtain ⟨hnames, hfirst, hadded⟩ := hmade.fields_eq
  exact ⟨first, others, hgroup, hmade.span, hmade.isExtension.trans hbase, hmade.interfaces, hnames,
    hfirst, hadded, hmade.descriptions, hmade.comments⟩

/-- An extension that stands before the type it extends, and has one of its fields. -/
theorem content_of_foldTypes_user :
    let field := fun name texts =>
      (⟨name, [], .named "Int" true, none, [], texts, [], default⟩ : Field)
    let user := fun interfaces fields isExtension =>
      (⟨"User", interfaces, fields, [], [], [], isExtension, default⟩ : TypeDefinition)
    let types := [user ["Node"] [field "b" [], field "a" ["# more"]] true,
      user [] [field "a" []] false]
    let folded := user ["Node"] [field "a" ["# more"], field "b" []] false
    foldTypes ["Query"] types = .ok [folded] ∧
      ∃ first others, groupOf "User" types = first :: others ∧
        folded.interfaces =
          uniteNames first.interfaces (others.flatMap TypeDefinition.interfaces) ∧
        sameStructures (folded.fields.take first.fields.length) first.fields = true := by
  intro field user types folded
  have hfold : foldTypes ["Query"] types = .ok [folded] := by decide
  obtain ⟨first, others, hgroup, -, -, hinterfaces, -, hfields, -⟩ :=
    (content_of_foldTypes hfold).2 folded (List.mem_singleton_self folded)
  exact ⟨hfold, first, others, hgroup, hinterfaces, hfields⟩

end

end SchemaMerge
