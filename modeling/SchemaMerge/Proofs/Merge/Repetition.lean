import SchemaMerge.Proofs.Merge.Replay

/-!
# Documents that come twice

When all documents come twice, the definitions of a name come twice, and for types the definitions
still before the extensions. So a merge that succeeds is run again on what it covers, and shows
nothing of it. There is one exception. The first definition of a root type is taken as it is, and
the copy of it is folded into it field by field; if it repeats a field, the two fields of one name
meet there for the first time.

Results:
* `print_merge_append_self`: documents that come twice become a document that is printed as before,
  if no definition of a root type repeats a field.
-/

namespace SchemaMerge

open Node

/-! ## Groups -/

section Keyed

variable {α ν : Type} [Inhabited α] {key : α → String} {combine : α → α → Except Diagnostic α}
  {fresh : α → Except Diagnostic α}

/-- Items in two lists that have the same keys and whose items of each key become things that look
alike become lists that look alike. -/
theorem exists_insertAll_of_groups (hk : KeepsKey key combine fresh) {look : α → ν}
    {items others result : List α} (hkeys : keysOf key others = keysOf key items)
    (hgroups : ∀ k r, Combined combine fresh (itemsOf key k items) r →
      ∃ r', Combined combine fresh (itemsOf key k others) r' ∧ look r' = look r)
    (h : insertAll key combine fresh [] items = .ok result) :
    ∃ result', insertAll key combine fresh [] others = .ok result' ∧
      result'.map look = result.map look := by
  obtain ⟨G, hG, rfl⟩ := (insertAll_eq_ok_iff hk).1 h
  choose! F hF hlook using fun k (hkm : k ∈ keysOf key items) => hgroups k (G k) (hG k hkm)
  refine ⟨_, (insertAll_eq_ok_iff hk).2 ⟨F, fun k hkm => hF k (hkeys ▸ hkm), rfl⟩, ?_⟩
  rw [hkeys, List.map_map, List.map_map]
  exact List.map_congr_left hlook

omit [Inhabited α] in
theorem keysOf_append (items others : List α) :
    keysOf key (items ++ others) = uniteNames (keysOf key items) (others.map key) := by
  rw [keysOf, List.map_append, uniteNames_append, ← keysOf]

omit [Inhabited α] in
theorem keysOf_append_of_subset {items others : List α} (h : others ⊆ items) :
    keysOf key (items ++ others) = keysOf key items := by
  rw [keysOf_append]
  refine uniteNames_of_subset fun k hk => ?_
  obtain ⟨item, hmem, rfl⟩ := List.mem_map.1 hk
  exact mem_keysOf.2 ⟨item, h hmem, rfl⟩

omit [Inhabited α] in
theorem keysOf_twice (items others : List α) :
    keysOf key ((items ++ items) ++ (others ++ others)) = keysOf key (items ++ others) := by
  have hothers : others.map key ⊆ uniteNames (keysOf key items) (others.map key) :=
    fun k hk => mem_uniteNames.2 (.inr hk)
  rw [keysOf_append, keysOf_append_of_subset (List.Subset.refl items), List.map_append,
    uniteNames_append, uniteNames_of_subset hothers, keysOf_append]

end Keyed

/-! ## Definitions -/

section Definitions

variable {α : Type} [Definition α] [LawfulDefinition α] [Titled α] [LawfulTitled α]
  {category : Category}

theorem combined_unifying_twice {label : α → String} {items : List α} {r : α}
    (hn : ∀ a ∈ items, normalize a = a) (h : Combined (unifying category label) Except.ok items r) :
    ∃ r', Combined (unifying category label) Except.ok (items ++ items) r' ∧
      appearance r' = appearance r := by
  cases items with
  | nil => exact h.elim
  | cons first rest =>
    rw [List.forall_mem_cons] at hn
    obtain ⟨start, hs, hr⟩ := h
    obtain rfl := Except.ok.inj hs
    obtain ⟨r', hr', -, hlook⟩ :=
      replays_unifying.foldlM_twice hn.1 hn.1 hn.2 (covers_self first) hr
    exact ⟨r', ⟨first, rfl, hr'⟩, hlook⟩

theorem exists_deduplicate_twice [Inhabited α] {definitions result : List α}
    (h : deduplicate category definitions = .ok result) :
    ∃ result', deduplicate category (definitions ++ definitions) = .ok result' ∧
      result'.map appearance = result.map appearance := by
  rw [deduplicate_eq_insertAll] at h
  rw [deduplicate_eq_insertAll, List.map_append]
  refine exists_insertAll_of_groups keepsKey_unifying
    (keysOf_append_of_subset (List.Subset.refl _)) (fun k r hr => ?_) h
  rw [itemsOf_append]
  exact combined_unifying_twice
    (fun a ha => normalize_map_normalize a (mem_itemsOf.1 ha).1) hr

end Definitions

/-! ## Types -/

section Types

variable {roots : List String}

/-- Definitions and extensions of one type that come twice. -/
theorem combined_unite_twice {k : String} {bases extensions : List TypeDefinition}
    {r : TypeDefinition} (hn : ∀ t ∈ bases ++ extensions, normalize t = t)
    (hk : ∀ t ∈ bases, t.name = k) (hd : k ∈ roots → ∀ t ∈ bases, t.DistinctFields)
    (hbases : ∀ t ∈ bases, t.isExtension = false)
    (hextensions : ∀ t ∈ extensions, t.isExtension = true)
    (h : Combined (TypeDefinition.unite roots) TypeDefinition.asBase (bases ++ extensions) r) :
    ∃ r', Combined (TypeDefinition.unite roots) TypeDefinition.asBase
      ((bases ++ bases) ++ (extensions ++ extensions)) r' ∧ appearance r' = appearance r := by
  cases bases with
  | nil =>
    cases extensions with
    | nil => exact h.elim
    | cons first others =>
      obtain ⟨start, hs, -⟩ := h
      have hfirst := (asBase_eq_ok_iff.1 hs).1
      rw [hextensions first List.mem_cons_self] at hfirst
      cases hfirst
  | cons base bases =>
    rw [List.cons_append] at h
    obtain ⟨start, hs, hr⟩ := h
    obtain ⟨-, rfl⟩ := asBase_eq_ok_iff.1 hs
    obtain ⟨hnb, hne⟩ := List.forall_mem_append.1 hn
    obtain ⟨hnbase, hnb⟩ := List.forall_mem_cons.1 hnb
    -- Definitions of a root type are folded, those of any other type unified.
    have hphase : ∃ step covers, Replays step (fun t => normalize t = t)
        (fun t => normalize t = t) appearance covers ∧
        (∀ t ∈ base :: bases, ∀ s, TypeDefinition.unite roots s t = step s t) ∧
        covers base base := by
      by_cases hroot : k ∈ roots
      · exact ⟨_, _, replays_fold, fun t ht s => unite_of_root (hk t ht ▸ hroot),
          coversFragment_self (hd hroot base List.mem_cons_self)⟩
      · exact ⟨_, _, replays_unifying,
          fun t ht s => unite_of_base (hbases t ht) (hk t ht ▸ hroot), covers_self base⟩
    obtain ⟨step, covers, hreplays, hstep, hcover⟩ := hphase
    have hextend (t : TypeDefinition) (ht : t ∈ extensions) (s : TypeDefinition) :
        TypeDefinition.unite roots s t = s.fold t := unite_of_extension (hextensions t ht)
    have hagain : ∀ t ∈ bases ++ base :: bases, ∀ s, TypeDefinition.unite roots s t = step s t :=
      List.forall_mem_append.2 ⟨(List.forall_mem_cons.1 hstep).2, hstep⟩
    rw [List.foldlM_append, foldlM_congr (List.forall_mem_cons.1 hstep).2,
      funext fun s => foldlM_congr hextend s] at hr
    obtain ⟨r', hr', hlook⟩ :=
      hreplays.foldlM_twice_twice replays_fold hnbase hnbase hnb hne hcover hr
    refine ⟨r', ⟨base, hs, ?_⟩, hlook⟩
    have hextendTwice : ∀ t ∈ extensions ++ extensions, ∀ s,
        TypeDefinition.unite roots s t = s.fold t := List.forall_mem_append.2 ⟨hextend, hextend⟩
    show ((bases ++ base :: bases) ++ (extensions ++ extensions)).foldlM _ base = _
    rw [List.foldlM_append, foldlM_congr hagain, funext fun s => foldlM_congr hextendTwice s]
    exact hr'

theorem exists_foldTypes_twice {types result : List TypeDefinition}
    (hd : ∀ t ∈ types, t.isExtension = false → t.name ∈ roots → t.DistinctFields)
    (h : foldTypes roots types = .ok result) :
    ∃ result', foldTypes roots (types ++ types) = .ok result' ∧
      result'.map appearance = result.map appearance := by
  have hbases : basesOf (types ++ types) = basesOf types ++ basesOf types := by simp [basesOf]
  have hextensions : extensionsOf (types ++ types) = extensionsOf types ++ extensionsOf types := by
    simp [extensionsOf]
  rw [foldTypes_eq_insertAll] at h
  rw [foldTypes_eq_insertAll, hbases, hextensions]
  refine exists_insertAll_of_groups keepsKey_unite (keysOf_twice _ _) (fun k r hr => ?_) h
  rw [itemsOf_append] at hr
  rw [itemsOf_append, itemsOf_append, itemsOf_append]
  refine combined_unite_twice (k := k) (fun t ht => ?_) (fun t ht => (mem_itemsOf.1 ht).2)
    (fun hroot t ht => ?_) (fun t ht => ?_) (fun t ht => ?_) hr
  · obtain ⟨d, -, -, rfl⟩ := mem_groupOf.1 ht
    exact LawfulNode.normalize_normalize d
  · obtain ⟨d, hmem, he, hname, rfl⟩ := mem_itemsOf_bases.1 ht
    exact (hd d hmem he (hname ▸ hroot)).normalize
  · obtain ⟨d, -, he, -, rfl⟩ := mem_itemsOf_bases.1 ht
    exact he
  · obtain ⟨d, -, he, -, rfl⟩ := mem_itemsOf_extensions.1 ht
    exact he

end Types

/-! ## Schema blocks -/

theorem canonical_schemaBlock_congr {b c : SchemaBlock}
    (hroots : ∀ operation, b.rootType? operation = c.rootType? operation)
    (h : b.descriptions.head? = c.descriptions.head?) :
    withoutSpans b.canonical = withoutSpans c.canonical := by
  have hquery : b.query = c.query := hroots .query
  have hmutation : b.mutation = c.mutation := hroots .mutation
  have hsubscription : b.subscription = c.subscription := hroots .subscription
  simp [withoutSpans, SchemaBlock.canonical, hquery, hmutation, hsubscription, take_one_congr h]

theorem exists_some_of_reduceSchemaBlocks {first : SchemaBlock} {blocks : List SchemaBlock}
    {block : Option SchemaBlock} (h : reduceSchemaBlocks (first :: blocks) = .ok block) :
    ∃ b, block = some b := by
  rw [reduceSchemaBlocks_cons] at h
  split at h
  · cases h
  · exact ⟨_, (Except.ok.inj h).symm⟩

theorem exists_reduceSchemaBlocks_twice {blocks : List SchemaBlock} {block : Option SchemaBlock}
    (h : reduceSchemaBlocks blocks = .ok block) :
    ∃ other, reduceSchemaBlocks (blocks ++ blocks) = .ok other ∧
      rootTypeNames other = rootTypeNames block ∧
      other.toList.map (fun b => withoutSpans b.canonical) =
        block.toList.map fun b => withoutSpans b.canonical := by
  have hmem (b : SchemaBlock) : b ∈ blocks ++ blocks ↔ b ∈ blocks := by simp
  have hagree := reduceSchemaBlocks_isOk_iff.1 ⟨block, h⟩
  obtain ⟨other, ho⟩ := reduceSchemaBlocks_isOk_iff.2
    (hagree.mono fun b hb => (hmem b).1 hb)
  have hroots := rootType?_of_mem_iff hmem ho h
  have hdescriptions := descriptions_of_reduceSchemaBlocks ho
  rw [List.flatMap_append, ← descriptions_of_reduceSchemaBlocks h] at hdescriptions
  refine ⟨other, ho, rootTypeNames_congr hroots, ?_⟩
  cases blocks with
  | nil =>
    obtain rfl := Except.ok.inj h
    obtain rfl := Except.ok.inj ho
    rfl
  | cons first rest =>
    obtain ⟨b, rfl⟩ := exists_some_of_reduceSchemaBlocks h
    obtain ⟨c, rfl⟩ := exists_some_of_reduceSchemaBlocks ho
    simp only [Option.toList_some, List.flatMap_singleton, List.map_singleton] at hdescriptions ⊢
    rw [canonical_schemaBlock_congr hroots (by simp [hdescriptions])]

/-! ## Documents -/

/-- **Documents that come twice become what they become once**, as far as it is printed, if no
definition of a root type repeats a field. -/
theorem print_merge_append_self {documents : List Document} {m : Document}
    (h : Document.merge documents = .ok m)
    (hd : ∀ d ∈ documents, ∀ t ∈ d.types, t.isExtension = false →
      t.name ∈ rootTypeNames m.schemaBlocks.head? → (t.fields.map Field.name).Nodup) :
    ∃ n, Document.merge (documents ++ documents) = .ok n ∧
      ∀ unit, n.print unit = m.print unit := by
  have hm := merge_eq_ok_iff.1 h
  obtain ⟨block, hb, hroots, hblock⟩ := exists_reduceSchemaBlocks_twice hm.blocks
  obtain ⟨directiveDefinitions, hdd, hdd'⟩ := exists_deduplicate_twice hm.directiveDefinitions
  obtain ⟨scalars, hs, hs'⟩ := exists_deduplicate_twice hm.scalars
  obtain ⟨enums, he, he'⟩ := exists_deduplicate_twice hm.enums
  obtain ⟨interfaces, hi, hi'⟩ := exists_deduplicate_twice hm.interfaces
  obtain ⟨unions, hu, hu'⟩ := exists_deduplicate_twice hm.unions
  obtain ⟨inputs, hn, hn'⟩ := exists_deduplicate_twice hm.inputs
  have hdistinct : ∀ t ∈ documents.flatMap Document.types, t.isExtension = false →
      t.name ∈ rootTypeNames m.schemaBlocks.head? → t.DistinctFields := by
    intro t ht
    obtain ⟨d, hmem, ht⟩ := List.mem_flatMap.1 ht
    exact hd d hmem t ht
  obtain ⟨types, ht, ht'⟩ := exists_foldTypes_twice hdistinct hm.types
  have hhead : block.toList.head? = block := by cases block <;> rfl
  let n : Document :=
    ⟨block.toList, directiveDefinitions, scalars, enums, interfaces, unions, inputs, types⟩
  have hmerges : MergesTo (documents ++ documents) n := by
    constructor <;> simp only [List.flatMap_append, n, hhead, hroots] <;> assumption
  have hlooks : n.LooksLike m :=
    { schemaBlocks := by rw [hblock, hm.single]
      directiveDefinitions := hdd'
      scalars := hs'
      enums := he'
      interfaces := hi'
      unions := hu'
      inputs := hn'
      types := ht' }
  have hsingle : n.schemaBlocks.length ≤ 1 := by cases block <;> simp [n]
  exact ⟨n, merge_eq_ok_iff.2 hmerges, hlooks.print_eq hsingle⟩

/-- A root type, and a type that repeats a field but serves no operation. -/
theorem print_merge_append_self_node :
    let field := (⟨"a", [], .named "Int" true, none, [], [], [], default⟩ : Field)
    let type := fun name fields =>
      (⟨name, [], fields, [], [], [], false, default⟩ : TypeDefinition)
    let d := { Document.empty with types := [type "Query" [field], type "Node" [field, field]] }
    ∃ n, Document.merge ([d] ++ [d]) = .ok n ∧ ∀ unit, n.print unit = d.print unit :=
  print_merge_append_self rfl
    (by simp [rootTypeNames, RootOperation.all, RootOperation.defaultType, Document.empty])

/-- A root type that repeats a field can be merged alone, but not with a copy of itself. -/
theorem merge_append_self_fails :
    ∃ d, Document.ofText "a.graphql" "type Query \x7b a: Int a: String \x7d" = .ok d ∧
      (∃ m, Document.merge [d] = .ok m) ∧ ¬∃ n, Document.merge ([d] ++ [d]) = .ok n := by
  have htest : (match Document.ofText "a.graphql" "type Query \x7b a: Int a: String \x7d" with
      | .ok d => (Document.merge [d]).isOk && !(Document.merge [d, d]).isOk
      | .error _ => false) = true := by decide +kernel
  split at htest
  · next d hd =>
    refine ⟨d, hd, ?_⟩
    cases hm : Document.merge [d] <;> cases hn : Document.merge [d, d] <;>
      simp [hm, hn, Except.isOk, Except.toBool] at htest ⊢
  · cases htest

end SchemaMerge
