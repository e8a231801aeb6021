import SchemaMerge.Proofs.Merge.Keyed
import SchemaMerge.Proofs.Merge.Structure

/-!
# Definitions of one name agree

Merging compares a definition with the one that earlier definitions of its name have become. That
one still has the skeleton of the first of them, since absorbing a definition of the same skeleton
does not change the skeleton. So definitions can be merged exactly when any two of one name have the
same skeleton (`insertAll_unifying_isOk_iff`).
-/

namespace SchemaMerge

section

variable {α : Type} [Definition α] [LawfulDefinition α] {category : Category} {label : α → String}

/-- The combination of definitions that have to have the same structure. -/
abbrev unifying (category : Category) (label : α → String) (earlier later : α) :
    Except Diagnostic α := unify category (label earlier) earlier later

theorem unify_eq_ok_iff {name : String} {a b c : α} :
    unify category name a b = .ok c ↔ skeleton a = skeleton b ∧ absorb a b = c := by
  unfold unify
  by_cases h : sameStructure a b = true
  · simp [h, ← sameStructure_iff]
  · simp [h, ← sameStructure_iff]

theorem keepsKey_unifying : KeepsKey Definition.name (unifying category label) Except.ok where
  fresh h := congrArg Definition.name (Except.ok.inj h).symm
  combine h := by rw [← (unify_eq_ok_iff.1 h).2, LawfulDefinition.name_absorb]

/-- Definitions in normal form are unified to one with the skeleton and the span of the first. -/
theorem skeleton_foldlM_unifying {start result : α} {others : List α}
    (hstart : normalize start = start) (hothers : ∀ b ∈ others, normalize b = b)
    (h : others.foldlM (unifying category label) start = .ok result) :
    skeleton result = skeleton start ∧ normalize result = result := by
  induction others generalizing start with
  | nil => exact Except.ok.inj h ▸ ⟨rfl, hstart⟩
  | cons b others ih =>
    rw [List.forall_mem_cons] at hothers
    rw [List.foldlM_cons, except_bind_eq_ok_iff] at h
    obtain ⟨middle, hm, hr⟩ := h
    obtain ⟨hsame, rfl⟩ := unify_eq_ok_iff.1 hm
    obtain ⟨hs, hn⟩ := ih (LawfulNode.normalize_absorb hstart hothers.1) hothers.2 hr
    exact ⟨hs.trans (LawfulNode.skeleton_absorb hstart hsame), hn⟩

theorem foldlM_unifying_isOk_iff {start : α} {others : List α}
    (hstart : normalize start = start) (hothers : ∀ b ∈ others, normalize b = b) :
    (∃ result, others.foldlM (unifying category label) start = .ok result) ↔
      ∀ b ∈ others, skeleton b = skeleton start := by
  induction others generalizing start with
  | nil => exact ⟨fun _ => by simp, fun _ => ⟨start, rfl⟩⟩
  | cons b others ih =>
    rw [List.forall_mem_cons] at hothers ⊢
    simp only [List.foldlM_cons, except_bind_eq_ok_iff, unify_eq_ok_iff]
    constructor
    · rintro ⟨result, _, ⟨hsame, rfl⟩, hr⟩
      have hskeleton := LawfulNode.skeleton_absorb hstart hsame
      have hall := (ih (LawfulNode.normalize_absorb hstart hothers.1) hothers.2).1 ⟨result, hr⟩
      exact ⟨hsame.symm, fun c hc => (hall c hc).trans hskeleton⟩
    · rintro ⟨hsame, hall⟩
      have hskeleton := LawfulNode.skeleton_absorb hstart hsame.symm
      obtain ⟨result, hr⟩ := (ih (LawfulNode.normalize_absorb hstart hothers.1) hothers.2).2
        fun c hc => (hall c hc).trans hskeleton.symm
      exact ⟨result, _, ⟨hsame.symm, rfl⟩, hr⟩

theorem names_eq_of_skeletons_eq {as bs : List α} (h : as.map skeleton = bs.map skeleton) :
    as.map Definition.name = bs.map Definition.name := by
  simpa [Function.comp_def] using congrArg (List.map Definition.name) h

/-- Any two definitions of one name have the same skeleton. -/
def Agree (definitions : List α) : Prop :=
  ∀ a ∈ definitions, ∀ b ∈ definitions,
    Definition.name a = Definition.name b → skeleton a = skeleton b

theorem Agree.of_skeletons_subset {as bs : List α} (h : as.map skeleton ⊆ bs.map skeleton)
    (hbs : Agree bs) : Agree as := by
  have hmem : ∀ a ∈ as, ∃ b ∈ bs, skeleton b = skeleton a := fun a ha =>
    List.mem_map.1 (h (List.mem_map_of_mem ha))
  intro a ha a' ha' hname
  obtain ⟨b, hb, hba⟩ := hmem a ha
  obtain ⟨b', hb', hba'⟩ := hmem a' ha'
  rw [← hba, ← hba']
  apply hbs b hb b' hb'
  rw [← LawfulDefinition.name_skeleton b, ← LawfulDefinition.name_skeleton b', hba, hba',
    LawfulDefinition.name_skeleton, LawfulDefinition.name_skeleton, hname]

/-- What all share with the first, any two share. -/
theorem forall_eq_first_iff {β γ : Type} {f : β → γ} {first : β} {others : List β} :
    (∀ b ∈ others, f b = f first) ↔
      ∀ a ∈ first :: others, ∀ b ∈ first :: others, f a = f b := by
  constructor
  · intro h a ha b hb
    have hfirst : ∀ c ∈ first :: others, f c = f first := List.forall_mem_cons.2 ⟨rfl, h⟩
    exact (hfirst a ha).trans (hfirst b hb).symm
  · exact fun h b hb => h b (List.mem_cons_of_mem _ hb) first List.mem_cons_self

theorem exists_combined_unifying_iff {group : List α} (hn : ∀ a ∈ group, normalize a = a) :
    (∃ result, Combined (unifying category label) Except.ok group result) ↔
      group ≠ [] ∧ ∀ a ∈ group, ∀ b ∈ group, skeleton a = skeleton b := by
  cases group with
  | nil => simp [Combined]
  | cons first others =>
    rw [List.forall_mem_cons] at hn
    simp only [Combined, Except.ok.injEq, exists_eq_left', ne_eq, reduceCtorEq, not_false_eq_true,
      true_and, foldlM_unifying_isOk_iff hn.1 hn.2, forall_eq_first_iff]

/-- **Definitions can be merged exactly when those of one name agree.** -/
theorem insertAll_unifying_isOk_iff [Inhabited α] {definitions : List α}
    (hn : ∀ a ∈ definitions, normalize a = a) :
    (∃ result, insertAll Definition.name (unifying category label) Except.ok [] definitions =
        .ok result) ↔ Agree definitions := by
  have hgroup : ∀ k, ∀ a ∈ itemsOf Definition.name k definitions, normalize a = a :=
    fun k a ha => hn a (List.mem_filter.1 ha).1
  rw [insertAll_isOk_iff keepsKey_unifying]
  constructor
  · intro h a ha b hb he
    have hk : Definition.name a ∈ keysOf Definition.name definitions := mem_keysOf.2 ⟨a, ha, rfl⟩
    exact ((exists_combined_unifying_iff (hgroup _)).1 (h _ hk)).2 a
      (List.mem_filter.2 ⟨ha, by simp⟩) b (List.mem_filter.2 ⟨hb, by simp [he]⟩)
  · intro h k hk
    refine (exists_combined_unifying_iff (hgroup k)).2 ⟨itemsOf_ne_nil hk, fun a ha b hb => ?_⟩
    obtain ⟨ha, hka⟩ := List.mem_filter.1 ha
    obtain ⟨hb, hkb⟩ := List.mem_filter.1 hb
    simp only [decide_eq_true_eq] at hka hkb
    exact h a ha b hb (hka.trans hkb.symm)

/-! ## Deduplication -/

omit [LawfulDefinition α] in
theorem deduplicate_eq_insertAll (definitions : List α) :
    deduplicate category definitions =
      insertAll Definition.name (unifying category Definition.name) Except.ok []
        (definitions.map normalize) := by
  simp only [deduplicate, insertAll, List.foldlM_map]

theorem itemsOf_map_normalize (k : String) (as : List α) :
    itemsOf Definition.name k (as.map normalize) =
      (itemsOf Definition.name k as).map normalize := by
  simp only [itemsOf, List.filter_map, Function.comp_def, LawfulDefinition.name_normalize]

theorem normalize_map_normalize {definitions : List α} :
    ∀ a ∈ definitions.map normalize, normalize a = a := by
  simp only [List.forall_mem_map, LawfulNode.normalize_normalize, implies_true]

theorem deduplicate_isOk_iff [Inhabited α] {definitions : List α} :
    (∃ result, deduplicate category definitions = .ok result) ↔
      Agree (definitions.map normalize) := by
  rw [deduplicate_eq_insertAll]
  exact insertAll_unifying_isOk_iff normalize_map_normalize

/-- No name is left twice. -/
theorem names_nodup_of_deduplicate [Inhabited α] {definitions result : List α}
    (h : deduplicate category definitions = .ok result) :
    (result.map Definition.name).Nodup := by
  rw [deduplicate_eq_insertAll] at h
  rw [keys_of_insertAll keepsKey_unifying h]
  exact nodup_keysOf _

/-- A property of definitions that normal forms have and absorption keeps is one of the result. -/
theorem forall_mem_deduplicate {P : α → Prop} {definitions result : List α}
    (h : deduplicate category definitions = .ok result)
    (hnormalize : ∀ a ∈ definitions, P (normalize a))
    (habsorb : ∀ {a b}, P a → P b → P (absorb a b)) : ∀ a ∈ result, P a := by
  rw [deduplicate_eq_insertAll] at h
  refine forall_mem_insertAll h (List.forall_mem_map.2 hnormalize) ?_ ?_ (by simp)
  · rintro a b ha hb
    exact Except.ok.inj hb ▸ ha
  · rintro a b c ha hb hc
    exact (unify_eq_ok_iff.1 hc).2 ▸ habsorb ha hb

theorem normalize_of_mem_deduplicate {definitions result : List α}
    (h : deduplicate category definitions = .ok result) : ∀ a ∈ result, normalize a = a :=
  forall_mem_deduplicate h (fun a _ => LawfulNode.normalize_normalize a)
    fun ha hb => LawfulNode.normalize_absorb ha hb

omit [LawfulDefinition α] in
/-- Definitions of different names in normal form are left as they are. -/
theorem deduplicate_of_nodup {definitions : List α}
    (hd : (definitions.map Definition.name).Nodup) (hn : ∀ a ∈ definitions, normalize a = a) :
    deduplicate category definitions = .ok definitions := by
  rw [deduplicate_eq_insertAll, map_normalize_eq_self_iff.2 hn]
  exact insertAll_of_nodup hd fun _ _ => rfl

end

end SchemaMerge
