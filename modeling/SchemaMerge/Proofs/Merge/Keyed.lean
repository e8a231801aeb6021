import SchemaMerge.Merge.Deduplicate
import Mathlib.Data.List.Induction

/-!
# Lists with one item for each key

`insertAll` puts items one by one into a list with one item for each key. What becomes of the items
of a key depends on these items alone, in their order: `Combined` says what it is. `insertAll`
succeeds exactly when the items of each key can be combined, and then it gives what they become, in
the order in which the keys first occur (`insertAll_eq_ok_iff`, `insertAll_isOk_iff`).
-/

namespace SchemaMerge

/-! ## Names without repetition -/

/-- A name is added at the end, unless it is there. -/
theorem uniteNames_concat (names incoming : List String) (name : String) :
    uniteNames names (incoming ++ [name]) =
      if name ∈ uniteNames names incoming then uniteNames names incoming
      else uniteNames names incoming ++ [name] := by
  rw [uniteNames, List.foldl_append]
  rfl

theorem uniteNames_append (names incoming others : List String) :
    uniteNames names (incoming ++ others) = uniteNames (uniteNames names incoming) others :=
  List.foldl_append ..

theorem uniteNames_of_subset {names incoming : List String} (h : incoming ⊆ names) :
    uniteNames names incoming = names := by
  unfold uniteNames
  induction incoming with
  | nil => rfl
  | cons name incoming ih =>
    obtain ⟨hname, hincoming⟩ := List.cons_subset.1 h
    rw [List.foldl_cons, if_pos hname, ih hincoming]

theorem mem_uniteNames {names incoming : List String} {name : String} :
    name ∈ uniteNames names incoming ↔ name ∈ names ∨ name ∈ incoming := by
  induction incoming using List.reverseRecOn with
  | nil => simp [uniteNames]
  | append_singleton incoming last ih =>
    rw [uniteNames_concat]
    by_cases h : last ∈ uniteNames names incoming
    · rw [if_pos h]
      simp only [List.mem_append, List.mem_singleton, ← or_assoc, ← ih]
      exact ⟨Or.inl, fun hn => hn.elim id fun e => e ▸ h⟩
    · rw [if_neg h, List.mem_append, ih, List.mem_append, or_assoc]

theorem nodup_uniteNames {names : List String} (h : names.Nodup) (incoming : List String) :
    (uniteNames names incoming).Nodup := by
  induction incoming using List.reverseRecOn with
  | nil => exact h
  | append_singleton incoming last ih =>
    rw [uniteNames_concat]
    split
    · exact ih
    · next hl => exact List.nodup_append.2 ⟨ih, by simp, fun a ha b hb e => hl (by simp_all)⟩

theorem uniteNames_of_nodup {names incoming : List String} (h : (names ++ incoming).Nodup) :
    uniteNames names incoming = names ++ incoming := by
  induction incoming using List.reverseRecOn with
  | nil => simp [uniteNames]
  | append_singleton incoming last ih =>
    rw [← List.append_assoc, List.nodup_append] at h
    obtain ⟨hnodup, -, hnew⟩ := h
    rw [uniteNames_concat, ih hnodup, if_neg, List.append_assoc]
    exact fun hmem => hnew last hmem last List.mem_cons_self rfl

/-! ## Groups of items -/

section Keyed

variable {α : Type} {key : α → String} {combine : α → α → Except Diagnostic α}
  {fresh : α → Except Diagnostic α}

/-- The items put into a list one after the other. -/
def insertAll (key : α → String) (combine : α → α → Except Diagnostic α)
    (fresh : α → Except Diagnostic α) (merged items : List α) : Except Diagnostic (List α) :=
  items.foldlM (insertKeyed key combine fresh) merged

/-- What the items of one key become: the first is let in, the others are combined with it. -/
def Combined (combine : α → α → Except Diagnostic α) (fresh : α → Except Diagnostic α) :
    List α → α → Prop
  | [], _ => False
  | first :: others, result =>
    ∃ start, fresh first = .ok start ∧ others.foldlM combine start = .ok result

/-- Letting an item in and combining it with another keep its key. -/
structure KeepsKey (key : α → String) (combine : α → α → Except Diagnostic α)
    (fresh : α → Except Diagnostic α) : Prop where
  fresh : ∀ {a b}, fresh a = .ok b → key b = key a
  combine : ∀ {a b c}, combine a b = .ok c → key c = key a

/-- The items of a key. -/
def itemsOf (key : α → String) (k : String) (items : List α) : List α :=
  items.filter fun item => key item = k

theorem mem_itemsOf {k : String} {items : List α} {item : α} :
    item ∈ itemsOf key k items ↔ item ∈ items ∧ key item = k := by
  rw [itemsOf, List.mem_filter, decide_eq_true_eq]

theorem itemsOf_append (k : String) (items others : List α) :
    itemsOf key k (items ++ others) = itemsOf key k items ++ itemsOf key k others :=
  List.filter_append ..

theorem except_bind_eq_ok_iff {ε β γ : Type} {x : Except ε β} {f : β → Except ε γ} {c : γ} :
    (x >>= f) = .ok c ↔ ∃ b, x = .ok b ∧ f b = .ok c := by
  cases x <;> simp [bind, Except.bind]

/-- The last item is combined with what the others make. -/
theorem combined_concat {items : List α} (h : items ≠ []) {item result : α} :
    Combined combine fresh (items ++ [item]) result ↔
      ∃ middle, Combined combine fresh items middle ∧ combine middle item = .ok result := by
  cases items with
  | nil => exact absurd rfl h
  | cons first others =>
    simp only [Combined, List.cons_append, List.foldlM_append, List.foldlM_cons, List.foldlM_nil,
      bind_pure, except_bind_eq_ok_iff]
    constructor
    · rintro ⟨start, hs, middle, hm, hr⟩
      exact ⟨middle, ⟨start, hs, hm⟩, hr⟩
    · rintro ⟨middle, ⟨start, hs, hm⟩, hr⟩
      exact ⟨start, hs, middle, hm, hr⟩

theorem key_of_foldlM (hk : KeepsKey key combine fresh) {items : List α} {start result : α}
    (h : items.foldlM combine start = .ok result) : key result = key start := by
  induction items generalizing start with
  | nil => exact congrArg key (Except.ok.inj h).symm
  | cons item items ih =>
    rw [List.foldlM_cons, except_bind_eq_ok_iff] at h
    obtain ⟨middle, hm, hr⟩ := h
    rw [ih hr, hk.combine hm]

theorem key_of_combined (hk : KeepsKey key combine fresh) {k : String} {items : List α}
    {result : α} (h : Combined combine fresh (itemsOf key k items) result) : key result = k := by
  cases hi : itemsOf key k items with
  | nil => rw [hi] at h; exact h.elim
  | cons first others =>
    rw [hi] at h
    obtain ⟨start, hs, hr⟩ := h
    have hfirst : first ∈ itemsOf key k items := hi ▸ List.mem_cons_self
    rw [key_of_foldlM hk hr, hk.fresh hs]
    simpa using (List.mem_filter.1 hfirst).2

theorem itemsOf_concat_self (items : List α) (item : α) :
    itemsOf key (key item) (items ++ [item]) = itemsOf key (key item) items ++ [item] := by
  simp [itemsOf]

theorem itemsOf_concat_of_ne {k : String} (items : List α) {item : α} (h : k ≠ key item) :
    itemsOf key k (items ++ [item]) = itemsOf key k items := by
  simp [itemsOf, Ne.symm h]

/-! ## One more item -/

theorem insertKeyed_of_not_mem {merged : List α} {item : α} (hm : key item ∉ merged.map key) :
    insertKeyed key combine fresh merged item = (fresh item).map fun new => merged ++ [new] := by
  induction merged with
  | nil =>
    rw [insertKeyed]
    cases fresh item <;> rfl
  | cons first rest ih =>
    simp only [List.map_cons, List.mem_cons, not_or] at hm
    rw [insertKeyed, if_neg fun e => hm.1 e.symm, ih hm.2]
    cases fresh item <;> rfl

/-- An item whose key is there is combined with the item of that key, and the others stay. -/
theorem insertKeyed_map_of_mem {G : String → α} {keys : List String} {item : α}
    (hG : ∀ k ∈ keys, key (G k) = k) (hd : keys.Nodup) (hm : key item ∈ keys) :
    insertKeyed key combine fresh (keys.map G) item =
      (combine (G (key item)) item).map fun new =>
        keys.map (Function.update G (key item) new) := by
  induction keys with
  | nil => simp at hm
  | cons k keys ih =>
    obtain ⟨hk, hd⟩ := List.nodup_cons.1 hd
    have hkey := hG k List.mem_cons_self
    by_cases he : k = key item
    · subst he
      have hrest : ∀ new, keys.map (Function.update G (key item) new) = keys.map G := fun new =>
        List.map_congr_left fun k' hk' =>
          Function.update_of_ne (by rintro rfl; exact hk hk') new G
      rw [List.map_cons, insertKeyed, if_pos hkey]
      cases combine (G (key item)) item with
      | error e => rfl
      | ok new => simp [Except.map, bind, Except.bind, pure, Except.pure, hrest]
    · rw [List.map_cons, insertKeyed, if_neg fun e => he (hkey.symm.trans e),
        ih (fun k hk => hG k (List.mem_cons_of_mem _ hk)) hd
          ((List.mem_cons.1 hm).resolve_left fun e => he e.symm)]
      cases combine (G (key item)) item with
      | error e => rfl
      | ok new => simp [Except.map, bind, Except.bind, pure, Except.pure, Function.update_of_ne he]

/-! ## All items -/

/-- The keys of the items in the order in which they first occur. -/
def keysOf (key : α → String) (items : List α) : List String := uniteNames [] (items.map key)

theorem mem_keysOf {items : List α} {k : String} :
    k ∈ keysOf key items ↔ ∃ item ∈ items, key item = k := by
  simp [keysOf, mem_uniteNames]

/-- Keys are listed once, by their first occurrence. -/
theorem nodup_keysOf (items : List α) : (keysOf key items).Nodup :=
  nodup_uniteNames List.nodup_nil _

theorem keysOf_concat (items : List α) (item : α) :
    keysOf key (items ++ [item]) =
      if key item ∈ keysOf key items then keysOf key items
      else keysOf key items ++ [key item] := by
  rw [keysOf, List.map_append]
  exact uniteNames_concat _ _ _

/-- The last item is put into the list that the others make. -/
theorem insertAll_concat (merged items : List α) (item : α) :
    insertAll key combine fresh merged (items ++ [item]) =
      insertAll key combine fresh merged items >>= fun all =>
        insertKeyed key combine fresh all item := by
  simp [insertAll]

/-- Each key has what its items become. -/
def Grouped (key : α → String) (combine : α → α → Except Diagnostic α)
    (fresh : α → Except Diagnostic α) (items : List α) (G : String → α) : Prop :=
  ∀ k ∈ keysOf key items, Combined combine fresh (itemsOf key k items) (G k)

theorem key_of_grouped (hk : KeepsKey key combine fresh) {items : List α} {G : String → α}
    (h : Grouped key combine fresh items G) : ∀ k ∈ keysOf key items, key (G k) = k :=
  fun k hm => key_of_combined hk (h k hm)

/-- Groups stand for their keys. -/
theorem map_key_of_grouped (hk : KeepsKey key combine fresh) {items : List α} {G : String → α}
    (h : Grouped key combine fresh items G) :
    ((keysOf key items).map G).map key = keysOf key items := by
  rw [List.map_map]
  exact (List.map_congr_left (key_of_grouped hk h)).trans (List.map_id _)

theorem itemsOf_ne_nil {items : List α} {k : String} (h : k ∈ keysOf key items) :
    itemsOf key k items ≠ [] := by
  obtain ⟨item, hi, rfl⟩ := mem_keysOf.1 h
  exact List.ne_nil_of_mem (List.mem_filter.2 ⟨hi, by simp⟩)

theorem itemsOf_eq_nil {items : List α} {k : String} (h : k ∉ keysOf key items) :
    itemsOf key k items = [] := by
  simp only [itemsOf, List.filter_eq_nil_iff, decide_eq_true_eq]
  exact fun item hi he => h (mem_keysOf.2 ⟨item, hi, he⟩)

/-- One more item of a group is combined with what the group has made. -/
theorem grouped_concat_of_mem {items : List α} {item : α} {G : String → α}
    (hm : key item ∈ keysOf key items) :
    Grouped key combine fresh (items ++ [item]) G ↔
      ∃ middle, combine middle item = .ok (G (key item)) ∧
        Grouped key combine fresh items (Function.update G (key item) middle) := by
  unfold Grouped
  rw [keysOf_concat, if_pos hm]
  constructor
  · intro h
    have hitem := h _ hm
    rw [itemsOf_concat_self, combined_concat (itemsOf_ne_nil hm)] at hitem
    obtain ⟨middle, hmiddle, hc⟩ := hitem
    refine ⟨middle, hc, fun k hk => ?_⟩
    by_cases he : k = key item
    · subst he
      rwa [Function.update_self]
    · rw [Function.update_of_ne he, ← itemsOf_concat_of_ne items he]
      exact h k hk
  · rintro ⟨middle, hc, h⟩ k hk
    by_cases he : k = key item
    · subst he
      rw [itemsOf_concat_self, combined_concat (itemsOf_ne_nil hm)]
      exact ⟨middle, by simpa using h _ hm, hc⟩
    · rw [itemsOf_concat_of_ne items he]
      simpa [Function.update_of_ne he] using h k hk

/-- An item of a new key starts a group. -/
theorem grouped_concat_of_not_mem {items : List α} {item : α} {G : String → α}
    (hm : key item ∉ keysOf key items) :
    Grouped key combine fresh (items ++ [item]) G ↔
      fresh item = .ok (G (key item)) ∧ Grouped key combine fresh items G := by
  have hne : ∀ k ∈ keysOf key items, k ≠ key item := by
    rintro k hk rfl
    exact hm hk
  have hitem : Combined combine fresh (itemsOf key (key item) (items ++ [item])) (G (key item)) ↔
      fresh item = .ok (G (key item)) := by
    rw [itemsOf_concat_self, itemsOf_eq_nil hm]
    simp [Combined, pure, Except.pure]
  unfold Grouped
  rw [keysOf_concat, if_neg hm]
  constructor
  · intro h
    refine ⟨hitem.1 (h _ (by simp)), fun k hk => ?_⟩
    rw [← itemsOf_concat_of_ne items (hne k hk)]
    exact h k (List.mem_append_left _ hk)
  · rintro ⟨hf, h⟩ k hk
    rcases List.mem_append.1 hk with hk | hk
    · rw [itemsOf_concat_of_ne items (hne k hk)]
      exact h k hk
    · rw [List.mem_singleton.1 hk]
      exact hitem.2 hf

theorem except_map_eq_ok_iff {ε β γ : Type} {x : Except ε β} {f : β → γ} {c : γ} :
    x.map f = .ok c ↔ ∃ b, x = .ok b ∧ f b = c := by
  cases x <;> simp [Except.map]

/-- **What becomes of a key is decided by its items alone**, and the keys keep the order in which
they first occur. -/
theorem insertAll_eq_ok_iff [Inhabited α] (hk : KeepsKey key combine fresh)
    {items result : List α} :
    insertAll key combine fresh [] items = .ok result ↔
      ∃ G, Grouped key combine fresh items G ∧ (keysOf key items).map G = result := by
  -- The last item is put in last, so it is the one to take off.
  induction items using List.reverseRecOn generalizing result with
  | nil =>
    constructor
    · intro h
      have hr : [] = result := Except.ok.inj h
      exact ⟨fun _ => default, fun k hk => absurd hk (by simp [keysOf, uniteNames]), hr⟩
    · rintro ⟨G, -, rfl⟩
      rfl
  | append_singleton items item ih =>
    rw [insertAll_concat, except_bind_eq_ok_iff, keysOf_concat]
    by_cases hm : key item ∈ keysOf key items
    · simp only [if_pos hm, grouped_concat_of_mem hm]
      constructor
      · rintro ⟨merged, hmerged, hr⟩
        obtain ⟨G, hG, rfl⟩ := ih.1 hmerged
        rw [insertKeyed_map_of_mem (key_of_grouped hk hG) (nodup_keysOf items) hm,
          except_map_eq_ok_iff] at hr
        obtain ⟨new, hnew, rfl⟩ := hr
        exact ⟨Function.update G (key item) new, ⟨G (key item), by simpa using hnew, by simpa⟩, rfl⟩
      · rintro ⟨G, ⟨middle, hc, hG⟩, rfl⟩
        refine ⟨_, ih.2 ⟨_, hG, rfl⟩, ?_⟩
        rw [insertKeyed_map_of_mem (key_of_grouped hk hG) (nodup_keysOf items) hm,
          except_map_eq_ok_iff]
        exact ⟨G (key item), by simpa using hc, by simp⟩
    · simp only [if_neg hm, grouped_concat_of_not_mem hm]
      constructor
      · rintro ⟨merged, hmerged, hr⟩
        obtain ⟨G, hG, rfl⟩ := ih.1 hmerged
        rw [insertKeyed_of_not_mem (by rwa [map_key_of_grouped hk hG]), except_map_eq_ok_iff] at hr
        obtain ⟨new, hnew, rfl⟩ := hr
        have hsame : ∀ k ∈ keysOf key items, Function.update G (key item) new k = G k := by
          intro k hkm
          have hne : k ≠ key item := by
            rintro rfl
            exact hm hkm
          exact Function.update_of_ne hne new G
        refine ⟨Function.update G (key item) new, ⟨by simpa using hnew, fun k hk => ?_⟩, ?_⟩
        · rw [hsame k hk]
          exact hG k hk
        · rw [List.map_append, List.map_congr_left hsame]
          simp
      · rintro ⟨G, ⟨hf, hG⟩, rfl⟩
        refine ⟨_, ih.2 ⟨G, hG, rfl⟩, ?_⟩
        rw [insertKeyed_of_not_mem (by rwa [map_key_of_grouped hk hG]), except_map_eq_ok_iff]
        exact ⟨_, hf, by simp⟩

/-- The items can be put together exactly when those of each key can be combined. -/
theorem insertAll_isOk_iff [Inhabited α] (hk : KeepsKey key combine fresh) {items : List α} :
    (∃ result, insertAll key combine fresh [] items = .ok result) ↔
      ∀ k ∈ keysOf key items, ∃ result, Combined combine fresh (itemsOf key k items) result := by
  simp only [insertAll_eq_ok_iff hk]
  constructor
  · rintro ⟨_, G, hG, -⟩ k hm
    exact ⟨G k, hG k hm⟩
  · intro h
    choose! G hG using h
    exact ⟨_, G, hG, rfl⟩

/-! ## What holds of every result -/

/-- The keys of the result are those of the items, each once. -/
theorem keys_of_insertAll [Inhabited α] (hk : KeepsKey key combine fresh) {items result : List α}
    (h : insertAll key combine fresh [] items = .ok result) :
    result.map key = keysOf key items := by
  obtain ⟨G, hG, rfl⟩ := (insertAll_eq_ok_iff hk).1 h
  exact map_key_of_grouped hk hG

/-- An item of the result is what the items of its key become. -/
theorem combined_of_mem_insertAll [Inhabited α] (hk : KeepsKey key combine fresh)
    {items result : List α} (h : insertAll key combine fresh [] items = .ok result) {a : α}
    (ha : a ∈ result) : Combined combine fresh (itemsOf key (key a) items) a := by
  obtain ⟨G, hG, rfl⟩ := (insertAll_eq_ok_iff hk).1 h
  obtain ⟨k, hkm, rfl⟩ := List.mem_map.1 ha
  rw [key_of_grouped hk hG k hkm]
  exact hG k hkm

theorem forall_mem_insertKeyed {P Q : α → Prop} {merged result : List α} {item : α}
    (h : insertKeyed key combine fresh merged item = .ok result) (hitem : P item)
    (hfresh : ∀ {a b}, P a → fresh a = .ok b → Q b)
    (hcombine : ∀ {a b c}, Q a → P b → combine a b = .ok c → Q c) (hmerged : ∀ a ∈ merged, Q a) :
    ∀ a ∈ result, Q a := by
  induction merged generalizing result with
  | nil =>
    obtain ⟨new, hnew, hr⟩ := except_bind_eq_ok_iff.1 h
    obtain rfl := Except.ok.inj hr
    simpa using hfresh hitem hnew
  | cons first rest ih =>
    rw [List.forall_mem_cons] at hmerged
    rw [insertKeyed] at h
    split at h
    · obtain ⟨new, hnew, hr⟩ := except_bind_eq_ok_iff.1 h
      obtain rfl := Except.ok.inj hr
      exact List.forall_mem_cons.2 ⟨hcombine hmerged.1 hitem hnew, hmerged.2⟩
    · obtain ⟨others, ho, hr⟩ := except_bind_eq_ok_iff.1 h
      obtain rfl := Except.ok.inj hr
      exact List.forall_mem_cons.2 ⟨hmerged.1, ih ho hmerged.2⟩

/-- A property that `fresh` establishes and `combine` keeps holds of the whole result. -/
theorem forall_mem_insertAll {P Q : α → Prop} {merged items result : List α}
    (h : insertAll key combine fresh merged items = .ok result) (hitems : ∀ a ∈ items, P a)
    (hfresh : ∀ {a b}, P a → fresh a = .ok b → Q b)
    (hcombine : ∀ {a b c}, Q a → P b → combine a b = .ok c → Q c) (hmerged : ∀ a ∈ merged, Q a) :
    ∀ a ∈ result, Q a := by
  unfold insertAll at h
  induction items generalizing merged with
  | nil => exact Except.ok.inj h ▸ hmerged
  | cons item items ih =>
    rw [List.forall_mem_cons] at hitems
    rw [List.foldlM_cons, except_bind_eq_ok_iff] at h
    obtain ⟨middle, hm, hr⟩ := h
    exact ih hr hitems.2 (forall_mem_insertKeyed hm hitems.1 hfresh hcombine hmerged)

theorem of_foldlM {P Q : α → Prop} {items : List α} {start result : α}
    (h : items.foldlM combine start = .ok result) (hitems : ∀ a ∈ items, P a) (hstart : Q start)
    (hcombine : ∀ {a b c}, Q a → P b → combine a b = .ok c → Q c) : Q result := by
  induction items generalizing start with
  | nil => exact Except.ok.inj h ▸ hstart
  | cons item items ih =>
    rw [List.forall_mem_cons] at hitems
    rw [List.foldlM_cons, except_bind_eq_ok_iff] at h
    obtain ⟨middle, hm, hr⟩ := h
    exact ih hr hitems.2 (hcombine hstart hitems.1 hm)

/-- What `fresh` establishes and `combine` keeps is true of what the items of a key become. -/
theorem of_combined {P Q : α → Prop} {items : List α} {result : α}
    (h : Combined combine fresh items result) (hitems : ∀ a ∈ items, P a)
    (hfresh : ∀ {a b}, P a → fresh a = .ok b → Q b)
    (hcombine : ∀ {a b c}, Q a → P b → combine a b = .ok c → Q c) : Q result := by
  cases items with
  | nil => exact h.elim
  | cons first others =>
    rw [List.forall_mem_cons] at hitems
    obtain ⟨start, hs, hr⟩ := h
    exact of_foldlM hr hitems.2 (hfresh hitems.1 hs) hcombine

/-- Items of new and different keys are put at the end as they are. -/
theorem insertAll_of_nodup {merged items : List α} (hd : ((merged ++ items).map key).Nodup)
    (hfresh : ∀ a ∈ items, fresh a = .ok a) :
    insertAll key combine fresh merged items = .ok (merged ++ items) := by
  unfold insertAll
  induction items generalizing merged with
  | nil => simp [pure, Except.pure]
  | cons item items ih =>
    have hm : key item ∉ merged.map key := by
      intro hm
      rw [List.map_append, List.nodup_append] at hd
      exact hd.2.2 _ hm _ (by simp) rfl
    have hitem : fresh item = .ok item := hfresh item List.mem_cons_self
    have hrest := @ih (merged ++ [item]) (by simpa using hd)
      fun a ha => hfresh a (List.mem_cons_of_mem _ ha)
    rw [List.foldlM_cons, insertKeyed_of_not_mem hm, hitem]
    exact hrest.trans (by simp)

/-! ## The first item that does not fit -/

theorem except_bind_eq_error_iff {ε β γ : Type} {x : Except ε β} {f : β → Except ε γ} {e : ε} :
    (x >>= f) = .error e ↔ x = .error e ∨ ∃ b, x = .ok b ∧ f b = .error e := by
  cases x <;> simp [bind, Except.bind]

theorem eq_error_of_bind_pure {ε β γ : Type} {x : Except ε β} {f : β → γ} {e : ε}
    (h : (x >>= fun b => pure (f b)) = .error e) : x = .error e :=
  (except_bind_eq_error_iff.1 h).resolve_right fun ⟨_, _, h⟩ => nomatch h

/-- Items are put in up to the first that cannot be. -/
theorem exists_of_insertAll_eq_error {merged items : List α} {e : Diagnostic}
    (h : insertAll key combine fresh merged items = .error e) :
    ∃ before item after state, items = before ++ item :: after ∧
      insertAll key combine fresh merged before = .ok state ∧
      insertKeyed key combine fresh state item = .error e := by
  unfold insertAll at h ⊢
  induction items generalizing merged with
  | nil => cases h
  | cons item items ih =>
    rw [List.foldlM_cons, except_bind_eq_error_iff] at h
    rcases h with h | ⟨middle, hm, h⟩
    · exact ⟨[], item, items, merged, rfl, rfl, h⟩
    · obtain ⟨before, last, after, state, rfl, hs, he⟩ := ih h
      exact ⟨item :: before, last, after, state, rfl, except_bind_eq_ok_iff.2 ⟨middle, hm, hs⟩, he⟩

/-- If items fail to fit, there is a first one that does. -/
theorem exists_of_insertAll_map_eq_error {β : Type} {f : β → α} {merged : List α} {items : List β}
    {e : Diagnostic} (h : insertAll key combine fresh merged (items.map f) = .error e) :
    ∃ before item after state, items = before ++ item :: after ∧
      insertAll key combine fresh merged (before.map f) = .ok state ∧
      insertKeyed key combine fresh state (f item) = .error e := by
  obtain ⟨before, _, after, state, hitems, hs, he⟩ := exists_of_insertAll_eq_error h
  obtain ⟨before, rest, rfl, rfl, hrest⟩ := List.map_eq_append_iff.1 hitems
  obtain ⟨item, after, rfl, rfl, -⟩ := List.map_eq_cons_iff.1 hrest
  exact ⟨before, item, after, state, rfl, hs, he⟩

/-- An item cannot be put in if it is not let in, or not combined with the item of its key. -/
theorem of_insertKeyed_eq_error {merged : List α} {item : α} {e : Diagnostic}
    (h : insertKeyed key combine fresh merged item = .error e) :
    (key item ∉ merged.map key ∧ fresh item = .error e) ∨
      ∃ entry ∈ merged, key entry = key item ∧ combine entry item = .error e := by
  induction merged with
  | nil => exact .inl ⟨by simp, eq_error_of_bind_pure h⟩
  | cons first rest ih =>
    rw [insertKeyed] at h
    split at h
    · next hkey =>
      exact .inr ⟨first, List.mem_cons_self, hkey, eq_error_of_bind_pure h⟩
    · next hkey =>
      refine (ih (eq_error_of_bind_pure h)).imp ?_ ?_
      · rintro ⟨hnew, hf⟩
        exact ⟨by simpa [Ne.symm hkey] using hnew, hf⟩
      · rintro ⟨entry, he, hc⟩
        exact ⟨entry, List.mem_cons_of_mem _ he, hc⟩

end Keyed

end SchemaMerge
