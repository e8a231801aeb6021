import SchemaMerge.Proofs.Merge.WellFormed
import SchemaMerge.Proofs.Reading.WellFormed
import SchemaMerge.Proofs.RoundTrip.Invariance

/-!
# Reading what was printed

Any document that was read can be printed and read again, in canonical form
(`ofText_print_of_ofText`). A merged document is printed as its canonical form is and stays merged
in it, so the text that merging gives is a fixed point of merging (`mergeText_mergeText`).
-/

namespace SchemaMerge

/-- **Reading undoes printing**, up to spans and what the canonical form leaves out. -/
theorem ofText_print_of_ofText {file text : String} {d : Document}
    (h : Document.ofText file text = .ok d)
    (hextension : ∀ type ∈ d.types, type.isExtension = false)
    (hschema : d.schemaBlocks.length ≤ 1) {unit : String} (hunit : IsIndent unit)
    (newFile : String) :
    ∃ e, Document.ofText newFile (d.print unit) = .ok e ∧
      withoutSpans e = withoutSpans d.canonical :=
  Document.ofText_print hunit (Document.wellFormed_of_ofText h) hextension hschema newFile

/-- A scalar with directives in ascending order, a second description and a comment. -/
theorem ofText_print_of_ofText_date :
    let date := { Document.empty with
      scalars := [⟨"Date", [⟨"a", [⟨"x", ["1"], false⟩], []⟩, ⟨"b", [], ["# second"]⟩],
        ["\"A day\"", "# or a date"], ["# since 2"], ⟨"a.graphql", ⟨2, 7, 27⟩, ⟨2, 11, 31⟩⟩⟩] }
    Document.ofText "a.graphql"
        "\"A day\"\n# or a date\nscalar Date @a(x: 01) @\n# second\nb # since 2" = .ok date ∧
      ∃ e, Document.ofText "b.graphql" (date.print "\t") = .ok e ∧
        withoutSpans e = withoutSpans date.canonical := by
  intro date
  have hread : Document.ofText "a.graphql"
      "\"A day\"\n# or a date\nscalar Date @a(x: 01) @\n# second\nb # since 2" = .ok date := by
    decide +kernel
  exact ⟨hread, ofText_print_of_ofText hread (by simp [date, Document.empty])
    (by simp [date, Document.empty]) (by simp [IsIndent]) "b.graphql"⟩

/-! ## Merging from texts -/

/-- A run over a list that succeeds does so at each element. -/
theorem forall₂_of_mapM {α β ε : Type} {f : α → Except ε β} {as : List α} {bs : List β}
    (h : as.mapM f = .ok bs) : List.Forall₂ (fun a b => f a = .ok b) as bs := by
  induction as generalizing bs with
  | nil => exact Except.ok.inj h ▸ .nil
  | cons a as ih =>
    rw [List.mapM_cons, except_bind_eq_ok_iff] at h
    obtain ⟨b, hb, h⟩ := h
    rw [except_bind_eq_ok_iff] at h
    obtain ⟨rest, hrest, h⟩ := h
    cases h
    exact .cons hb (ih hrest)

theorem mem_mapM_ok {α β ε : Type} {f : α → Except ε β} {as : List α} {bs : List β}
    (h : as.mapM f = .ok bs) : ∀ b ∈ bs, ∃ a ∈ as, f a = .ok b := by
  have hall := forall₂_of_mapM h
  clear h
  induction hall with
  | nil => exact List.forall_mem_nil _
  | cons hb _ ih =>
    refine List.forall_mem_cons.2 ⟨⟨_, List.mem_cons_self, hb⟩, fun c hc => ?_⟩
    obtain ⟨a, ha, hf⟩ := ih c hc
    exact ⟨a, List.mem_cons_of_mem _ ha, hf⟩

theorem mergeSources_eq_ok_iff {sources : List Source} {m : Document} :
    mergeSources sources = .ok m ↔
      ∃ documents, readSources sources = .ok documents ∧ Document.merge documents = .ok m :=
  except_bind_eq_ok_iff

theorem mergeText_eq_ok_iff {sources : List Source} {unit sdl : String} :
    mergeText sources unit = .ok sdl ↔
      ∃ m, mergeSources sources = .ok m ∧ m.print unit = sdl := by
  simp only [mergeText, except_bind_eq_ok_iff, pure, Except.pure, Except.ok.injEq]

theorem readSources_singleton {file text : String} {d : Document}
    (h : Document.ofText file text = .ok d) : readSources [⟨file, text⟩] = .ok [d] := by
  simp only [readSources, List.mapM_cons, List.mapM_nil, h]
  rfl

/-- What is merged from texts is well formed and merged. -/
theorem wellFormed_of_mergeSources {sources : List Source} {m : Document}
    (h : mergeSources sources = .ok m) : m.WellFormed ∧ m.Merged := by
  obtain ⟨documents, hread, hmerge⟩ := mergeSources_eq_ok_iff.1 h
  refine ⟨Document.wellFormed_of_merge hmerge fun d hd => ?_, merged_of_merge hmerge⟩
  obtain ⟨source, -, hsource⟩ := mem_mapM_ok hread d hd
  exact Document.wellFormed_of_ofText hsource

/-- **The text that merging gives is a fixed point of merging.** -/
theorem mergeText_mergeText {sources : List Source} {unit sdl : String} (hunit : IsIndent unit)
    (h : mergeText sources unit = .ok sdl) (file : String) :
    mergeText [⟨file, sdl⟩] unit = .ok sdl := by
  obtain ⟨m, hm, rfl⟩ := mergeText_eq_ok_iff.1 h
  obtain ⟨hwell, hmerged⟩ := wellFormed_of_mergeSources hm
  obtain ⟨e, hread, he⟩ := Document.ofText_print hunit hwell hmerged.extensions
    hmerged.schemaBlocks file
  have hemerged : e.Merged := by
    rw [← Document.merged_withoutSpans, he, Document.merged_withoutSpans]
    exact hmerged.canonical
  have hprint : e.print unit = m.print unit :=
    calc e.print unit = (withoutSpans e).print unit := (e.print_withoutSpans unit).symm
      _ = (withoutSpans m.canonical).print unit := by rw [he]
      _ = m.canonical.print unit := Document.print_withoutSpans unit _
      _ = m.print unit := Document.print_canonical unit hmerged.schemaBlocks
  exact mergeText_eq_ok_iff.2 ⟨e, mergeSources_eq_ok_iff.2
    ⟨[e], readSources_singleton hread, merge_of_merged hemerged⟩, hprint⟩

/-- Two files, one of which extends what the other defines. -/
theorem mergeText_mergeText_query :
    let sources : List Source :=
      [⟨"a.graphql", "scalar Date extend type Query @b(x: 01) # later"⟩,
        ⟨"b.graphql", "# the root\ntype Query implements Node directive @b(x: [Int!]) on OBJECT"⟩]
    let sdl := "directive @b(x: [Int!]) on OBJECT\n\n" ++
      "# the root\ntype Query implements Node @b(x: 1) # later\n\nscalar Date\n"
    mergeText sources "  " = .ok sdl ∧ mergeText [⟨"c.graphql", sdl⟩] "  " = .ok sdl := by
  intro sources sdl
  have hmerge : mergeText sources "  " = .ok sdl := by decide +kernel
  exact ⟨hmerge, mergeText_mergeText (by simp [IsIndent]) hmerge "c.graphql"⟩

end SchemaMerge
