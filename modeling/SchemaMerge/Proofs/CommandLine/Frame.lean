import Mathlib.Data.List.Forall2
import SchemaMerge.CommandLine.Run
import SchemaMerge.Proofs.FileTree.Discovery
import SchemaMerge.Proofs.FileTree.Writing
import SchemaMerge.Proofs.RoundTrip.FixedPoint

/-!
# What running a command leaves as it was

On a lawful host, `check` changes nothing. A `merge` that fails leaves all files as they were; it
may have made directories for its output. A `merge` that succeeds changes the file that its output
leads to and no other; that file then holds the printed document of the files as they were before
(`Command.run_frame`).
-/

namespace SchemaMerge

variable {State File : Type} {host : Host (StateM State)} {view : FileView State File}
  {state : State} {paths extensions : List String} {output text : String}

/-! ## Loading -/

/-- The document that the schema files under some paths merge to: each of them is read, in the order
in which they are found, with the text that it has in the state. -/
def FileView.MergesTo (view : FileView State File) (host : Host (StateM State)) (state : State)
    (paths extensions : List String) (document : Document) : Prop :=
  ∃ files sources, (host.findSchemaFiles paths extensions state).1 = .ok files ∧
    List.Forall₂ (fun path source => source.file = path ∧
      ∃ file, view.Denotes state path file ∧
        view.content? state file = some source.text.toUTF8) files sources ∧
    mergeSources sources = .ok document

theorem readSources?_eq (h : host.Lawful view) (paths : List String) (state : State) :
    readSources? host paths state =
      (paths.mapM fun path => sourceOf path (host.readText path state).1, state) := by
  have hread (path : String) (state : State) : readSource? host path state =
      (sourceOf path (host.readText path state).1, state) :=
    bind_of_keeps (h.keeps_readText path) _ state
  have hkeeps (path : String) : Keeps (readSource? host path) := fun state => by rw [hread]
  unfold readSources?
  rw [bind_of_keeps (keeps_mapM hkeeps paths), mapM_of_keeps hkeeps]
  simp only [hread]
  show (List.mapM id (paths.map _), state) = _
  rw [List.mapM_map]
  rfl

theorem source_of_sourceOf {path : String} {result : Except String String} {source : Source}
    (h : sourceOf path result = .ok source) : source.file = path ∧ result = .ok source.text := by
  cases result with
  | error message => cases h
  | ok text =>
    cases h
    exact ⟨rfl, rfl⟩

theorem document_of_mergeTask {brokenTask : String} {sources : List Source} {schema : MergedSchema}
    (h : mergeTask brokenTask sources = .ok schema) :
    mergeSources sources = .ok schema.document := by
  unfold mergeTask at h
  split at h
  · split at h <;> cases h
  · next document hdocument =>
    cases h
    exact hdocument

/-- Loading changes nothing, and what it gives is what the files of the state merge to. -/
theorem loadMerged_spec (h : host.Lawful view) (hvalid : view.Valid state)
    (paths extensions : List String) :
    ∃ result, loadMerged host paths extensions state = (result, state) ∧
      ∀ schema, result = .ok schema →
        view.MergesTo host state paths extensions schema.document := by
  unfold loadMerged
  rw [bind_of_keeps (h.keeps_findSchemaFiles paths extensions)]
  cases hfiles : (host.findSchemaFiles paths extensions state).1 with
  | error fault => exact ⟨.error fault.message, rfl, nofun⟩
  | ok files =>
    have hkeeps : Keeps (readSources? host files) := fun state => by rw [readSources?_eq h]
    dsimp only
    rw [bind_of_keeps hkeeps, readSources?_eq h]
    cases hsources : files.mapM fun path => sourceOf path (host.readText path state).1 with
    | error message => exact ⟨.error message, rfl, nofun⟩
    | ok sources =>
      refine ⟨mergeTask host.brokenTask sources, rfl, fun schema hschema => ?_⟩
      refine ⟨files, sources, hfiles, ?_, document_of_mergeTask hschema⟩
      refine (forall₂_of_mapM hsources).imp fun path source hsource => ?_
      obtain ⟨hpath, hread⟩ := source_of_sourceOf hsource
      exact ⟨hpath, h.readText_ok hvalid hread⟩

/-! ## Writing -/

/-- An attempt to write behind a step that changes no file ends as one from before the step. -/
theorem writeEnds_of_same {between : State} {attempt : Except String Unit × State}
    (hsame : view.Same state between)
    (hdenotes : ∀ old, view.Denotes state output old → view.Denotes between output old)
    (h : view.WriteEnds output text between attempt) :
    view.WriteEnds output text state attempt := by
  obtain ⟨_ | ⟨⟩, after⟩ := attempt
  · exact fun file => (h file).trans (hsame file)
  · obtain ⟨file, hstores⟩ := h
    exact ⟨file, hstores.denotes, hstores.content?_eq,
      fun old hold => hstores.eq_of_denotes old (hdenotes old hold),
      fun other hother => (hstores.others other hother).trans (hsame other)⟩

/-- Directories may be made before a text is written, which changes no file. -/
theorem writeOutput_spec (h : host.Lawful view) (hvalid : view.Valid state) (output text : String) :
    view.WriteEnds output text state (writeOutput host output text state) := by
  unfold writeOutput
  cases hparent : (Path.parent? output).filter fun parent => !parent.isEmpty with
  | none => exact h.writeText_ends hvalid
  | some parent =>
    obtain ⟨hbetween, hsame, hdenotes⟩ := h.createDirectories_frame hvalid
    rcases hmade : host.createDirectories parent state with ⟨made, between⟩
    rw [hmade] at hbetween hsame hdenotes
    dsimp only
    rw [bind_of_eq hmade]
    cases made with
    | error message => exact hsame
    | ok => exact writeEnds_of_same hsame (hdenotes output) (h.writeText_ends hbetween)

/-! ## Running -/

/-- **A command touches no file but the output of a merge that succeeds.** -/
theorem Command.run_frame (h : host.Lawful view) (hvalid : view.Valid state) :
    (∀ inputs extensions, ((Command.check inputs extensions).run host state).2 = state) ∧
    ∀ inputs output extensions indent,
      match (Command.merge inputs output extensions indent).run host state with
      | (.success _, after) => ∃ document unit file,
        view.MergesTo host state inputs extensions document ∧ indent.unit? = some unit ∧
          view.Stores output (document.print unit) file state after
      | (_, after) => view.Same state after := by
  constructor
  · intro inputs extensions
    obtain ⟨result, hload, -⟩ := loadMerged_spec h hvalid inputs extensions
    simp only [run]
    rw [bind_of_eq hload]
    cases result <;> rfl
  · intro inputs output extensions indent
    obtain ⟨result, hload, hmerges⟩ := loadMerged_spec h hvalid inputs extensions
    simp only [run]
    rw [bind_of_eq hload]
    cases result with
    | error message => exact fun _ => rfl
    | ok schema =>
      unfold writeMerged
      cases hunit : indent.unit? with
      | none => exact fun _ => rfl
      | some unit =>
        have hspec := writeOutput_spec h hvalid output (schema.document.print unit)
        rcases hwrite : writeOutput host output (schema.document.print unit) state with
          ⟨written, after⟩
        rw [hwrite] at hspec
        dsimp only
        rw [bind_of_eq hwrite]
        cases written with
        | error message => exact hspec
        | ok =>
          obtain ⟨file, hstores⟩ := hspec
          exact ⟨schema.document, unit, file, hmerges schema rfl, rfl, hstores⟩

/-- A merge into its own input: what is written is what the file held before, merged. -/
theorem Command.run_frame_in_place :
    let tree : FileTree := ⟨.directory [("a.graphql", .file "scalar A # x\nscalar A".toUTF8)], []⟩
    FileTree.host.Lawful FileTree.view ∧ FileTree.view.Valid tree ∧
      ∃ message document file after,
        (merge ["a.graphql"] "a.graphql" standardExtensions .standard).run FileTree.host tree =
          (.success message, after) ∧
        FileTree.view.MergesTo FileTree.host tree ["a.graphql"] standardExtensions document ∧
        FileTree.view.Stores "a.graphql" (document.print "    ") file tree after := by
  intro tree
  have hcwd : FileTree.view.Valid tree := by
    simp [FileTree.view, FileTree.StandsInDirectory, tree, FileNode.kind?, FileNode.kind]
  have hpath : Path.accepted "a.graphql" = .ok ⟨false, ["a.graphql"], false⟩ := by decide +kernel
  have henter : tree.root.enter maxLinks [] [] = .ok ([], maxLinks) := by simp [FileNode.enter]
  have hresolve (follow : Bool) : tree.resolve follow "a.graphql" =
      .ok ⟨["a.graphql"], .file "scalar A # x\nscalar A".toUTF8⟩ := by
    unfold FileTree.resolve
    rw [hpath]
    exact @locate_of_enter _ _ _ _ _ _ ⟨false, ["a.graphql"], false⟩ _ rfl henter
  have hfound : FileTree.host.findSchemaFiles ["a.graphql"] standardExtensions tree =
      (.ok ["a.graphql"], tree) := by
    have hwalk : tree.walk "a.graphql" = [.entry "a.graphql" .file] := by
      simp [FileTree.walk, hresolve, FileTree.walkFrom]
    have hextension : ["a.graphql"].filter
        (hasExtension (normalizeExtensions standardExtensions)) = ["a.graphql"] := by
      decide +kernel
    have hfiles : (["a.graphql"].flatMap tree.walk).filterMap Visit.file? = ["a.graphql"] := by
      simp [hwalk, Visit.file?]
    have hfaults : (["a.graphql"].flatMap tree.walk).filterMap Visit.fault? = [] := by
      simp [hwalk, Visit.fault?]
    obtain ⟨hsome, -⟩ :=
      @FileTree.findSchemaFilesBy_of_flatMap tree _ _ _ _ hfiles hfaults _ _ rfl hextension
    unfold Host.findSchemaFiles
    rw [findSchemaFilesBy_of_keeps (fun _ _ => rfl) (fun _ _ => rfl)]
    exact congrArg (·, tree) (hsome (by simp))
  have hread : FileTree.host.readText "a.graphql" tree = (.ok "scalar A # x\nscalar A", tree) := by
    have hutf8 : String.fromUTF8? "scalar A # x\nscalar A".toUTF8 =
        some "scalar A # x\nscalar A" := dif_pos (String.isValidUTF8 _)
    simp only [FileTree.host, FileTree.readText, hresolve, hutf8]
    rfl
  obtain ⟨schema, hload⟩ : ∃ schema,
      loadMerged FileTree.host ["a.graphql"] standardExtensions tree = (.ok schema, tree) := by
    have hmerge : (mergeSources [⟨"a.graphql", "scalar A # x\nscalar A"⟩]).isOk = true := by
      decide +kernel
    cases hdocument : mergeSources [⟨"a.graphql", "scalar A # x\nscalar A"⟩] with
    | error => simp [hdocument, Except.isOk, Except.toBool] at hmerge
    | ok document =>
      refine ⟨⟨document, 1⟩, ?_⟩
      have hsources : readSources? FileTree.host ["a.graphql"] tree =
          (.ok [⟨"a.graphql", "scalar A # x\nscalar A"⟩], tree) := by
        rw [readSources?_eq FileTree.lawful_host]
        simp [hread, sourceOf]
      unfold loadMerged
      rw [bind_of_eq hfound]
      dsimp only
      rw [bind_of_eq hsources]
      simp only [mergeTask, hdocument]
      rfl
  have hwrite (text : String) : FileTree.host.writeText "a.graphql" text tree =
      (.ok (), tree.put ["a.graphql"] (.file text.toUTF8)) := by
    have hstart : tree.start ⟨false, ["a.graphql"], false⟩ = [] := rfl
    have hlocation : tree.root.fileLocation maxLinks [] ⟨false, ["a.graphql"], false⟩ =
        .ok ["a.graphql"] := by
      rw [FileNode.fileLocation]
      dsimp only [List.getLast?_singleton]
      split
      · next fault h => cases henter.symm.trans h
      · next trail left h =>
        cases henter.symm.trans h
        rfl
    simp only [FileTree.host, FileTree.writeFile, hpath, hstart, hlocation, FileTree.afterWriting]
  have hunit : IndentPattern.standard.unit? = some "    " := by decide
  have hparent : (Path.parent? "a.graphql").filter (fun parent => !parent.isEmpty) = none := by
    decide +kernel
  have hrun : (merge ["a.graphql"] "a.graphql" standardExtensions .standard).run
      FileTree.host tree = (.success (mergeReport schema "a.graphql"),
        tree.put ["a.graphql"] (.file (schema.document.print "    ").toUTF8)) := by
    simp only [run]
    rw [bind_of_eq hload]
    simp only [writeMerged, hunit, writeOutput, hparent]
    rw [bind_of_eq (hwrite _)]
    rfl
  have hframe := (Command.run_frame FileTree.lawful_host hcwd).2 ["a.graphql"] "a.graphql"
    standardExtensions .standard
  rw [hrun] at hframe
  obtain ⟨document, unit, file, hmerges, hsome, hstores⟩ := hframe
  cases hunit.symm.trans hsome
  exact ⟨FileTree.lawful_host, hcwd, _, document, file, _, hrun, hmerges, hstores⟩

end SchemaMerge
