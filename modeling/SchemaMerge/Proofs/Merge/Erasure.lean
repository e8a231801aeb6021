import Mathlib.Data.List.Forall2
import SchemaMerge.Merge.Documents
import SchemaMerge.Proofs.Merge.BlockReduction
import SchemaMerge.Proofs.Merge.Types

/-!
# What merging does not see

Some of what documents hold decides nothing when they are merged. An `Erasure` removes such parts
from every kind of definition, in a way that comparing, normalizing, absorbing and folding do not
notice. Documents that are the same once these parts are erased are then merged to documents that
are, or fail for one cause (`Erasure.concur_merge`).

Two results `Concur` if both are values that are related, or both are diagnostics of one cause. Each
part of merging is followed on both sides at once, with one rule for each way to go on.
-/

namespace SchemaMerge

open Node

/-! ## Results that concur -/

/-- Both succeed with values that are related, or both fail for the same cause. -/
inductive Concur {α β : Type} (r : α → β → Prop) : Except Diagnostic α → Except Diagnostic β → Prop
  | ok {a : α} {b : β} : r a b → Concur r (.ok a) (.ok b)
  | error {d e : Diagnostic} : d.cause = e.cause → Concur r (.error d) (.error e)

section

variable {α β γ δ σ τ : Type} {r : α → β → Prop}

/-- Steps that concur, taken from results that concur, lead to results that concur. -/
theorem Concur.bind {x : Except Diagnostic α} {y : Except Diagnostic β}
    {f : α → Except Diagnostic γ} {g : β → Except Diagnostic δ} {q : γ → δ → Prop}
    (h : Concur r x y) (hf : ∀ a b, r a b → Concur q (f a) (g b)) :
    Concur q (x >>= f) (y >>= g) := by
  cases h with
  | ok h => exact hf _ _ h
  | error h => exact .error h

/-- Results that concur are the same outcome, if nothing that distinguishes the values is read off
them. -/
theorem Concur.mapError_map_eq {x : Except Diagnostic α} {y : Except Diagnostic β} {f : α → γ}
    {g : β → γ} (h : Concur r x y) (hfg : ∀ a b, r a b → f a = g b) :
    (x.map f).mapError Diagnostic.cause = (y.map g).mapError Diagnostic.cause := by
  cases h with
  | ok h => exact congrArg Except.ok (hfg _ _ h)
  | error h => exact congrArg Except.error h

/-- Runs over lists of related members concur if their steps do. -/
theorem concur_foldlM {q : σ → τ → Prop} {f : σ → α → Except Diagnostic σ}
    {g : τ → β → Except Diagnostic τ} (hf : ∀ s t a b, q s t → r a b → Concur q (f s a) (g t b))
    {as : List α} {bs : List β} (h : List.Forall₂ r as bs) {s : σ} {t : τ} (hst : q s t) :
    Concur q (as.foldlM f s) (bs.foldlM g t) := by
  induction h generalizing s t with
  | nil => exact .ok hst
  | cons hab _ ih => exact (hf _ _ _ _ hst hab).bind fun _ _ => ih

/-- Inserting by key concurs if related members have one key and their combinations concur. -/
theorem concur_insertKeyed {r : α → α → Prop} {key : α → String}
    {combine : α → α → Except Diagnostic α} {fresh : α → Except Diagnostic α}
    (hkey : ∀ a b, r a b → key a = key b)
    (hcombine : ∀ a a' b b', r a a' → r b b' → Concur r (combine a b) (combine a' b'))
    (hfresh : ∀ a b, r a b → Concur r (fresh a) (fresh b)) {as bs : List α} {a b : α}
    (h : List.Forall₂ r as bs) (hab : r a b) :
    Concur (List.Forall₂ r) (insertKeyed key combine fresh as a)
      (insertKeyed key combine fresh bs b) := by
  induction h with
  | nil => exact (hfresh a b hab).bind fun _ _ hnew => .ok (.cons hnew .nil)
  | @cons first first' rest rest' hfirst hrest ih =>
    rw [insertKeyed, insertKeyed, hkey _ _ hfirst, hkey _ _ hab]
    split
    · exact (hcombine _ _ _ _ hfirst hab).bind fun _ _ hnew => .ok (.cons hnew hrest)
    · exact ih.bind fun _ _ hnew => .ok (.cons hfirst hnew)

end

/-! ## Parts of nodes that are not seen -/

/-- Nodes are compared, normalized and absorbed without regard to what is erased. -/
class Unseen {α : Type} [Node α] (erase : α → α) : Prop where
  sameStructure_erase (a b : α) : sameStructure (erase a) (erase b) = sameStructure a b
  normalize_erase (a : α) : normalize (erase a) = erase (normalize a)
  absorb_erase (a b : α) : absorb (erase a) (erase b) = erase (absorb a b)

/-- Nor is the name of a definition erased. -/
class UnseenDefinition {α : Type} [Definition α] (erase : α → α) : Prop extends Unseen erase where
  name_erase (a : α) : Definition.name (erase a) = Definition.name a

/-- The two differ at most in what is erased. -/
def SameUpTo {α : Type} (erase : α → α) (a b : α) : Prop := erase a = erase b

/-- Lists are the same up to an erasure member by member. -/
theorem forall₂_sameUpTo_iff {α : Type} {erase : α → α} {as bs : List α} :
    List.Forall₂ (SameUpTo erase) as bs ↔ as.map erase = bs.map erase := by
  rw [← List.forall₂_eq_eq_eq, List.forall₂_map_left_iff, List.forall₂_map_right_iff]
  rfl

section Members

variable {α : Type} [Node α] (erase : α → α) [Unseen erase]

/-- Comparing lists does not see what is erased. -/
theorem sameStructures_map_erase (as bs : List α) :
    sameStructures (as.map erase) (bs.map erase) = sameStructures as bs := by
  induction as generalizing bs with
  | nil => cases bs <;> rfl
  | cons a as ih =>
    cases bs with
    | nil => rfl
    | cons b bs => exact congrArg₂ (· && ·) (Unseen.sameStructure_erase a b) (ih bs)

theorem map_normalize_map_erase (as : List α) :
    (as.map erase).map normalize = (as.map normalize).map erase := by
  simp only [List.map_map, Function.comp_def, Unseen.normalize_erase]

/-- What is erased first and absorbed then is what is absorbed first and erased then. -/
theorem absorbPairwise_map_erase (as bs : List α) :
    absorbPairwise (as.map erase) (bs.map erase) = (absorbPairwise as bs).map erase := by
  induction as generalizing bs with
  | nil => rfl
  | cons a as ih =>
    cases bs with
    | nil => rfl
    | cons b bs => exact congrArg₂ List.cons (Unseen.absorb_erase a b) (ih bs)

end Members

/-! ## Definitions -/

section Definitions

variable {α : Type} [Definition α] {erase : α → α} [UnseenDefinition erase]

namespace SameUpTo

variable {a a' b b' : α}

theorem name_eq (h : SameUpTo erase a a') : Definition.name a = Definition.name a' := by
  rw [← @UnseenDefinition.name_erase _ _ erase _ a, h, UnseenDefinition.name_erase]

theorem sameStructure_eq (ha : SameUpTo erase a a') (hb : SameUpTo erase b b') :
    sameStructure a b = sameStructure a' b' := by
  rw [← @Unseen.sameStructure_erase _ _ erase _ a, ha, hb, Unseen.sameStructure_erase]

theorem normalize (h : SameUpTo erase a a') :
    SameUpTo erase (Node.normalize a) (Node.normalize a') := by
  rw [SameUpTo, ← @Unseen.normalize_erase _ _ erase, h, Unseen.normalize_erase]

theorem absorb (ha : SameUpTo erase a a') (hb : SameUpTo erase b b') :
    SameUpTo erase (Node.absorb a b) (Node.absorb a' b') := by
  rw [SameUpTo, ← @Unseen.absorb_erase _ _ erase, ha, hb, Unseen.absorb_erase]

end SameUpTo

theorem cause_duplicateDefinition (category : Category) (name : String) (earlier later : Span) :
    (Diagnostic.duplicateDefinition category name earlier later).cause =
      .conflict (.duplicateDefinition category name) := rfl

/-- Uniting two definitions concurs: they are comparable on both sides or on none, and then the
names in the conflict are the same. -/
theorem concur_unify (category : Category) (label : String) {a a' b b' : α}
    (ha : SameUpTo erase a a') (hb : SameUpTo erase b b') :
    Concur (SameUpTo erase) (unify category label a b) (unify category label a' b') := by
  rw [unify, unify, ha.sameStructure_eq hb]
  split
  · exact .ok (ha.absorb hb)
  · exact .error (by simp only [cause_duplicateDefinition])

/-- So does uniting the definitions of a category. -/
theorem concur_deduplicate (category : Category) {as bs : List α}
    (h : List.Forall₂ (SameUpTo erase) as bs) :
    Concur (List.Forall₂ (SameUpTo erase)) (deduplicate category as)
      (deduplicate category bs) := by
  refine concur_foldlM (fun merged merged' a b hmerged hab => ?_) h .nil
  refine concur_insertKeyed (r := SameUpTo erase) (fun _ _ hc => hc.name_eq)
    (fun c c' d d' hc hd => ?_) (fun _ _ hc => .ok hc) hmerged hab.normalize
  rw [hc.name_eq]
  exact concur_unify category _ hc hd

end Definitions

/-! ## Schema blocks -/

/-- An erasure that leaves the types that a block names. -/
def KeepsRootTypes (erase : SchemaBlock → SchemaBlock) : Prop :=
  ∀ block operation, (erase block).rootType? operation = block.rootType? operation

section SchemaBlocks

variable {erase : SchemaBlock → SchemaBlock} {bs bs' earlier earlier' : List SchemaBlock}
  {b b' : SchemaBlock}

theorem SameUpTo.rootType?_eq (he : KeepsRootTypes erase) (h : SameUpTo erase b b')
    (operation : RootOperation) : b.rootType? operation = b'.rootType? operation := by
  rw [← he b, h, he b']

/-- The blocks that first name a type for an operation stand at the same place of both lists, and
name the same type. -/
theorem type_firstNaming_eq (he : KeepsRootTypes erase) (operation : RootOperation)
    (h : List.Forall₂ (SameUpTo erase) bs bs') :
    (firstNaming operation bs).map Prod.snd = (firstNaming operation bs').map Prod.snd := by
  induction h with
  | nil => rfl
  | @cons b b' bs bs' hb _ ih =>
    rw [firstNaming, firstNaming, hb.rootType?_eq he]
    cases b'.rootType? operation with
    | some type => rfl
    | none => exact ih

theorem cause_rootOperationMismatch (operation : RootOperation) (first second : String)
    (earlier later : Span) :
    (Diagnostic.rootOperationMismatch operation first second earlier later).cause =
      .conflict (.rootOperationMismatch operation.key first second) := rfl

/-- A block is in conflict with the earlier ones on both sides, for the same cause, or on none. -/
theorem cause_blockConflict?_eq (he : KeepsRootTypes erase) (operation : RootOperation)
    (hearlier : List.Forall₂ (SameUpTo erase) earlier earlier') (hb : SameUpTo erase b b') :
    (blockConflict? earlier b operation).map Diagnostic.cause =
      (blockConflict? earlier' b' operation).map Diagnostic.cause := by
  have htype := type_firstNaming_eq he operation hearlier
  simp only [blockConflict?, hb.rootType?_eq he, Option.bind_eq_bind]
  cases b'.rootType? operation with
  | none => simp only [Option.bind_none]
  | some second =>
    cases h : firstNaming operation earlier with
    | none =>
      cases h' : firstNaming operation earlier' with
      | none => simp only [Option.bind_some, Option.bind_none]
      | some => simp [h, h'] at htype
    | some origin =>
      cases h' : firstNaming operation earlier' with
      | none => simp [h, h'] at htype
      | some origin' =>
        obtain ⟨_, first⟩ := origin
        obtain ⟨_, first'⟩ := origin'
        obtain rfl : first = first' := by simpa [h, h'] using htype
        simp only [Option.bind_some]
        split
        · rfl
        · simp only [Option.map_some, cause_rootOperationMismatch]

theorem cause_findSome?_eq {f g : RootOperation → Option Diagnostic}
    (h : ∀ operation, (f operation).map Diagnostic.cause = (g operation).map Diagnostic.cause)
    (operations : List RootOperation) :
    (operations.findSome? f).map Diagnostic.cause =
      (operations.findSome? g).map Diagnostic.cause := by
  induction operations with
  | nil => rfl
  | cons operation operations ih =>
    have hfirst := h operation
    rw [List.findSome?_cons, List.findSome?_cons]
    cases hf : f operation <;> cases hg : g operation <;> simp_all

/-- The first conflicts of two lists of related blocks have the same cause. -/
theorem cause_firstConflict?_eq (he : KeepsRootTypes erase)
    (hearlier : List.Forall₂ (SameUpTo erase) earlier earlier')
    (h : List.Forall₂ (SameUpTo erase) bs bs') :
    (firstConflict? earlier bs).map Diagnostic.cause =
      (firstConflict? earlier' bs').map Diagnostic.cause := by
  induction h generalizing earlier earlier' with
  | nil => rfl
  | @cons b b' bs bs' hb _ ih =>
    have hfirst := cause_findSome?_eq
      (fun operation => cause_blockConflict?_eq he operation hearlier hb) RootOperation.all
    rw [firstConflict?, firstConflict?]
    have hnext := ih (List.rel_append hearlier (.cons hb .nil))
    cases hf : RootOperation.all.findSome? (blockConflict? earlier b) <;>
      cases hg : RootOperation.all.findSome? (blockConflict? earlier' b') <;> simp_all

/-- The block that several blocks become, if there are any. -/
theorem concur_reduceSchemaBlocks (he : KeepsRootTypes erase)
    (hunite : ∀ {b b' bs bs'}, SameUpTo erase b b' → List.Forall₂ (SameUpTo erase) bs bs' →
      SameUpTo erase (uniteBlocks b bs) (uniteBlocks b' bs'))
    (h : List.Forall₂ (SameUpTo erase) bs bs') :
    Concur (fun block block' => List.Forall₂ (SameUpTo erase) block.toList block'.toList ∧
        rootTypeNames block = rootTypeNames block')
      (reduceSchemaBlocks bs) (reduceSchemaBlocks bs') := by
  cases h with
  | nil => exact .ok ⟨.nil, rfl⟩
  | @cons b b' bs bs' hb hbs =>
    have hconflict := cause_firstConflict?_eq he (.cons hb .nil) hbs
    rw [reduceSchemaBlocks_cons, reduceSchemaBlocks_cons]
    cases hf : firstConflict? [b] bs with
    | some conflict =>
      cases hg : firstConflict? [b'] bs' with
      | some => exact .error (by simpa [hf, hg] using hconflict)
      | none => simp [hf, hg] at hconflict
    | none =>
      cases hg : firstConflict? [b'] bs' with
      | some => simp [hf, hg] at hconflict
      | none =>
        have hunited := hunite hb hbs
        refine .ok ⟨.cons hunited .nil, ?_⟩
        simp only [rootTypeNames, Option.bind_some, hunited.rootType?_eq he]

end SchemaBlocks

/-! ## Erasures of documents -/

/-- Parts of all kinds of definitions that decide nothing in merging. -/
structure Erasure where
  block : SchemaBlock → SchemaBlock
  field : Field → Field
  directiveDefinition : DirectiveDefinition → DirectiveDefinition
  scalar : ScalarDefinition → ScalarDefinition
  enum : EnumDefinition → EnumDefinition
  fieldsDefinition : FieldsDefinition → FieldsDefinition
  union : UnionDefinition → UnionDefinition
  type : TypeDefinition → TypeDefinition
  block_keeps : KeepsRootTypes block
  block_unite : ∀ {b b' : SchemaBlock} {bs bs' : List SchemaBlock}, SameUpTo block b b' →
    List.Forall₂ (SameUpTo block) bs bs' → SameUpTo block (uniteBlocks b bs) (uniteBlocks b' bs')
  field_unseen : UnseenDefinition field
  directiveDefinition_unseen : UnseenDefinition directiveDefinition
  scalar_unseen : UnseenDefinition scalar
  enum_unseen : UnseenDefinition enum
  fieldsDefinition_unseen : UnseenDefinition fieldsDefinition
  union_unseen : UnseenDefinition union
  type_unseen : UnseenDefinition type
  fields_type : ∀ t, (type t).fields = t.fields.map field
  isExtension_type : ∀ t, (type t).isExtension = t.isExtension
  type_addFragment : ∀ t u fields,
    type (t.addFragment u fields) = (type t).addFragment (type u) (fields.map field)

namespace Erasure

attribute [instance] field_unseen directiveDefinition_unseen scalar_unseen enum_unseen
  fieldsDefinition_unseen union_unseen type_unseen

variable (ε : Erasure)

/-- The document with the parts erased in all definitions. -/
def document (d : Document) : Document where
  schemaBlocks := d.schemaBlocks.map ε.block
  directiveDefinitions := d.directiveDefinitions.map ε.directiveDefinition
  scalars := d.scalars.map ε.scalar
  enums := d.enums.map ε.enum
  interfaces := d.interfaces.map ε.fieldsDefinition
  unions := d.unions.map ε.union
  inputs := d.inputs.map ε.fieldsDefinition
  types := d.types.map ε.type

/-- Erasing acts on each category of definitions, so it does not matter whether documents are joined
before. -/
theorem document_concat (documents : List Document) :
    ε.document (Document.concat documents) = Document.concat (documents.map ε.document) := by
  have happend (d e : Document) : (ε.document d).append (ε.document e) = ε.document (d.append e) :=
    (Document.mk.injEq ..).mpr (by simp only [document, Document.append, List.map_append, and_self])
  rw [Document.concat, Document.concat, List.foldl_map]
  exact (List.foldl_hom ε.document happend).symm

/-! ### Types -/

section Types

variable {ε} {t t' u u' : TypeDefinition}

theorem name_eq (h : SameUpTo ε.type t t') : t.name = t'.name := h.name_eq

theorem isExtension_eq (h : SameUpTo ε.type t t') : t.isExtension = t'.isExtension := by
  rw [← ε.isExtension_type t, h, ε.isExtension_type]

theorem forall₂_fields (h : SameUpTo ε.type t t') :
    List.Forall₂ (SameUpTo ε.field) t.fields t'.fields := by
  rw [forall₂_sameUpTo_iff, ← ε.fields_type t, h, ε.fields_type]

theorem concur_uniteFields (type : String) {as as' bs bs' : List Field}
    (has : List.Forall₂ (SameUpTo ε.field) as as') (hbs : List.Forall₂ (SameUpTo ε.field) bs bs') :
    Concur (List.Forall₂ (SameUpTo ε.field)) (uniteFields type as bs)
      (uniteFields type as' bs') := by
  refine concur_foldlM (fun merged merged' a b hmerged hab => ?_) hbs has
  have hname {a b : Field} (h : SameUpTo ε.field a b) : a.name = b.name := h.name_eq
  refine concur_insertKeyed (r := SameUpTo ε.field) (fun _ _ => hname)
    (fun c c' d d' hc hd => ?_) (fun _ _ hc => .ok hc) hmerged hab
  rw [hname hc]
  exact concur_unify _ _ hc hd

/-- Folding an extension into a type concurs: the fields concur, and all else is joined. -/
theorem concur_fold (ht : SameUpTo ε.type t t') (hu : SameUpTo ε.type u u') :
    Concur (SameUpTo ε.type) (t.fold u) (t'.fold u') := by
  have hname := name_eq ht
  rw [fold_eq_bind, fold_eq_bind, hname]
  refine (concur_uniteFields _ (forall₂_fields ht) (forall₂_fields hu)).bind fun fs gs hfs => .ok ?_
  have hfields : fs.map ε.field = gs.map ε.field := forall₂_sameUpTo_iff.1 hfs
  calc ε.type (t.addFragment u fs)
      = (ε.type t).addFragment (ε.type u) (fs.map ε.field) := ε.type_addFragment t u fs
    _ = (ε.type t').addFragment (ε.type u') (gs.map ε.field) := by rw [ht, hu, hfields]
    _ = ε.type (t'.addFragment u' gs) := (ε.type_addFragment t' u' gs).symm

theorem concur_unite (roots : List String) (ht : SameUpTo ε.type t t') (hu : SameUpTo ε.type u u') :
    Concur (SameUpTo ε.type) (t.unite roots u) (t'.unite roots u') := by
  rw [TypeDefinition.unite, TypeDefinition.unite, name_eq hu, isExtension_eq hu]
  split
  · exact concur_fold ht hu
  · rw [name_eq ht]
    exact concur_unify _ _ ht hu

theorem concur_asBase (h : SameUpTo ε.type t t') : Concur (SameUpTo ε.type) t.asBase t'.asBase := by
  rw [TypeDefinition.asBase, TypeDefinition.asBase, isExtension_eq h]
  split
  · exact .error (congrArg (fun name => Cause.conflict (.extensionWithoutBase name)) (name_eq h))
  · exact .ok h

/-- Folding all types concurs, by the rules for inserting by key. -/
theorem concur_foldTypes (roots : List String) {ts us : List TypeDefinition}
    (h : List.Forall₂ (SameUpTo ε.type) ts us) :
    Concur (List.Forall₂ (SameUpTo ε.type)) (foldTypes roots ts) (foldTypes roots us) := by
  simp only [foldTypes, List.partition_eq_filter_filter]
  refine concur_foldlM (r := SameUpTo ε.type) (fun merged merged' a b hmerged hab => ?_)
    (List.rel_append ?_ ?_) .nil
  · exact concur_insertKeyed (r := SameUpTo ε.type) (fun _ _ => name_eq)
      (fun _ _ _ _ => concur_unite roots) (fun _ _ => concur_asBase) hmerged hab.normalize
  · exact List.rel_filter (fun _ _ hab => by simp [isExtension_eq hab]) h
  · exact List.rel_filter (fun _ _ hab => by simp [isExtension_eq hab]) h

end Types

/-! ### Whole documents -/

/-- **Merging does not see what is erased**: documents that differ in nothing else are merged to
such documents, or fail for one cause. -/
theorem concur_merge {documents others : List Document}
    (h : SameUpTo ε.document (Document.concat documents) (Document.concat others)) :
    Concur (SameUpTo ε.document) (Document.merge documents) (Document.merge others) := by
  obtain ⟨hblocks, hdirectives, hscalars, henums, hinterfaces, hunions, hinputs, htypes⟩ :=
    (Document.mk.injEq ..).mp h
  simp only [← forall₂_sameUpTo_iff] at *
  unfold Document.merge
  refine (concur_reduceSchemaBlocks ε.block_keeps ε.block_unite hblocks).bind
    fun block block' hblock => ?_
  refine (concur_deduplicate _ hdirectives).bind fun _ _ hdirectives => ?_
  refine (concur_deduplicate _ hscalars).bind fun _ _ hscalars => ?_
  refine (concur_deduplicate _ henums).bind fun _ _ henums => ?_
  refine (concur_deduplicate _ hinterfaces).bind fun _ _ hinterfaces => ?_
  refine (concur_deduplicate _ hunions).bind fun _ _ hunions => ?_
  refine (concur_deduplicate _ hinputs).bind fun _ _ hinputs => ?_
  rw [hblock.2]
  refine (concur_foldTypes _ htypes).bind fun _ _ htypes => .ok ?_
  exact (Document.mk.injEq ..).mpr (by
    simp only [← forall₂_sameUpTo_iff]
    exact ⟨hblock.1, hdirectives, hscalars, henums, hinterfaces, hunions, hinputs, htypes⟩)

end Erasure

end SchemaMerge
