import Mathlib.Data.List.Basic
import SchemaMerge.Printing.Document
import SchemaMerge.Proofs.RoundTrip.Canonical

/-!
# The order of types

A document prints each of its type definitions once. The types that serve the root operations come
first, those for query, then those for mutation, then those for subscription, and all others behind
them; the definitions of one of these groups stay in the order of the document. A type that serves
several operations stands with the first of them, and a type of a default name is no root type where
the schema block names another one for its operation.

The order is that of a stable sort: by the turn of a definition (`Document.turn`), and among
definitions of one turn as they stood. Such an order is the only one (`eq_of_filter_eq`), so that
types in the order of some names stay in it.

## Results

* `perm_typesByName`, `pairwise_typesByName`, `filter_typesByName`: types are put in the order of
  the names.
* `Document.printsRootsFirst`: the types of a document are printed once each, roots first.
-/

namespace SchemaMerge

/-! ## Types in the order of names -/

theorem perm_typesByName (types : List TypeDefinition) (names : List String) :
    (typesByName types names).Perm types := by
  induction names generalizing types with
  | nil => exact .refl _
  | cons name names ih =>
    have hsplit := List.filter_append_perm (fun t : TypeDefinition => t.name = name) types
    refine (List.Perm.append_left _ (ih _)).trans ?_
    simpa using hsplit

theorem pairwise_typesByName (types : List TypeDefinition) (names : List String) :
    (typesByName types names).Pairwise fun s t => names.idxOf s.name ≤ names.idxOf t.name := by
  induction names generalizing types with
  | nil => exact List.pairwise_of_forall fun _ _ => Nat.le_refl _
  | cons name names ih =>
    have hfirst : ∀ t ∈ types.filter (fun t => t.name = name),
        (name :: names).idxOf t.name = 0 := fun t ht => by
      rw [of_decide_eq_true (List.mem_filter.1 ht).2, List.idxOf_cons_self]
    -- The others have their turn one later than among the names that are left.
    have hothers : ∀ t ∈ typesByName (types.filter fun t => t.name ≠ name) names,
        (name :: names).idxOf t.name = names.idxOf t.name + 1 := fun t ht => by
      have hne : t.name ≠ name := by
        simpa using (List.mem_filter.1 ((perm_typesByName _ _).mem_iff.1 ht)).2
      exact List.idxOf_cons_ne names hne.symm
    refine List.pairwise_append.2 ⟨?_, ?_, fun s hs t _ => ?_⟩
    · refine List.pairwise_of_forall_mem_list fun s hs t _ => ?_
      rw [hfirst s hs]
      exact Nat.zero_le _
    · refine (ih _).imp_of_mem fun hs ht hle => ?_
      rw [hothers _ hs, hothers _ ht]
      exact Nat.succ_le_succ hle
    · rw [hfirst s hs]
      exact Nat.zero_le _

/-- Definitions that each name takes or leaves together keep their order. -/
theorem filter_typesByName {keep : TypeDefinition → Bool} {names : List String}
    (hkeep : ∀ name ∈ names, (∀ t, keep t = true → t.name = name) ∨
      ∀ t, keep t = true → t.name ≠ name) (types : List TypeDefinition) :
    (typesByName types names).filter keep = types.filter keep := by
  induction names generalizing types with
  | nil => rfl
  | cons name names ih =>
    rw [typesByName, List.filter_append, ih (fun n hn => hkeep n (List.mem_cons_of_mem _ hn)),
      List.filter_filter, List.filter_filter]
    -- The name moves all kept definitions to the front, or none.
    rcases hkeep name List.mem_cons_self with hall | hnone
    · have hfirst : types.filter (fun t => keep t && decide (t.name = name)) =
          types.filter keep := List.filter_congr fun t _ => by
        simpa using hall t
      have hothers : types.filter (fun t => keep t && decide (t.name ≠ name)) = [] :=
        List.filter_eq_nil_iff.2 fun t _ => by simpa using hall t
      rw [hfirst, hothers, List.append_nil]
    · have hfirst : types.filter (fun t => keep t && decide (t.name = name)) = [] :=
        List.filter_eq_nil_iff.2 fun t _ => by simpa using hnone t
      have hothers : types.filter (fun t => keep t && decide (t.name ≠ name)) =
          types.filter keep := List.filter_congr fun t _ => by
        simpa using hnone t
      rw [hfirst, hothers, List.nil_append]

/-- The definitions of one turn keep their order. -/
theorem filter_idxOf_typesByName (types : List TypeDefinition) (names : List String) (turn : Nat) :
    (typesByName types names).filter (fun t => names.idxOf t.name = turn) =
      types.filter fun t => names.idxOf t.name = turn := by
  refine filter_typesByName (fun name hname => ?_) types
  simp only [decide_eq_true_eq]
  by_cases hturn : names.idxOf name = turn
  · exact .inl fun t ht => ((List.idxOf_inj hname).1 (hturn.trans ht.symm)).symm
  · exact .inr fun t ht heq => hturn (heq ▸ ht)

/-! ## One order -/

/-- A list in the order of turns is determined by its parts of one turn each. -/
theorem eq_of_filter_eq {α : Type} {turn : α → Nat} {as bs : List α}
    (has : as.Pairwise fun a b => turn a ≤ turn b) (hbs : bs.Pairwise fun a b => turn a ≤ turn b)
    (h : ∀ n, as.filter (fun a => turn a = n) = bs.filter fun b => turn b = n) : as = bs := by
  have hhead {a c : α} {cs : List α} (hpairwise : (a :: cs).Pairwise fun a b => turn a ≤ turn b)
      (hc : c ∈ a :: cs) : turn a ≤ turn c := by
    rcases List.mem_cons.1 hc with rfl | hc
    · exact Nat.le_refl _
    · exact List.rel_of_pairwise_cons hpairwise hc
  induction as generalizing bs with
  | nil =>
    cases bs with
    | nil => rfl
    | cons b bs => simpa using h (turn b)
  | cons a as ih =>
    cases bs with
    | nil => simpa using h (turn a)
    | cons b bs =>
      have hmem (c : α) : c ∈ a :: as ↔ c ∈ b :: bs := by
        have hturn := congrArg (c ∈ ·) (h (turn c))
        simpa only [List.mem_filter, decide_true, and_true, eq_iff_iff] using hturn
      -- Each of the two heads comes no later than the other, so they lead the same part.
      have hab : turn a = turn b :=
        Nat.le_antisymm (hhead has ((hmem b).2 List.mem_cons_self))
          (hhead hbs ((hmem a).1 List.mem_cons_self))
      have hheads : a = b := by
        have hturn := h (turn a)
        rw [List.filter_cons_of_pos (by simp), List.filter_cons_of_pos (by simp [hab])] at hturn
        exact (List.cons.inj hturn).1
      have htails : as = bs := by
        refine ih (List.pairwise_cons.1 has).2 (List.pairwise_cons.1 hbs).2 fun n => ?_
        have hturn := h n
        rw [← hheads, List.filter_cons, List.filter_cons] at hturn
        split at hturn
        · exact (List.cons.inj hturn).2
        · exact hturn
      rw [hheads, htails]

/-- Types in the order of the names stay in it. -/
theorem typesByName_typesByName (types : List TypeDefinition) (names : List String) :
    typesByName (typesByName types names) names = typesByName types names :=
  eq_of_filter_eq (pairwise_typesByName _ _) (pairwise_typesByName _ _)
    (filter_idxOf_typesByName _ _)

/-! ## Root types first -/

namespace Document

variable (d : Document)

theorem perm_typesInOrder : d.typesInOrder.Perm d.types := by
  rw [← rootsFirst_eq]
  exact perm_typesByName _ _

theorem mem_typesInOrder {d : Document} {type : TypeDefinition} :
    type ∈ d.typesInOrder ↔ type ∈ d.types := d.perm_typesInOrder.mem_iff

theorem typesInOrder_typesInOrder :
    ({ d with types := d.typesInOrder } : Document).typesInOrder = d.typesInOrder := by
  rw [← rootsFirst_eq, ← rootsFirst_eq]
  exact typesByName_typesByName d.types _

/-- Types that are changed in other things than their names keep their order. -/
theorem typesInOrder_map {d e : Document} {f : TypeDefinition → TypeDefinition}
    (hname : ∀ t, (f t).name = t.name) (htypes : e.types = d.types.map f)
    (hserving : ∀ operation, e.servingName operation = d.servingName operation) :
    e.typesInOrder = d.typesInOrder.map f := by
  simp only [typesInOrder, htypes, hserving, List.filter_map, Function.comp_def, hname,
    List.map_append]

/-- Types that one change makes alike are alike in order. -/
theorem map_typesInOrder_congr {d e : Document} {f : TypeDefinition → TypeDefinition}
    (hname : ∀ t, (f t).name = t.name) (htypes : d.types.map f = e.types.map f)
    (hserving : ∀ operation, d.servingName operation = e.servingName operation) :
    d.typesInOrder.map f = e.typesInOrder.map f := by
  -- The changed types are those of `d` and those of `e`.
  let changed : Document := { d with types := d.types.map f }
  have hd : changed.typesInOrder = d.typesInOrder.map f :=
    typesInOrder_map hname rfl fun _ => rfl
  have he : changed.typesInOrder = e.typesInOrder.map f := typesInOrder_map hname htypes hserving
  rw [← hd, he]

/-- When a type has its turn: with the first operation that it serves, or behind all operations. -/
def turn (type : TypeDefinition) : Nat :=
  RootOperation.all.findIdx fun operation => d.servingName operation = type.name

theorem turn_eq_idxOf (type : TypeDefinition) :
    d.turn type = (rootTypeNames d.schemaBlocks.head?).idxOf type.name := by
  rw [rootTypeNames, List.idxOf, List.findIdx_map]
  rfl

/-- The list has each type definition of the document once: first those that serve query, then those
that serve mutation and subscription, then all others, each of these groups in the order of the
document. -/
structure PutsRootsFirst (types : List TypeDefinition) : Prop where
  perm : types.Perm d.types
  inTurn : types.Pairwise fun s t => d.turn s ≤ d.turn t
  kept : ∀ turn, types.filter (fun t => d.turn t = turn) = d.types.filter fun t => d.turn t = turn

theorem putsRootsFirst_rootsFirst : d.PutsRootsFirst d.rootsFirst where
  perm := perm_typesByName _ _
  inTurn := by
    simp only [turn_eq_idxOf]
    exact pairwise_typesByName _ _
  kept turn := by
    simp only [turn_eq_idxOf]
    exact filter_idxOf_typesByName _ _ turn

theorem putsRootsFirst_iff {types : List TypeDefinition} :
    d.PutsRootsFirst types ↔ types = d.rootsFirst := by
  have hroots := d.putsRootsFirst_rootsFirst
  constructor
  · intro h
    exact eq_of_filter_eq h.inTurn hroots.inTurn fun turn =>
      (h.kept turn).trans (hroots.kept turn).symm
  · rintro rfl
    exact hroots

/-- The blocks of the types stand together between those of the other definitions. -/
theorem exists_blocks_eq (unit : String) :
    ∃ earlier later, ({ d with types := [] } : Document).blocks unit = earlier ++ later ∧
      d.blocks unit = earlier ++ d.rootsFirst.map (Printing.type unit) ++ later := by
  have hnone : ({ d with types := [] } : Document).rootsFirst = [] :=
    (perm_typesByName [] _).eq_nil
  refine ⟨((d.schemaBlocks.take 1).filter SchemaBlock.hasRootTypes).map
      (Printing.schemaBlock unit) ++
      d.directiveDefinitions.map (Printing.directiveDefinition unit),
    d.scalars.map (Printing.scalar unit) ++ (d.enums.map (Printing.enum unit) ++
      (d.interfaces.map (Printing.fieldsDefinition "interface" unit) ++
      (d.unions.map (Printing.union unit) ++
      d.inputs.map (Printing.fieldsDefinition "input" unit)))), ?_, ?_⟩
  · rw [blocks, hnone]
    simp only [List.map_nil, List.append_nil, List.append_assoc]
  · simp only [blocks, List.append_assoc]

/-- **Each type definition is printed once, root types first.** The list that is printed is the only
one that has each definition once, in the order of turns and within a turn as the document has them.
Nothing else that is printed depends on the types. -/
theorem printsRootsFirst :
    (∀ types, d.PutsRootsFirst types ↔ types = d.rootsFirst) ∧
      ∀ unit, ∃ earlier later,
        ({ d with types := [] } : Document).blocks unit = earlier ++ later ∧
          d.print unit = String.intercalate "\n"
            (earlier ++ d.rootsFirst.map (Printing.type unit) ++ later) := by
  refine ⟨fun _ => d.putsRootsFirst_iff, fun unit => ?_⟩
  obtain ⟨earlier, later, hothers, hblocks⟩ := d.exists_blocks_eq unit
  exact ⟨earlier, later, hothers, by rw [print, hblocks]⟩

/-- One type serves query and subscription, and the type of the default name is no root type. -/
example :
    let type := fun (name : String) (isExtension : Bool) =>
      (⟨name, [], [], [], [], [], isExtension, default⟩ : TypeDefinition)
    ({ empty with
      schemaBlocks := [⟨some "Mutation", none, some "Mutation", [], default⟩]
      types := [type "User" false, type "Query" false, type "Mutation" true,
        type "Subscription" false, type "Mutation" false] } : Document).rootsFirst =
      [type "Mutation" true, type "Mutation" false, type "User" false, type "Query" false,
        type "Subscription" false] := by decide

end Document

end SchemaMerge
