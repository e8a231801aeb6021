import SchemaMerge.FileTree.Path

/-!
# The names of paths

Joining a name to a path puts it behind the names of the path, whether or not the path ends in a
slash (`essentialNames_join`).
-/

namespace SchemaMerge

/-- A name that an entry of a directory can have. -/
structure ProperName (name : String) : Prop where
  ne_empty : name ≠ ""
  ne_dot : name ≠ "."
  ne_dots : name ≠ ".."
  not_mem_slash : '/' ∉ name.toList

instance (name : String) : Decidable (ProperName name) :=
  decidable_of_iff (name ≠ "" ∧ name ≠ "." ∧ name ≠ ".." ∧ '/' ∉ name.toList)
    ⟨fun ⟨hempty, hdot, hdots, hslash⟩ => ⟨hempty, hdot, hdots, hslash⟩,
      fun ⟨hempty, hdot, hdots, hslash⟩ => ⟨hempty, hdot, hdots, hslash⟩⟩

/-! ## Splitting -/

variable {separator : Char} {cs before behind : List Char}

theorem splitOnChar_ne_nil (separator : Char) (cs : List Char) : splitOnChar separator cs ≠ [] := by
  unfold splitOnChar
  cases cs with
  | nil => simp
  | cons c rest =>
    dsimp only
    split
    · simp
    · split <;> simp

theorem splitOnChar_append_cons (separator : Char) (before behind : List Char) :
    splitOnChar separator (before ++ separator :: behind) =
      splitOnChar separator before ++ splitOnChar separator behind := by
  induction before with
  | nil => simp [splitOnChar]
  | cons c before ih =>
    by_cases hc : c = separator
    · simp [splitOnChar, hc, ih]
    · obtain ⟨part, parts, hparts⟩ :=
        List.exists_cons_of_ne_nil (splitOnChar_ne_nil separator before)
      simp [splitOnChar, hc, ih, hparts]

theorem splitOnChar_eq_singleton (h : separator ∉ cs) : splitOnChar separator cs = [cs] := by
  induction cs with
  | nil => rfl
  | cons c rest ih =>
    obtain ⟨hc, hrest⟩ : ¬separator = c ∧ separator ∉ rest := by simpa using h
    simp [splitOnChar, Ne.symm hc, ih hrest]

namespace Path

variable {path other name : String} {names : List String}

theorem parts_ne_nil (path : String) : parts path ≠ [] := by
  simp [parts, splitOnChar_ne_nil]

/-- A name behind a slash is one more part. -/
theorem parts_append_slash (path name : String) (h : '/' ∉ name.toList) :
    parts (path ++ "/" ++ name) = parts path ++ [name] := by
  have hlist : (path ++ "/" ++ name).toList = path.toList ++ '/' :: name.toList := by simp
  unfold parts
  rw [hlist, splitOnChar_append_cons, splitOnChar_eq_singleton h]
  simp

/-! ## Essential names -/

/-- One more part is one more essential name, unless it is empty or stands for the directory
itself. -/
theorem essentialNames_of_parts_concat (h : parts other = parts path ++ [name]) :
    essentialNames other =
      essentialNames path ++ if name = "." ∨ name = "" then [] else [name] := by
  obtain ⟨first, rest, hparts⟩ := List.exists_cons_of_ne_nil (parts_ne_nil path)
  unfold essentialNames
  rw [h, hparts]
  by_cases hdot : name = "."
  · simp [hdot]
  · have hfilter : (first :: (rest ++ [name]).filter fun part => part ≠ ".") =
        (first :: rest.filter fun part => part ≠ ".") ++ [name] := by
      simp [hdot]
    dsimp only [List.cons_append]
    rw [hfilter, List.filter_append]
    by_cases hempty : name = "" <;> simp [hdot, hempty]

/-- A slash at the end of a path adds no name. -/
theorem essentialNames_append_slash (path : String) :
    essentialNames (path ++ "/") = essentialNames path := by
  have h : parts (path ++ "/") = parts path ++ [""] := by
    simpa using parts_append_slash path "" (by simp)
  simpa using essentialNames_of_parts_concat h

theorem essentialNames_join (h : ProperName name) (path : String) :
    essentialNames (join path name) = essentialNames path ++ [name] := by
  have hjoined (path : String) :
      essentialNames (path ++ "/" ++ name) = essentialNames path ++ [name] := by
    rw [essentialNames_of_parts_concat (parts_append_slash path name h.not_mem_slash),
      if_neg (by simp [h.ne_dot, h.ne_empty])]
  unfold join
  split
  · next hslash =>
    obtain ⟨before, hbefore⟩ := List.getLast?_eq_some_iff.1 hslash
    have hpath : path = String.ofList before ++ "/" := by
      apply String.toList_injective
      simp [hbefore]
    rw [hpath, hjoined, essentialNames_append_slash]
  · exact hjoined path

/-- Names that are joined to a path are added to its names. -/
theorem essentialNames_foldl_join (h : ∀ name ∈ names, ProperName name) (path : String) :
    essentialNames (names.foldl join path) = essentialNames path ++ names := by
  induction names generalizing path with
  | nil => simp
  | cons name names ih =>
    rw [List.foldl_cons, ih (fun other hother => h other (List.mem_cons_of_mem _ hother)),
      essentialNames_join (h name List.mem_cons_self)]
    simp

end Path

end SchemaMerge
