import TreeTemplate.Files.Search

/-! # What a search for a file does

A search tries the file name below one path after another and stops at the first file that is
there.  It is told without running it which file that is and which paths are reported as tried
(`search_apply`); the state of the host plays no part.
-/
namespace TreeTemplate.Files

/-- The paths at which a file may be, in the order in which they are tried. -/
def candidates (filename : String) (paths : List String) : List String :=
  paths.map (join · filename)

/-- What a search reports: the candidates before the first that is a file, and that one. -/
def probes (isFile : String → Bool) (filename : String) (paths : List String) : List Event :=
  ((candidates filename paths).takeWhile (!isFile ·)).map (.probe filename · false) ++
    ((candidates filename paths).find? isFile).toList.map (.probe filename · true)

/-- By induction on the search paths. -/
theorem search_apply {σ : Type} (isFile : String → Bool) (filename : String)
    (paths : List String) (s : σ) :
    search isFile filename paths s =
      ⟨.ok ((candidates filename paths).find? isFile), probes isFile filename paths, s⟩ := by
  induction paths with
  | nil => rfl
  | cons path rest ih =>
    have hemit : (Run.emit (.probe filename (join path filename)
        (isFile (join path filename))) s).result = .ok () := rfl
    simp only [search, Run.bind_apply_ok hemit]
    cases hfile : isFile (join path filename) with
    | true => simp [probes, candidates, hfile, Run.emit]
    | false =>
      simp only [Bool.false_eq_true, if_false, Run.emit, ih]
      simp [probes, candidates, hfile]

/-- The file that a search finds is reported. -/
theorem probe_mem_probes {isFile : String → Bool} {filename path : String} {paths : List String}
    (h : (candidates filename paths).find? isFile = some path) :
    .probe filename path true ∈ probes isFile filename paths := by
  simp [probes, h]

/-- A search reports what it tries for its file name, and as found only the file that it finds. -/
theorem eq_probe_of_mem {isFile : String → Bool} {filename : String} {paths : List String}
    {e : Event} (h : e ∈ probes isFile filename paths) :
    ∃ path found, e = .probe filename path found ∧
      (found = true → (candidates filename paths).find? isFile = some path) := by
  rcases List.mem_append.mp h with h | h
  · obtain ⟨path, -, rfl⟩ := List.mem_map.mp h
    exact ⟨path, false, rfl, nofun⟩
  · obtain ⟨path, hfound, rfl⟩ := List.mem_map.mp h
    exact ⟨path, true, rfl, fun _ => Option.mem_toList.mp hfound⟩

/-- A search path decides where a file is found, if no path before it has the file. -/
theorem find?_candidates {isFile : String → Bool} {filename folder : String}
    {paths : List String} (hmem : folder ∈ paths) (hfile : isFile (join folder filename) = true)
    (hfirst : ∀ path ∈ paths.takeWhile (· ≠ folder), isFile (join path filename) = false) :
    (candidates filename paths).find? isFile = some (join folder filename) := by
  induction paths with
  | nil => cases hmem
  | cons path rest ih =>
    by_cases hpath : path = folder
    · subst hpath
      exact List.find?_cons_of_pos hfile
    · have hrest : folder ∈ rest := (List.mem_cons.mp hmem).resolve_left (Ne.symm hpath)
      rw [List.takeWhile_cons_of_pos (by simpa using hpath)] at hfirst
      obtain ⟨hnot, hfirst⟩ := List.forall_mem_cons.mp hfirst
      have hcons : (candidates filename (path :: rest)).find? isFile =
          (candidates filename rest).find? isFile :=
        List.find?_cons_of_neg (by simp [hnot])
      rw [hcons, ih hrest hfirst]

end TreeTemplate.Files
