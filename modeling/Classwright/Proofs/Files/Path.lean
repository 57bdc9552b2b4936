import Classwright.Files.Basic
import Mathlib.Data.List.Basic

/-!
# Where paths lead

The path of an entry of a directory is cleaned, which does not change where it leads: a directory
that is reached along some names is reached along the cleaned names, too (`FileTree.walk_clean`), so
the entry is found in the directory that the path was made from (`FileTree.locate_join`).
-/

namespace Classwright

namespace Path

/-! ### Names between slashes -/

/-- A string that a path may have between two slashes and that names an entry of a directory. -/
structure IsName (name : String) : Prop where
  /-- It has no slash. -/
  slash : '/' ∉ name.toList
  /-- It is not empty. -/
  nonempty : name ≠ ""
  /-- It is not the name of the directory itself. -/
  dot : name ≠ "."

theorem splitSlashes_ne_nil (s : List Char) : splitSlashes s ≠ [] := by
  induction s with
  | nil => simp [splitSlashes]
  | cons c rest ih =>
    unfold splitSlashes
    split
    · simp
    · simp
    · split <;> simp

theorem splitSlashes_cons {c : Char} (hc : c ≠ '/') (rest : List Char) :
    ∃ part parts, splitSlashes rest = part :: parts ∧
      splitSlashes (c :: rest) = (c :: part) :: parts := by
  obtain ⟨part, parts, hrest⟩ := List.exists_cons_of_ne_nil (splitSlashes_ne_nil rest)
  refine ⟨part, parts, hrest, ?_⟩
  rw [splitSlashes.eq_3 _ _ (by simpa using hc), hrest]

theorem splitSlashes_append (s rest : List Char) :
    splitSlashes (s ++ '/' :: rest) = splitSlashes s ++ splitSlashes rest := by
  induction s with
  | nil => rfl
  | cons c s ih =>
    by_cases hc : c = '/'
    · subst hc
      rw [List.cons_append, splitSlashes, splitSlashes, ih, List.cons_append]
    · obtain ⟨part, parts, hs, hcons⟩ := splitSlashes_cons hc s
      obtain ⟨part', parts', hs', hcons'⟩ := splitSlashes_cons hc (s ++ '/' :: rest)
      rw [ih, hs, List.cons_append, List.cons.injEq] at hs'
      obtain ⟨rfl, rfl⟩ := hs'
      rw [List.cons_append, hcons', hcons, List.cons_append]

theorem splitSlashes_of_notMem {s : List Char} (h : '/' ∉ s) : splitSlashes s = [s] := by
  induction s with
  | nil => rfl
  | cons c s ih =>
    rw [List.mem_cons, not_or] at h
    obtain ⟨part, parts, hs, hcons⟩ := splitSlashes_cons (Ne.symm h.1) s
    rw [ih h.2, List.cons.injEq] at hs
    obtain ⟨rfl, rfl⟩ := hs
    exact hcons

theorem notMem_of_mem_splitSlashes {s part : List Char} (h : part ∈ splitSlashes s) :
    '/' ∉ part := by
  induction s generalizing part with
  | nil => simp_all [splitSlashes]
  | cons c s ih =>
    by_cases hc : c = '/'
    · subst hc
      rw [splitSlashes, List.mem_cons] at h
      rcases h with rfl | h
      · simp
      · exact ih h
    · obtain ⟨part', parts, hs, hcons⟩ := splitSlashes_cons hc s
      rw [hcons, List.mem_cons] at h
      rcases h with rfl | h
      · rw [List.mem_cons, not_or]
        exact ⟨Ne.symm hc, ih (hs ▸ List.mem_cons_self)⟩
      · exact ih (hs ▸ List.mem_cons_of_mem _ h)

/-- The parts of names with slashes between them are the names. -/
theorem splitSlashes_intercalate {names : List (List Char)} (hne : names ≠ [])
    (h : ∀ name ∈ names, '/' ∉ name) : splitSlashes (['/'].intercalate names) = names := by
  induction names with
  | nil => exact absurd rfl hne
  | cons name rest ih =>
    rw [List.forall_mem_cons] at h
    cases rest with
    | nil => simpa using splitSlashes_of_notMem h.1
    | cons next rest =>
      rw [List.intercalate_cons_cons, List.append_assoc, List.singleton_append, splitSlashes_append,
        splitSlashes_of_notMem h.1, ih (by simp) h.2, List.singleton_append]

/-! ### Taking paths apart -/

theorem isName_of_mem_ofString {s name : String} (h : name ∈ (ofString s).names) : IsName name := by
  simp only [ofString, List.mem_filter, List.mem_map, Bool.and_eq_true, Bool.not_eq_true',
    bne_iff_ne, ne_eq] at h
  obtain ⟨⟨part, hpart, rfl⟩, hempty, hdot⟩ := h
  exact ⟨by simpa using notMem_of_mem_splitSlashes hpart, by simpa using hempty, hdot⟩

theorem names_ofString_append {directory name : String} (h : IsName name) :
    (ofString (directory ++ "/" ++ name)).names = (ofString directory).names ++ [name] := by
  have hsplit : splitSlashes (directory ++ "/" ++ name).toList =
      splitSlashes directory.toList ++ [name.toList] := by
    rw [← splitSlashes_of_notMem h.slash, ← splitSlashes_append]
    simp
  simp only [ofString, hsplit, List.map_append, List.filter_append]
  simp [h.nonempty, h.dot]

theorem rooted_ofString_append {directory : String} (h : directory ≠ "") (name : String) :
    (ofString (directory ++ "/" ++ name)).rooted = (ofString directory).rooted := by
  have hne : directory.toList ≠ [] := by simpa using h
  obtain ⟨c, rest, hc⟩ := List.exists_cons_of_ne_nil hne
  simp [ofString, hc]

/-- A path that is not counted from the root is taken apart again into its names. -/
theorem ofString_text {names : List String} (h : ∀ name ∈ names, IsName name) :
    ofString (text ⟨false, names⟩) = ⟨false, names⟩ := by
  by_cases hnames : names = []
  · subst hnames
    rfl
  · have hsplit : splitSlashes ("/".intercalate names).toList = names.map String.toList := by
      rw [String.toList_intercalate]
      refine splitSlashes_intercalate (by simpa using hnames) ?_
      rw [List.forall_mem_map]
      exact fun name hname => (h name hname).slash
    obtain ⟨name, rest, rfl⟩ := List.exists_cons_of_ne_nil hnames
    have hname := h name List.mem_cons_self
    obtain ⟨c, more, hc⟩ := List.exists_cons_of_ne_nil (show name.toList ≠ [] by
      simpa using hname.nonempty)
    have hhead : ("/".intercalate (name :: rest)).toList.head? = some c := by
      rw [String.toList_intercalate, List.map_cons, hc]
      cases rest <;> simp
    have hslash : c ≠ '/' := by
      rintro rfl
      exact hname.slash (by simp [hc])
    have htext : text ⟨false, name :: rest⟩ = "/".intercalate (name :: rest) := by
      have hne : "/".intercalate (name :: rest) ≠ "" := by
        intro hempty
        rw [hempty] at hhead
        cases hhead
      simp [text, hne]
    have hkeep :
        (name :: rest).filter (fun name => !name.isEmpty && name != ".") = name :: rest := by
      rw [List.filter_eq_self]
      intro part hpart
      simp [(h part hpart).nonempty, (h part hpart).dot]
    rw [htext, ofString, hsplit, hhead]
    simp [hslash, hkeep, List.map_map, Function.comp_def]

/-- Cleaning makes no new names but the one that leads back. -/
theorem isName_foldl_enter {rooted : Bool} {behind names : List String}
    (hbehind : ∀ name ∈ behind, IsName name) (hnames : ∀ name ∈ names, IsName name) :
    ∀ name ∈ names.foldl (enter rooted) behind, IsName name := by
  have hback : IsName ".." := ⟨by decide, by decide, by decide⟩
  induction names generalizing behind with
  | nil => exact hbehind
  | cons name rest ih =>
    rw [List.forall_mem_cons] at hnames
    refine ih ?_ hnames.2
    unfold enter
    split
    · exact List.forall_mem_cons.2 ⟨hnames.1, hbehind⟩
    · split
      · split
        · simp
        · simpa using hback
      · rw [List.forall_mem_cons] at hbehind
        split
        · exact List.forall_mem_cons.2 ⟨hback, List.forall_mem_cons.2 hbehind⟩
        · exact hbehind.2

end Path

/-! ### Directories -/

namespace FileTree

variable {t : FileTree} {here there : List String}

theorem walk_nil : t.walk here [] = some here := by
  rw [walk.eq_def]

theorem walk_back {last : String} (names : List String) :
    t.walk (last :: here) (".." :: names) = t.walk here names := by
  rw [walk.eq_def]
  rfl

theorem walk_back_nil (names : List String) : t.walk [] (".." :: names) = none := by
  rw [walk.eq_def]
  rfl

theorem walk_enter {name : String} (h : name ≠ "..") (names : List String) :
    t.walk here (name :: names) =
      if t.hasDirectory (name :: here).reverse then t.walk (name :: here) names else none := by
  rw [walk.eq_def]
  exact if_neg (by simpa using h)

theorem walk_append (names more : List String) :
    t.walk here (names ++ more) = (t.walk here names).bind fun here => t.walk here more := by
  induction names generalizing here with
  | nil => rw [walk_nil, List.nil_append, Option.bind_some]
  | cons name rest ih =>
    rw [List.cons_append]
    by_cases hback : name = ".."
    · subst hback
      cases here with
      | nil => rw [walk_back_nil, walk_back_nil, Option.bind_none]
      | cons last above => rw [walk_back, walk_back, ih]
    · rw [walk_enter hback, walk_enter hback]
      split
      · exact ih
      · rfl

/-- A directory that has been entered from the working directory: its own names lead there, and none
of them leads back. -/
structure Reached (t : FileTree) (here : List String) : Prop where
  /-- The names lead there. -/
  walk : t.walk [] here.reverse = some here
  /-- None leads back. -/
  entered : ".." ∉ here

theorem Reached.start : t.Reached [] where
  walk := walk_nil
  entered := by simp

theorem Reached.enter (h : t.Reached here) {name : String} (hname : name ≠ "..")
    (hdirectory : t.hasDirectory (name :: here).reverse = true) : t.Reached (name :: here) where
  walk := by
    rw [List.reverse_cons, walk_append, h.walk, Option.bind_some, walk_enter hname,
      if_pos hdirectory, walk_nil]
  entered := by
    rw [List.mem_cons, not_or]
    exact ⟨Ne.symm hname, h.entered⟩

theorem Reached.leave {last : String} (h : t.Reached (last :: here)) : t.Reached here where
  walk := by
    have hentered := h.entered
    rw [List.mem_cons, not_or] at hentered
    have hwalk := h.walk
    rw [List.reverse_cons, walk_append, Option.bind_eq_some_iff] at hwalk
    obtain ⟨here', hhere, hlast⟩ := hwalk
    rw [walk_enter (Ne.symm hentered.1)] at hlast
    split at hlast
    · rw [walk_nil, Option.some.injEq, List.cons.injEq] at hlast
      rw [hhere, hlast.2]
    · cases hlast
  entered := fun hmem => h.entered (List.mem_cons_of_mem _ hmem)

/-- Cleaning names does what walking along them does. -/
theorem Reached.walk_clean (h : t.Reached here) {names : List String}
    (hwalk : t.walk here names = some there) :
    names.foldl (Path.enter false) here = there ∧ t.Reached there := by
  induction names generalizing here with
  | nil =>
    rw [walk_nil] at hwalk
    obtain rfl := Option.some.inj hwalk
    exact ⟨rfl, h⟩
  | cons name rest ih =>
    rw [List.foldl_cons]
    by_cases hname : name = ".."
    · subst hname
      cases here with
      | nil =>
        rw [walk_back_nil] at hwalk
        cases hwalk
      | cons last above =>
        -- The name taken off is the one entered last, in the path as in the walk.
        have hlast : last ≠ ".." := fun heq => h.entered (heq ▸ List.mem_cons_self)
        have hleave : Path.enter false (last :: above) ".." = above := by simp [Path.enter, hlast]
        rw [walk_back] at hwalk
        rw [hleave]
        exact ih h.leave hwalk
    · rw [walk_enter hname] at hwalk
      split at hwalk
      · rename_i hdirectory
        have henter : Path.enter false here name = name :: here := by simp [Path.enter, hname]
        rw [henter]
        exact ih (h.enter hname hdirectory) hwalk
      · cases hwalk

/-- An entry of a directory is located in the directory. -/
theorem locate_join {directory name : String} (hdirectory : directory ≠ "")
    (hrooted : (Path.ofString directory).rooted = false)
    (hwalk : t.walk [] (Path.ofString directory).names = some here) (hname : Path.IsName name)
    (hback : name ≠ "..") :
    t.locate (Path.join directory name) = some (here.reverse ++ [name]) := by
  obtain ⟨hclean, hreached⟩ := Reached.start.walk_clean hwalk
  have hpath :
      (Path.ofString (directory ++ "/" ++ name)).clean = ⟨false, here.reverse ++ [name]⟩ := by
    rw [Path.clean, Path.rooted_ofString_append hdirectory, hrooted,
      Path.names_ofString_append hname, List.foldl_append, hclean]
    simp [Path.enter, hback]
  have hjoin : Path.ofString (Path.join directory name) = ⟨false, here.reverse ++ [name]⟩ := by
    have hnames : ∀ part ∈ here, Path.IsName part := by
      rw [← hclean]
      exact Path.isName_foldl_enter (by simp) fun part => Path.isName_of_mem_ofString
    rw [Path.join, hpath, Path.ofString_text]
    simpa [or_imp, forall_and] using ⟨hnames, hname⟩
  simp [locate, hjoin, hback, hreached.walk]

end FileTree

end Classwright
