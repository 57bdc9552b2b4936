import Classwright.Files.Compile
import Classwright.Proofs.Emit.Written
import Classwright.Proofs.Files.Path
import Classwright.Proofs.Machine.Compiled

/-!
# Compiling files

A source text that is refused leaves all files as they are.  One that is accepted is written to the
class file of its class, and nothing but this file and the graph beside it changes
(`FileTree.compiles`).  The class file is made before its bytes are known, though: when a name is
too long for the format, the compilation fails and leaves an empty class file behind, in the place
of any earlier one.
-/

namespace Classwright

namespace FileTree

/-! ### Files -/

/-- The tree in which the file in a place has the given content. -/
def put (t : FileTree) (place : List String) (content : Text) : FileTree :=
  { t with files := (place, content) :: t.files.filter fun f => f.1 != place }

variable {t : FileTree} {path : String} {place other : List String} {content : Text}

/-- Where a path leads depends on the directories alone. -/
@[simp] theorem locate_put (t : FileTree) (place : List String) (content : Text) (path : String) :
    (t.put place content).locate path = t.locate path := by
  have hwalk (here names : List String) :
      (t.put place content).walk here names = t.walk here names := by
    induction names generalizing here with
    | nil => rw [walk_nil, walk_nil]
    | cons name rest ih =>
      by_cases hback : name = ".."
      · subst hback
        cases here with
        | nil => rw [walk_back_nil, walk_back_nil]
        | cons last above => rw [walk_back, walk_back, ih]
      · rw [walk_enter hback, walk_enter hback, ih]
        rfl
  simp only [locate, hwalk]

@[simp] theorem put_put (t : FileTree) (place : List String) (content content' : Text) :
    (t.put place content).put place content' = t.put place content' := by
  simp [put, List.filter_filter]

@[simp] theorem lookup_put (t : FileTree) (place : List String) (content : Text) :
    (t.put place content).files.lookup place = some content := by
  simp [put]

theorem lookup_put_of_ne (h : other ≠ place) :
    (t.put place content).files.lookup other = t.files.lookup other := by
  have hfilter (files : List (List String × Text)) :
      (files.filter fun f => f.1 != place).lookup other = files.lookup other := by
    induction files with
    | nil => rfl
    | cons f rest ih =>
      obtain ⟨key, value⟩ := f
      by_cases hkey : key = place
      · subst hkey
        simp [List.lookup_cons, beq_false_of_ne h, ih]
      · simp [List.lookup_cons, hkey, ih]
  simp only [put, List.lookup_cons, beq_false_of_ne h, hfilter]

theorem write?_eq (h : t.locate path = some place) (content : Text) :
    t.write? path content = some (t.put place content) := by
  simp [write?, h, put]

theorem read?_eq (h : t.locate path = some place) : t.read? path = t.files.lookup place := by
  simp [read?, h]

/-! ### Actions -/

theorem run_bind {α β : Type} (x : StateM FileTree α) (f : α → StateM FileTree β) (t : FileTree) :
    (x >>= f) t = f (x t).1 (x t).2 := rfl

theorem run_pure {α : Type} (a : α) (t : FileTree) : (pure a : StateM FileTree α) t = (a, t) := rfl

theorem readFile_eq {text : Text} (h : t.read? path = some text) :
    (MonadFiles.readFile path : StateM FileTree _) t = (.ok text, t) := by
  simp only [MonadFiles.readFile, h]

theorem writeFile_eq (h : t.locate path = some place) (content : Text) :
    (MonadFiles.writeFile path content : StateM FileTree _) t = (.ok (), t.put place content) := by
  simp only [MonadFiles.writeFile, write?_eq h]

/-- What a file holds in the end; without known content it stays empty. -/
def contentOf (content : Except ClassFileError Text) : Text :=
  content.toOption.getD []

/-- A file is made first and then filled. -/
theorem createFile_eq (h : t.locate path = some place) (content : Except ClassFileError Text) :
    (createFile path content : StateM FileTree _) t =
      ((content.mapError (FileError.write path)).map fun _ => (),
        t.put place (contentOf content)) := by
  have h' : (t.put place []).locate path = some place := by rw [locate_put, h]
  cases content with
  | error e =>
    simp only [createFile, run_bind, writeFile_eq h, run_pure]
    rfl
  | ok content =>
    simp only [createFile, run_bind, writeFile_eq h, writeFile_eq h', put_put, run_pure]
    rfl

/-! ### Compilations -/

/-- What comes of compiling a source file of a tree. -/
def outcome (t : FileTree) (path : String) (d : Destination) : Except FileError String :=
  ((compileFile path d : StateM FileTree _) t).1.2

/-- The tree behind the compilation. -/
def after (t : FileTree) (path : String) (d : Destination) : FileTree :=
  ((compileFile path d : StateM FileTree _) t).2

/-- The source file and the directory of the results are there. -/
structure Ready (t : FileTree) (path : String) (d : Destination) (text : Text)
    (here : List String) : Prop where
  /-- The source file can be read. -/
  source : t.read? path = some text
  /-- The directory is one of the tree, -/
  rooted : (Path.ofString d.directory).rooted = false
  /-- and reached from the working directory. -/
  directory : t.walk [] (Path.ofString d.directory).names = some here.reverse

/-- The name of the file for a result of the program `p`. -/
def resultName (p : Program) (ending : String) : String :=
  p.name.shown ++ ending

theorem isName_resultName {p : Program} (hp : p.WellFormed) {ending : String}
    (hslash : '/' ∉ ending.toList) (hlong : 3 ≤ ending.toList.length) :
    Path.IsName (resultName p ending) ∧ resultName p ending ≠ ".." := by
  have hlist : (resultName p ending).toList = p.name.characters ++ ending.toList := by
    simp [resultName, Text.shown]
  have hshort {name : String} (h : name.toList.length < 3) : resultName p ending ≠ name := by
    rintro rfl
    rw [hlist, List.length_append] at h
    omega
  refine ⟨⟨?_, hshort (by decide), hshort (by decide)⟩, hshort (by decide)⟩
  rw [hlist, hp.name.isPlain.characters, List.mem_append, not_or]
  refine ⟨fun hmem => ?_, hslash⟩
  obtain ⟨b, hb, hchar⟩ := List.mem_map.1 hmem
  -- The bytes of a name are those of letters, digits and underscores.
  have hword := hp.name.isWordPart b hb
  have hplain := hp.name.isPlain b hb
  have hcode := congrArg Char.toNat hchar
  rw [Text.IsPlain.toNat_ofNat hplain.2] at hcode
  rw [Character.isWordPart_iff, Character.isWordStart_iff, Character.isDigit_iff] at hword
  have hslash : '/'.toNat = 0x2F := rfl
  omega

variable {d : Destination} {text : Text} {here : List String} {p : Program}

/-- The results have their places in the directory. -/
theorem Ready.locate (h : t.Ready path d text here) (hp : p.WellFormed) {ending : String}
    (hslash : '/' ∉ ending.toList) (hlong : 3 ≤ ending.toList.length) :
    t.locate (d.path p ending) = some (here ++ [resultName p ending]) := by
  obtain ⟨hname, hback⟩ := isName_resultName hp hslash hlong
  have hrooted := h.rooted
  have hwalk := h.directory
  rw [show d.path p ending =
    Path.join (if d.directory.isEmpty then "." else d.directory) (resultName p ending) from rfl]
  by_cases hempty : d.directory = ""
  · -- Without a directory the results go to the working directory.
    rw [hempty] at hwalk
    have hjoin : t.locate (Path.join "." (resultName p ending)) =
        some (here.reverse.reverse ++ [resultName p ending]) :=
      locate_join (by decide) rfl hwalk hname hback
    rw [List.reverse_reverse] at hjoin
    simpa [hempty] using hjoin
  · have hjoin := locate_join hempty hrooted hwalk hname hback
    rw [List.reverse_reverse] at hjoin
    simpa [hempty] using hjoin

/-- The tree with the graph of a program, if it is asked for. -/
def withGraph (t : FileTree) (d : Destination) (p : Program) (here : List String) : FileTree :=
  if d.graph then t.put (here ++ [resultName p ".dot"]) (Text.ofString p.graph) else t

@[simp] theorem locate_withGraph (t : FileTree) (d : Destination) (p : Program)
    (here : List String) (path : String) : (t.withGraph d p here).locate path = t.locate path := by
  unfold withGraph
  split
  · rw [locate_put]
  · rfl

theorem writeGraph_eq (h : t.Ready path d text here) (hp : p.WellFormed) : ∃ log,
    (writeGraph d p : StateM FileTree _) t = ((log, .ok ()), t.withGraph d p here) := by
  have hdot : t.locate (d.path p ".dot") = some (here ++ [resultName p ".dot"]) :=
    h.locate hp (by decide) (by decide)
  unfold writeGraph withGraph
  split
  · simp only [run_bind, createFile_eq hdot, run_pure]
    exact ⟨_, rfl⟩
  · exact ⟨[], rfl⟩

theorem writeClassFile_eq {f : ClassFile} (h : t.locate (d.path p ".class") = some place) : ∃ log,
    (writeClassFile d p f : StateM FileTree _) t =
      ((log, (f.encode.mapError (FileError.write (d.path p ".class"))).map fun _ =>
        d.path p ".class"), t.put place (contentOf f.encode)) := by
  unfold writeClassFile
  simp only [run_bind, createFile_eq h, run_pure]
  cases f.encode <;> exact ⟨_, rfl⟩

/-- A text that is refused changes nothing. -/
theorem Ready.refused (h : t.Ready path d text here) {e : EmitError}
    (hbuild : (Build.ofText text).result = .error e) :
    t.outcome path d = .error (.build e) ∧ t.after path d = t := by
  simp only [outcome, after, compileFile, run_bind, readFile_eq h.source, hbuild, run_pure,
    and_self]

/-- A text that is accepted is written, the graph of its program in front of its class file. -/
theorem Ready.accepted (h : t.Ready path d text here) {f : ClassFile}
    (hbuild : (Build.ofText text).result = .ok (p, f)) :
    t.outcome path d = ((f.encode.mapError (FileError.write (d.path p ".class"))).map fun _ =>
        d.path p ".class") ∧
      t.after path d =
        (t.withGraph d p here).put (here ++ [resultName p ".class"]) (contentOf f.encode) := by
  have hp : p.WellFormed := (Build.checked hbuild).1.wellFormed
  have hclass : (t.withGraph d p here).locate (d.path p ".class") =
      some (here ++ [resultName p ".class"]) := by
    rw [locate_withGraph]
    exact h.locate hp (by decide) (by decide)
  obtain ⟨graphLog, hgraph⟩ := writeGraph_eq h hp
  obtain ⟨log, hfile⟩ := writeClassFile_eq (f := f) hclass
  simp only [outcome, after, compileFile, run_bind, readFile_eq h.source, hbuild, hgraph, hfile,
    run_pure, and_self]

/-- How the compilation of the source text `text`, which stands at `path`, into the directory at
`here` ends, and what becomes of the files. -/
structure Compiles (t : FileTree) (path : String) (d : Destination) (text : Text)
    (here : List String) : Prop where
  /-- A compilation that fails leaves all files as they are, unless the text is accepted and one of
  its names does not fit the format. -/
  failed : ∀ e, t.outcome path d = .error e → t.after path d = t ∨
    ∃ p f, (Build.ofText text).result = .ok (p, f) ∧ ¬ p.NamesFit
  /-- One that succeeds yields the path of the class file, which holds the bytes of what was
  built. -/
  succeeded : ∀ result, t.outcome path d = .ok result → ∃ p f bytes,
    (Build.ofText text).result = .ok (p, f) ∧ result = d.path p ".class" ∧ f.encode = .ok bytes ∧
      (t.after path d).read? result = some bytes
  /-- A text that is refused leaves all files as they are. -/
  refused : ∀ e, (Build.ofText text).result = .error e →
    t.outcome path d = .error (.build e) ∧ t.after path d = t
  /-- The class file of an accepted text holds its bytes, if the names fit the format. -/
  written : ∀ p f, (Build.ofText text).result = .ok (p, f) → p.NamesFit →
    ∃ bytes, f.encode = .ok bytes ∧ t.outcome path d = .ok (d.path p ".class") ∧
      (t.after path d).read? (d.path p ".class") = some bytes
  /-- If they do not, the compilation fails with an empty class file. -/
  cutShort : ∀ p f, (Build.ofText text).result = .ok (p, f) → ¬ p.NamesFit →
    ∃ length, 0xFFFF < length ∧ f.encode = .error (.utf8TooLong length) ∧
      t.outcome path d = .error (.write (d.path p ".class") (.utf8TooLong length)) ∧
      (t.after path d).read? (d.path p ".class") = some []
  /-- The graph of an accepted text is there on demand. -/
  graph : ∀ p f, (Build.ofText text).result = .ok (p, f) → d.graph = true →
    (t.after path d).read? (d.path p ".dot") = some (Text.ofString p.graph)
  /-- All other files stay as they are. -/
  others : ∀ p f, (Build.ofText text).result = .ok (p, f) → ∀ place,
    place ≠ here ++ [resultName p ".class"] →
    (d.graph = true → place ≠ here ++ [resultName p ".dot"]) →
    (t.after path d).files.lookup place = t.files.lookup place

theorem resultName_dot_ne_class (p : Program) : resultName p ".dot" ≠ resultName p ".class" := by
  intro h
  have hlength := congrArg String.length h
  simp only [resultName, String.length_append, Nat.add_left_cancel_iff] at hlength
  exact absurd hlength (by decide)

/-- The class file of an accepted text holds what is known of its bytes. -/
theorem Ready.read?_class (h : t.Ready path d text here) {f : ClassFile}
    (hbuild : (Build.ofText text).result = .ok (p, f)) :
    (t.after path d).read? (d.path p ".class") = some (contentOf f.encode) := by
  have hclass : t.locate (d.path p ".class") = some (here ++ [resultName p ".class"]) :=
    h.locate (Build.checked hbuild).1.wellFormed (by decide) (by decide)
  rw [(h.accepted hbuild).2, read?_eq (by rw [locate_put, locate_withGraph, hclass]), lookup_put]

/-- An accepted text whose names fit is written. -/
theorem Ready.written (h : t.Ready path d text here) {f : ClassFile}
    (hbuild : (Build.ofText text).result = .ok (p, f)) (hfit : p.NamesFit) :
    ∃ bytes, f.encode = .ok bytes ∧ t.outcome path d = .ok (d.path p ".class") ∧
      (t.after path d).read? (d.path p ".class") = some bytes := by
  obtain ⟨hp, hfile⟩ := Build.checked hbuild
  obtain ⟨pool, hemitted⟩ := Program.emitted_of_classFile hp.wellFormed hfile
  obtain ⟨bytes, hbytes⟩ := (hemitted.exists_encode_iff hp.wellFormed).2 hfit
  have houtcome := (h.accepted hbuild).1
  have hread := h.read?_class hbuild
  rw [hbytes] at houtcome hread
  exact ⟨bytes, hbytes, houtcome, hread⟩

/-- An accepted text with a name that does not fit leaves an empty class file. -/
theorem Ready.cutShort (h : t.Ready path d text here) {f : ClassFile}
    (hbuild : (Build.ofText text).result = .ok (p, f)) (hfit : ¬ p.NamesFit) :
    ∃ length, 0xFFFF < length ∧ f.encode = .error (.utf8TooLong length) ∧
      t.outcome path d = .error (.write (d.path p ".class") (.utf8TooLong length)) ∧
      (t.after path d).read? (d.path p ".class") = some [] := by
  obtain ⟨hp, hfile⟩ := Build.checked hbuild
  obtain ⟨pool, hemitted⟩ := Program.emitted_of_classFile hp.wellFormed hfile
  cases hencode : f.encode with
  | ok bytes => exact absurd ((hemitted.exists_encode_iff hp.wellFormed).1 ⟨bytes, hencode⟩) hfit
  | error e =>
    obtain ⟨length, hlong, rfl⟩ := hemitted.length_of_encode_eq_error hencode
    have houtcome := (h.accepted hbuild).1
    have hread := h.read?_class hbuild
    rw [hencode] at houtcome hread
    exact ⟨length, hlong, rfl, houtcome, hread⟩

/-- **Compiling a file**, if it is there and the directory of the results is: a text that is refused
changes no file, and an accepted one is written to its class file; but the class file is emptied
when a name of the program turns out not to fit the format. -/
theorem compiles (h : t.Ready path d text here) : t.Compiles path d text here where
  failed e he := by
    cases hbuild : (Build.ofText text).result with
    | error e' => exact Or.inl (h.refused hbuild).2
    | ok result =>
      obtain ⟨p, f⟩ := result
      by_cases hfit : p.NamesFit
      · obtain ⟨bytes, -, hok, -⟩ := h.written hbuild hfit
        rw [he] at hok
        cases hok
      · exact Or.inr ⟨p, f, rfl, hfit⟩
  succeeded result hresult := by
    cases hbuild : (Build.ofText text).result with
    | error e =>
      rw [(h.refused hbuild).1] at hresult
      cases hresult
    | ok built =>
      obtain ⟨p, f⟩ := built
      by_cases hfit : p.NamesFit
      · obtain ⟨bytes, hbytes, hok, hread⟩ := h.written hbuild hfit
        obtain rfl := Except.ok.inj (hok.symm.trans hresult)
        exact ⟨p, f, bytes, rfl, rfl, hbytes, hread⟩
      · obtain ⟨length, -, -, herror, -⟩ := h.cutShort hbuild hfit
        rw [herror] at hresult
        cases hresult
  refused _ hbuild := h.refused hbuild
  written _ _ hbuild hfit := h.written hbuild hfit
  cutShort _ _ hbuild hfit := h.cutShort hbuild hfit
  graph p f hbuild hgraph := by
    -- the graph has a file of its own, beside the class file
    have hdot : t.locate (d.path p ".dot") = some (here ++ [resultName p ".dot"]) :=
      h.locate (Build.checked hbuild).1.wellFormed (by decide) (by decide)
    have hne : here ++ [resultName p ".dot"] ≠ here ++ [resultName p ".class"] := by
      simpa using resultName_dot_ne_class p
    rw [(h.accepted hbuild).2, read?_eq (by rw [locate_put, locate_withGraph, hdot]),
      lookup_put_of_ne hne, withGraph, if_pos hgraph, lookup_put]
  others p f hbuild place hclass hdot := by
    rw [(h.accepted hbuild).2, lookup_put_of_ne hclass, withGraph]
    split
    · rename_i hgraph
      exact lookup_put_of_ne (hdot hgraph)
    · rfl

/-- A directory with a source file and a directory for the results. -/
def factorialTree : FileTree :=
  { directories := [["out"]], files := [(["f.sst"], factorialSource)] }

theorem compiles_factorial : ∃ p f bytes, (Build.ofText factorialSource).result = .ok (p, f) ∧
    f.encode = .ok bytes ∧
    factorialTree.outcome "f.sst" ⟨"out", true⟩ = .ok (Destination.path ⟨"out", true⟩ p ".class") ∧
    (factorialTree.after "f.sst" ⟨"out", true⟩).read? (Destination.path ⟨"out", true⟩ p ".class") =
      some bytes ∧
    (factorialTree.after "f.sst" ⟨"out", true⟩).files.lookup ["f.sst"] = some factorialSource := by
  have hplace : factorialTree.locate "f.sst" = some ["f.sst"] := by decide
  have hready : factorialTree.Ready "f.sst" ⟨"out", true⟩ factorialSource ["out"] :=
    { source := by rw [read?_eq hplace]; rfl
      rooted := by decide
      directory := by decide }
  obtain ⟨p, f, hbuild, -, hfit, -⟩ := factorialSource_builds
  have hfiles := compiles hready
  obtain ⟨bytes, hbytes, hok, hread⟩ := hfiles.written p f hbuild hfit
  have hother (ending : String) : ["f.sst"] ≠ ["out"] ++ [resultName p ending] := by simp
  exact ⟨p, f, bytes, hbuild, hbytes, hok, hread,
    hfiles.others p f hbuild ["f.sst"] (hother _) fun _ => hother _⟩

end FileTree

end Classwright
