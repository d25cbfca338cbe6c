import Mathlib
import DocRefs.Proofs.RunFailures

/-!
# Which file an import names

A relative import is joined to the directory of its importer. The path that results is taken as it
is when a file is there; else a file beside it that has its name as stem is taken, else the index
file of the directory there, and the path itself when nothing is found. Which files count is said
here by the files of the disk alone, and of several the one with the foremost extension is taken.
Only the extension is left open by the stem, so the file is determined, and no order in which a
directory lists its names has a say.
-/

namespace DocRefs

/-- A file of a directory that has the stem and one of the extensions. -/
structure StemFile (disk : Disk) (extensions : List Text) (directory : Path) (stem : Text)
    (p : Path) : Prop where
  normal : Path.IsNormal p
  isFile : disk.isFile p = true
  dirname_eq : Path.dirname p = directory
  stem_eq : Path.stem (Path.basename p) = stem
  extension_mem : Path.extension p ∈ extensions

/-- Of the files of a directory that have the stem the one with the foremost extension. -/
structure Foremost (disk : Disk) (extensions : List Text) (directory : Path) (stem : Text)
    (p : Path) : Prop extends StemFile disk extensions directory stem p where
  idxOf_le : ∀ q, StemFile disk extensions directory stem q →
    extensions.idxOf (Path.extension p) ≤ extensions.idxOf (Path.extension q)

/-- The file that a collapsed path names, by the files of the disk alone. -/
inductive Names (disk : Disk) (extensions : List Text) (c : Path) : Path → Prop
  | itself (hfile : disk.isFile c = true) : Names disk extensions c c
  | sibling {p : Path} (hfile : disk.isFile c = false)
      (hp : Foremost disk extensions (Path.dirname c) (Path.basename c) p) :
      Names disk extensions c p
  | index {p : Path} (hfile : disk.isFile c = false)
      (hsiblings : ∀ q, ¬StemFile disk extensions (Path.dirname c) (Path.basename c) q)
      (hdir : disk.isDir c = true) (hp : Foremost disk extensions c indexStem p) :
      Names disk extensions c p
  | missing (hfile : disk.isFile c = false)
      (hsiblings : ∀ q, ¬StemFile disk extensions (Path.dirname c) (Path.basename c) q)
      (hindices : ∀ q, ¬StemFile disk extensions c indexStem q) : Names disk extensions c c

/-! ## Files that share a stem -/

namespace StemFile

variable {disk disk' : Disk} {extensions : List Text} {directory p q : Path} {stem : Text}

/-- The directory and the name of a file. -/
theorem exists_eq_rooted (h : StemFile disk extensions directory stem p) :
    ∃ n steps s, (n = 1 ∨ n = 2) ∧ (∀ t ∈ steps ++ [s], Path.IsName t) ∧
      directory = Path.rooted n steps ∧ p = Path.rooted n (steps ++ [s]) ∧ Path.stem s = stem ∧
      Path.extension s = Path.extension p := by
  obtain ⟨⟨n, steps, hn, hsteps, rfl⟩, hfile, hdirname, hstem, -⟩ := h
  rcases List.eq_nil_or_concat steps with rfl | ⟨init, s, rfl⟩
  · simp [Disk.isFile_rooted_nil hn] at hfile
  · rw [List.concat_eq_append] at hsteps hdirname hstem ⊢
    have hslash := (hsteps s (by simp)).slash_notMem
    rw [Path.dirname_rooted hn hsteps] at hdirname
    rw [Path.basename_rooted hn init hslash] at hstem
    have hextension := Path.extension_rooted hn init hslash
    exact ⟨n, init, s, hn, hsteps, hdirname.symm, rfl, hstem, hextension.symm⟩

/-- The stem and the extension are the name. -/
theorem eq_join (h : StemFile disk extensions directory stem p) :
    p = Path.join directory (stem ++ Path.extension p) := by
  obtain ⟨n, steps, s, hn, hsteps, rfl, rfl, rfl, hextension⟩ := h.exists_eq_rooted
  rw [← hextension, Path.stem_append_extension,
    Path.join_rooted hn (fun t ht => hsteps t (List.mem_append_left _ ht)) (hsteps s (by simp))]

/-- Only the directory, the stem and the extension tell files apart. -/
theorem eq_of_extension_eq (h : StemFile disk extensions directory stem p)
    (h' : StemFile disk' extensions directory stem q)
    (hextension : Path.extension p = Path.extension q) : p = q := by
  rw [h.eq_join, h'.eq_join, hextension]

/-- A directory with a file in it is a directory. -/
theorem isDir (h : StemFile disk extensions directory stem p) : disk.isDir directory = true := by
  obtain ⟨n, steps, s, hn, hsteps, rfl, rfl, -⟩ := h.exists_eq_rooted
  obtain ⟨names, hnames, -⟩ := Disk.exists_list_of_isFile hn hsteps h.isFile
  unfold Disk.list at hnames
  unfold Disk.isDir Disk.entry?
  cases hentry : disk.entry (Path.rooted n steps) with
  | error why => simp [hentry, Bind.bind, Except.bind] at hnames
  | ok e =>
      cases e with
      | file content =>
          simp [hentry, Bind.bind, Except.bind, throw, throwThe, MonadExceptOf.throw] at hnames
      | dir entries => rfl

/-- The same files on another disk. -/
theorem congr (hfiles : ∀ q, Path.IsNormal q → disk'.isFile q = disk.isFile q)
    (h : StemFile disk extensions directory stem p) :
    StemFile disk' extensions directory stem p :=
  { h with isFile := (hfiles p h.normal).trans h.isFile }

end StemFile

theorem Foremost.unique {disk disk' : Disk} {extensions : List Text} {directory p q : Path}
    {stem : Text} (hfiles : ∀ q, Path.IsNormal q → disk'.isFile q = disk.isFile q)
    (h : Foremost disk extensions directory stem p)
    (h' : Foremost disk' extensions directory stem q) : p = q := by
  have hle := h.idxOf_le q (h'.toStemFile.congr fun r hr => (hfiles r hr).symm)
  have hge := h'.idxOf_le p (h.toStemFile.congr hfiles)
  exact h.eq_of_extension_eq h'.toStemFile ((List.idxOf_inj h.extension_mem).mp
    (Nat.le_antisymm hle hge))

/-! ## What a path names -/

namespace Names

variable {disk disk' : Disk} {extensions : List Text} {c p q : Path}

theorem isNormal (hc : Path.IsNormal c) (h : Names disk extensions c p) : Path.IsNormal p := by
  cases h with
  | itself _ => exact hc
  | sibling _ hp => exact hp.normal
  | index _ _ _ hp => exact hp.normal
  | missing _ _ _ => exact hc

/-- The files of the disk determine what a path names. -/
theorem unique (hc : Path.IsNormal c)
    (hfiles : ∀ q, Path.IsNormal q → disk'.isFile q = disk.isFile q)
    (h : Names disk extensions c p) (h' : Names disk' extensions c q) : p = q := by
  have hsame := hfiles c hc
  have hback : ∀ {directory stem r}, StemFile disk' extensions directory stem r →
      StemFile disk extensions directory stem r := fun hr =>
    hr.congr fun q hq => (hfiles q hq).symm
  cases h with
  | itself hfile =>
      cases h' with
      | itself _ => rfl
      | sibling hnot _ => simp [hsame, hfile] at hnot
      | index hnot _ _ _ => simp [hsame, hfile] at hnot
      | missing _ _ _ => rfl
  | sibling hfile hp =>
      cases h' with
      | itself hnot => simp [hsame, hfile] at hnot
      | sibling _ hq => exact hp.unique hfiles hq
      | index _ hsiblings _ _ => exact absurd (hp.toStemFile.congr hfiles) (hsiblings p)
      | missing _ hsiblings _ => exact absurd (hp.toStemFile.congr hfiles) (hsiblings p)
  | index hfile hsiblings _ hp =>
      cases h' with
      | itself hnot => simp [hsame, hfile] at hnot
      | sibling _ hq => exact absurd (hback hq.toStemFile) (hsiblings q)
      | index _ _ _ hq => exact hp.unique hfiles hq
      | missing _ _ hindices => exact absurd (hp.toStemFile.congr hfiles) (hindices p)
  | missing hfile hsiblings hindices =>
      cases h' with
      | itself _ => rfl
      | sibling _ hq => exact absurd (hback hq.toStemFile) (hsiblings q)
      | index _ _ _ hq => exact absurd (hback hq.toStemFile) (hindices q)
      | missing _ _ _ => rfl

end Names

/-! ## What is looked for -/

section Search

variable {disk : Disk} {extensions : List Text} {c directory : Path} {stem : Text}

theorem idxOf_foldl_betterName_le (extensions : List Text) (name : Text) (others : List Text) :
    ∀ other ∈ name :: others,
      extensions.idxOf (Path.extension (others.foldl (betterName extensions) name)) ≤
        extensions.idxOf (Path.extension other) := by
  induction others generalizing name with
  | nil => simp
  | cons next others ih =>
      have hbest := ih (betterName extensions name next)
      have hfirst := hbest _ List.mem_cons_self
      have hbetter : extensions.idxOf (Path.extension (betterName extensions name next)) ≤
            extensions.idxOf (Path.extension name) ∧
          extensions.idxOf (Path.extension (betterName extensions name next)) ≤
            extensions.idxOf (Path.extension next) := by
        unfold betterName
        split <;> omega
      rw [List.foldl_cons]
      intro other hother
      rcases List.mem_cons.mp hother with rfl | hother
      · exact hfirst.trans hbetter.1
      · rcases List.mem_cons.mp hother with rfl | hother
        · exact hfirst.trans hbetter.2
        · exact hbest other (List.mem_cons_of_mem _ hother)

/-- A file that has the stem is among the names that its directory lists. -/
theorem StemFile.exists_name {names : List Text} {q : Path}
    (h : StemFile disk extensions directory stem q)
    (hnames : disk.listOrEmpty directory = .ok names) :
    ∃ name ∈ names, Path.stem name = stem ∧ Path.extension name = Path.extension q ∧
      q = Path.join directory name := by
  obtain ⟨n, steps, s, hn, hsteps, rfl, rfl, hstem, hextension⟩ := h.exists_eq_rooted
  obtain ⟨names', hlist, hmem⟩ := Disk.exists_list_of_isFile hn hsteps h.isFile
  obtain rfl : names' = names := by simpa [Disk.listOrEmpty, hlist] using hnames
  exact ⟨s, hmem, hstem, hextension, (Path.join_rooted hn
    (fun t ht => hsteps t (List.mem_append_left _ ht)) (hsteps s (by simp))).symm⟩

theorem extension_join {name : Text} (hdirectory : Path.IsNormal directory)
    (hname : Path.IsName name) :
    Path.extension (Path.join directory name) = Path.extension name := by
  obtain ⟨n, steps, hn, hsteps, rfl⟩ := hdirectory
  rw [Path.join_rooted hn hsteps hname, Path.extension_rooted hn steps hname.slash_notMem]

/-- A file in a directory has the stem of its name. -/
theorem stemFile_join {name : Text} (hdirectory : Path.IsNormal directory)
    (hname : Path.IsName name) (hfile : disk.isFile (Path.join directory name) = true)
    (hextension : Path.extension name ∈ extensions) :
    StemFile disk extensions directory (Path.stem name) (Path.join directory name) := by
  have hjoined := extension_join hdirectory hname
  obtain ⟨n, steps, hn, hsteps, rfl⟩ := hdirectory
  have hboth : ∀ t ∈ steps ++ [name], Path.IsName t := by
    simpa [or_imp, forall_and] using ⟨hsteps, hname⟩
  rw [Path.join_rooted hn hsteps hname] at hfile hjoined ⊢
  refine ⟨⟨n, _, hn, hboth, rfl⟩, hfile, Path.dirname_rooted hn hboth, ?_, ?_⟩
  · rw [Path.basename_rooted hn steps hname.slash_notMem]
  · rwa [hjoined]

/-- The search for a stem finds the foremost file, and finds one when there is any. The names that
have the stem have to be steps of a path. -/
theorem stemMatch?_foremost (hdirectory : Path.IsNormal directory)
    (hname : ∀ name, Path.stem name = stem → disk.isFile (Path.join directory name) = true →
      Path.IsName name) {found? : Option Text}
    (h : stemMatch? disk extensions directory stem = .ok found?) :
    (found? = none → ∀ q, ¬StemFile disk extensions directory stem q) ∧
      ∀ name, found? = some name →
        Foremost disk extensions directory stem (Path.join directory name) := by
  unfold stemMatch? at h
  cases hnames : disk.listOrEmpty directory with
  | error e => simp [hnames, Bind.bind, Except.bind] at h
  | ok names =>
      simp only [hnames, Bind.bind, Except.bind] at h
      generalize hcandidates : names.filter _ = candidates at h
      -- The candidates are the names of the files that have the stem.
      have hlisted : ∀ q, StemFile disk extensions directory stem q →
          ∃ name ∈ candidates, q = Path.join directory name := by
        intro q hq
        obtain ⟨name, hmem, hstem, hextension, rfl⟩ := hq.exists_name hnames
        refine ⟨name, ?_, rfl⟩
        rw [← hcandidates, List.mem_filter]
        simp [hmem, hstem, hextension, hq.isFile, hq.extension_mem]
      have hof : ∀ name ∈ candidates, StemFile disk extensions directory stem
          (Path.join directory name) ∧ Path.extension (Path.join directory name) =
            Path.extension name := by
        intro name hmem
        rw [← hcandidates, List.mem_filter] at hmem
        simp only [Bool.and_eq_true, decide_eq_true_eq, List.contains_iff_mem] at hmem
        obtain ⟨-, ⟨rfl, hextension⟩, hfile⟩ := hmem
        have hs := hname name rfl hfile
        exact ⟨stemFile_join hdirectory hs hfile hextension, extension_join hdirectory hs⟩
      split at h
      · obtain rfl := Except.ok.inj h
        refine ⟨fun _ q hq => ?_, by simp⟩
        obtain ⟨name, hmem, -⟩ := hlisted q hq
        simp at hmem
      next first others =>
        obtain rfl := Except.ok.inj h
        refine ⟨by simp, ?_⟩
        rintro name ⟨⟩
        obtain ⟨hfile, hextension⟩ := hof _ (foldl_betterName_mem extensions first others)
        refine ⟨hfile, fun q hq => ?_⟩
        obtain ⟨other, hmem, rfl⟩ := hlisted q hq
        rw [hextension, (hof other hmem).2]
        exact idxOf_foldl_betterName_le extensions first others other hmem

/-- The search for a file ends with the file that the path names. -/
theorem target?_names (hc : Path.IsNormal c) {found? : Option Path}
    (h : target? disk extensions c = .ok found?) : Names disk extensions c (found?.getD c) := by
  unfold target? at h
  split at h
  next hfile =>
    obtain rfl := Except.ok.inj h
    exact .itself hfile
  next hfile =>
    rw [Bool.not_eq_true] at hfile
    have hsiblings := @stemMatch?_foremost disk extensions (Path.split c).1 (Path.split c).2
      (Path.isNormal_dirname hc) fun name => isName_of_sibling hc
    have hindices := @stemMatch?_foremost disk extensions c indexStem hc fun name hstem _ =>
      Path.isName_of_isName_stem (hstem ▸ isName_indexStem)
    rw [Path.split_eq] at h hsiblings
    dsimp only at h hsiblings
    cases hmatch : stemMatch? disk extensions (Path.dirname c) (Path.basename c) with
    | error e => simp [hmatch, Bind.bind, Except.bind] at h
    | ok sibling? =>
        obtain ⟨hnone, hsome⟩ := hsiblings hmatch
        simp only [hmatch, Bind.bind, Except.bind] at h
        cases sibling? with
        | some name =>
            obtain rfl := Except.ok.inj h
            exact .sibling hfile (hsome name rfl)
        | none =>
            dsimp only at h
            split at h
            next hdir =>
              cases hindex : stemMatch? disk extensions c indexStem with
              | error e => simp [hindex] at h
              | ok index? =>
                  simp only [hindex, Pure.pure, Except.pure, Except.ok.injEq] at h
                  subst h
                  obtain ⟨hnoIndex, hindex'⟩ := hindices hindex
                  cases index? with
                  | none => exact .missing hfile (hnone rfl) (hnoIndex rfl)
                  | some name => exact .index hfile (hnone rfl) hdir (hindex' name rfl)
            next hdir =>
              -- Where there is no directory, there is no index file in it.
              obtain rfl := Except.ok.inj h
              exact .missing hfile (hnone rfl) fun q hq => hdir hq.isDir

end Search

/-! ## The answer -/

namespace Session

variable {scope : Scope} {disk : Disk} {specifier : Text}

theorem targetOf_names {importer p : Path} (himporter : Path.IsNormal importer)
    (h : targetOf scope disk importer specifier = .ok p) :
    Names disk (Path.extension importer :: scope.extensions) (candidate importer specifier) p := by
  unfold targetOf at h
  split at h
  next found? hfound =>
    obtain rfl := Except.ok.inj h
    exact target?_names (isNormal_candidate himporter specifier) hfound
  next => simp at h

theorem targetOf_eq_error_iff {importer : Path} (himporter : Path.IsNormal importer)
    {e : Failure} :
    targetOf scope disk importer specifier = .error e ↔
      ∃ why, disk.list (Path.dirname (candidate importer specifier)) = .error why ∧
        why ≠ .notFound ∧ why ≠ .notADirectory ∧ e = .disk why := by
  rw [← Disk.listOrEmpty_eq_error_iff,
    ← target?_eq_error_iff (isNormal_candidate himporter specifier)
      (preferredBy importer scope.extensions)]
  unfold targetOf
  cases target? disk (preferredBy importer scope.extensions) (candidate importer specifier) <;> simp

/-- **Which file an import names.** A session that remembers nothing answers a relative import with
the file that the joined path names, where the importer's own extension comes first and then those
of the settings. That file is the only one it names, its path is normal, and every disk with the
same files gives it. There is no answer only when the directory of the joined path cannot be listed
for another reason than that it is not there. -/
theorem resolvePath_names {settings : Settings}
    (hscope : Scope.ofSettings disk.cwdPath settings = .ok scope) (filename : Path)
    (hrelative : Specifier.isRelative specifier = true) (log : Log) :
    let importer := scope.normalize filename
    let c := candidate importer specifier
    let extensions := Path.extension importer :: scope.extensions
    Settings.preferredExtensions settings.extensions = .ok scope.extensions ∧
      (∀ e, (resolvePath scope (.still disk) filename specifier log .fresh).answer = .error e ↔
        ∃ why, disk.list (Path.dirname c) = .error why ∧
          why ≠ .notFound ∧ why ≠ .notADirectory ∧ e = .disk why) ∧
      ∀ p?, (resolvePath scope (.still disk) filename specifier log .fresh).answer = .ok p? →
        ∃ p, p? = some p ∧ Names disk extensions c p ∧
          (∀ q, Names disk extensions c q → q = p) ∧ scope.normalize p = p ∧
          ∀ disk', (∀ q, Path.IsNormal q → disk'.isFile q = disk.isFile q) →
            ∀ log' q?, (resolvePath scope (.still disk') filename specifier log' .fresh).answer =
              .ok q? → q? = some p := by
  intro importer c extensions
  have hnormal : Path.IsNormal importer := Batch.isNormal_normalize hscope filename
  have hc : Path.IsNormal c := isNormal_candidate hnormal specifier
  have hanswer : ∀ disk log,
      (resolvePath scope (.still disk) filename specifier log .fresh).answer =
        (targetOf scope disk importer specifier).map some := fun disk log => by
    have hmeets : (resolvePath scope (.still disk) filename specifier).Meets .fresh _ :=
      meets_resolvePath_of_new hrelative rfl
    exact (hmeets log).1
  have hsome : ∀ disk log p?,
      (resolvePath scope (.still disk) filename specifier log .fresh).answer = .ok p? →
        ∃ p, p? = some p ∧ Names disk extensions c p := by
    intro disk log p? hp
    rw [hanswer] at hp
    cases htarget : targetOf scope disk importer specifier with
    | error e => simp [htarget, Except.map] at hp
    | ok p =>
        refine ⟨p, ?_, targetOf_names hnormal htarget⟩
        simpa [htarget, Except.map, eq_comm] using hp
  refine ⟨?_, fun e => ?_, fun p? hp => ?_⟩
  · obtain ⟨extensions, hextensions, rfl⟩ := Batch.exists_of_scope hscope
    exact hextensions
  · rw [hanswer, ← targetOf_eq_error_iff hnormal]
    cases targetOf scope disk importer specifier <;> simp [Except.map]
  · obtain ⟨p, rfl, hnames⟩ := hsome disk log p? hp
    refine ⟨p, rfl, hnames, fun q hq => hq.unique hc (fun _ _ => rfl) hnames,
      (hnames.isNormal hc).normalize_eq scope.cwd, fun disk' hfiles log' q? hq => ?_⟩
    obtain ⟨q, rfl, hnames'⟩ := hsome disk' log' q? hq
    rw [hnames.unique hc hfiles hnames']

/-- A script in a directory whose name no disk can hold. -/
def longSpecifier : Text := "./".toList ++ Batch.longName ++ "/b".toList

set_option maxRecDepth 100000 in
/-- A typed script imports a stem, and beside it is a script only. Where nothing is there but a name
on the way is too long to be looked for, there is no answer. -/
theorem sample_import_names_sibling :
    (resolvePath Batch.sampleScope (.still Batch.sampleDisk) "d/../c.ts".toList "./a".toList []
        .fresh).answer = .ok (some "/p/a.js".toList) ∧
      Names Batch.sampleDisk (".ts".toList :: Settings.defaultExtensions) "/p/a".toList
        "/p/a.js".toList ∧
      (∀ q, Names Batch.sampleDisk (".ts".toList :: Settings.defaultExtensions) "/p/a".toList q →
        q = "/p/a.js".toList) ∧
      Batch.longDisk.isFile (candidate Batch.samplePath longSpecifier) = false ∧
      (resolvePath Batch.sampleScope (.still Batch.longDisk) Batch.samplePath longSpecifier []
        .fresh).answer = .error (.disk .nameTooLong) := by
  have hanswer : (resolvePath Batch.sampleScope (.still Batch.sampleDisk) "d/../c.ts".toList
      "./a".toList [] .fresh).answer = .ok (some "/p/a.js".toList) := by
    decide +kernel
  have himporter : Path.extension (Batch.sampleScope.normalize "d/../c.ts".toList) =
      ".ts".toList := by
    decide +kernel
  have hjoined : candidate (Batch.sampleScope.normalize "d/../c.ts".toList) "./a".toList =
      "/p/a".toList := by
    decide +kernel
  obtain ⟨-, -, hnames⟩ := resolvePath_names Batch.sample_scope "d/../c.ts".toList
    (show Specifier.isRelative "./a".toList = true by decide +kernel) []
  obtain ⟨p, hp, hnames, hunique, -⟩ := hnames _ hanswer
  obtain rfl := Option.some.inj hp
  rw [himporter, hjoined] at hnames hunique
  have hlong : Scope.ofSettings Batch.longDisk.cwdPath Batch.sampleSettings =
      .ok Batch.sampleScope := rfl
  obtain ⟨-, hfails, -⟩ := resolvePath_names hlong Batch.samplePath
    (show Specifier.isRelative longSpecifier = true by decide +kernel) []
  refine ⟨hanswer, hnames, hunique, by decide +kernel, (hfails _).mpr ?_⟩
  exact ⟨.nameTooLong, by decide +kernel, by simp, by simp, rfl⟩

end Session

end DocRefs
