import Mathlib
import DocRefs.Command.Run
import DocRefs.Proofs.LoadFailures
import DocRefs.Proofs.WrittenRoots

/-!
# Source roots of loaded settings

Source roots come from a configuration file, from a jsdoc configuration, from the environment, from
the project's directories or from the command line. The main statement is that loaded settings have
at least one, that each is absolute and normal whichever way it came, and that roots which a file
lists are seen from the directory of that file.
-/

namespace DocRefs

namespace Settings

variable {vars : Variables} {cwd : Path} {base file project : Route}
  {table : List (Value × Value)} {s : Settings}

/-- There are source roots, and each is an absolute path that normalising does not change, wherever
it is done. -/
structure HasUsableRoots (s : Settings) : Prop where
  ne_nil : s.roots ≠ []
  absolute : ∀ root ∈ s.roots, Path.isAbsolute root = true
  normal : ∀ root ∈ s.roots, ∀ cwd, Path.normalize cwd root = root

theorem HasUsableRoots.of_roots_eq {s' : Settings} (h : s.HasUsableRoots)
    (hroots : s'.roots = s.roots) : s'.HasUsableRoots where
  ne_nil := hroots ▸ h.ne_nil
  absolute := hroots ▸ h.absolute
  normal := hroots ▸ h.normal

theorem hasUsableRoots_of_normal (hne : s.roots ≠ [])
    (hroots : ∀ root ∈ s.roots, Path.IsNormal root) : s.HasUsableRoots where
  ne_nil := hne
  absolute := fun root hroot => (hroots root hroot).isAbsolute
  normal := fun root hroot cwd => (hroots root hroot).normalize_eq cwd

theorem hasUsableRoots_ofRoots (hcwd : Path.isAbsolute cwd = true) {roots : List Path}
    (hne : roots ≠ []) : (ofRoots cwd roots).HasUsableRoots := by
  refine hasUsableRoots_of_normal (by simpa [ofRoots] using hne) fun root hroot => ?_
  obtain ⟨p, -, rfl⟩ := List.mem_map.mp hroot
  exact Path.isNormal_normalize hcwd p

/-- Settings from a table have usable roots if they have any. -/
theorem hasUsableRoots_ofTable (hcwd : Path.isAbsolute cwd = true)
    (h : ofTable cwd base table = .ok s) (hne : s.roots ≠ []) : s.HasUsableRoots := by
  have houtcome := tableOutcome_of_ok h
  rcases houtcome.writes with hnone | ⟨v, ts, hv, hts⟩
  · exact absurd (houtcome.roots_eq_nil_iff.mpr (.inl hnone)) hne
  · obtain rfl := Except.ok.inj ((ofTable_eq hv hts).symm.trans h)
    refine hasUsableRoots_of_normal hne fun root hroot => ?_
    obtain ⟨t, -, rfl⟩ := List.mem_map.mp hroot
    exact Path.isNormal_normalize hcwd _

theorem hasUsableRoots_defaults {disk : Disk} (h : defaults vars disk project = .ok s) :
    s.HasUsableRoots := by
  unfold defaults at h
  cases henv : Environment.ofVariables vars with
  | error why => simp [henv, Bind.bind, Except.bind] at h
  | ok env =>
      simp only [henv, Bind.bind, Except.bind] at h
      split at h
      next hlisted =>
        refine hasUsableRoots_ofTable rfl h ?_
        obtain rfl := Except.ok.inj
          ((ofTable_eq (lookup?_rootsKey _) (.many env.sourceRoots)).symm.trans h)
        simpa [withRoots, List.isEmpty_iff] using hlisted
      next =>
        split at h
        · cases h
        · obtain rfl := Except.ok.inj h
          exact hasUsableRoots_ofRoots rfl (by simp)

/-! ## Every way of loading -/

/-- If an answer gives settings, these have a property. -/
def Gives (P : Settings → Prop) (r : Except Failure Settings) : Prop := ∀ s, r = .ok s → P s

variable {P : Settings → Prop}

theorem gives_error (e : Failure) : Gives P (.error e) := fun _ h => nomatch h

theorem gives_ok (h : P s) : Gives P (.ok s) := by
  intro s' hs
  obtain rfl := Except.ok.inj hs
  exact h

theorem meets_ofExcept_bind_gives {α : Type} {r : Except Failure α} {f : α → Logged Settings}
    (hf : ∀ a, r = .ok a → (f a).Meets () fun r _ => Gives P r) :
    (Op.ofExcept r >>= f).Meets () fun r _ => Gives P r :=
  Op.meets_ofExcept_bind (fun e _ => gives_error e) hf

variable {view : View} {path : Path} {config : Option Path}

section Usable

variable [Parsers]

theorem meets_ofFile_usable :
    (ofFile vars view file).Meets () fun r _ => Gives HasUsableRoots r := by
  have hread : (readTable view file).Meets () fun _ _ => True := fun _ => trivial
  unfold ofFile
  refine hread.bind (fun e _ _ => gives_error e) fun table _ _ => ?_
  refine Op.meets_view_bind fun disk => ?_
  refine meets_ofExcept_bind_gives fun s hs => ?_
  split
  next =>
    -- A file without roots leaves them to the defaults of its directory.
    refine meets_ofExcept_bind_gives fun d hd => ?_
    exact fun _ => gives_ok ((hasUsableRoots_defaults hd).of_roots_eq rfl)
  next hlisted =>
    have hroots : s.HasUsableRoots :=
      hasUsableRoots_ofTable rfl hs (by simpa [List.isEmpty_iff] using hlisted)
    exact fun _ => gives_ok hroots

theorem meets_ofJsdoc_usable :
    (ofJsdoc vars view file).Meets () fun r _ => Gives HasUsableRoots r := by
  have hread : (readTable view file).Meets () fun _ _ => True := fun _ => trivial
  unfold ofJsdoc
  refine hread.bind (fun e _ _ => gives_error e) fun table _ _ => ?_
  refine Op.meets_view_bind fun disk => ?_
  refine meets_ofExcept_bind_gives fun included _ => ?_
  split
  next hpresent =>
    refine Op.meets_ofExcept fun s hs => hasUsableRoots_ofTable rfl hs ?_
    -- What counts as present is no empty list.
    rw [ne_eq, (tableOutcome_of_ok hs).roots_eq_nil_iff, lookup?_rootsKey]
    rintro (hnone | hnil)
    · simp at hnone
    · simp [Option.some.inj hnil, Value.isPresent] at hpresent
  next => exact Op.meets_ofExcept fun _ => hasUsableRoots_defaults

theorem meets_load_usable :
    (load vars view path config).Meets () fun r _ => Gives HasUsableRoots r := by
  unfold load
  refine Op.meets_view_bind fun disk => ?_
  dsimp only
  split
  next c =>
    refine meets_ofExcept_bind_gives fun there _ => ?_
    split
    · exact meets_ofFile_usable
    · exact Op.meets_fail (gives_error _)
  next =>
    refine meets_ofExcept_bind_gives fun found _ => ?_
    split
    next => exact Op.meets_log_bind meets_ofFile_usable
    next =>
      refine meets_ofExcept_bind_gives fun found' _ => ?_
      split
      next => exact Op.meets_log_bind meets_ofJsdoc_usable
      next => exact Op.meets_log_bind (Op.meets_ofExcept fun _ => hasUsableRoots_defaults)

end Usable

/-! ## Roots that a file lists -/

/-- The directory of a file, as a path. -/
def folder (disk : Disk) (file : Route) : Path := Path.dirname (disk.normalize file.toPath)

/-- Roots as a file writes them, each joined to the directory of the file and normalised. -/
def seenFrom (disk : Disk) (file : Route) (ts : List Text) : List Path :=
  ts.map fun t => disk.normalize (Path.join (folder disk file) t)

/-- A table lists these texts as source roots. -/
inductive TableLists (table : List (Value × Value)) : List Text → Prop
  | intro {v : Value} {ts : List Text} (hv : Value.lookup? rootsKey table = some v)
      (hts : Writes v ts) (hne : ts ≠ []) : TableLists table ts

/-- A jsdoc configuration lists these texts as its included sources. -/
inductive JsdocLists (table : List (Value × Value)) : List Text → Prop
  | intro {es : List (Value × Value)} {v : Value} {ts : List Text}
      (hsource : Value.lookup? "source".toList table = some (.map es))
      (hv : Value.lookup? "include".toList es = some v) (hpresent : v.isPresent = true)
      (hts : Writes v ts) : JsdocLists table ts

/-- What is listed by the table in a file. -/
def InFile [Parsers] (disk : Disk) (file : Route) (lists : List (Value × Value) → List Text → Prop)
    (ts : List Text) : Prop :=
  ∃ table, TableAt disk file table ∧ lists table ts

/-- Settings follow what a file lists: they have these roots, seen from the directory of the file,
or those of the defaults when there are none. -/
structure FollowsFile (vars : Variables) (disk : Disk) (file : Route) (lists : List Text → Prop)
    (s : Settings) : Prop where
  listed : ∀ ts, lists ts → s.roots = seenFrom disk file ts
  unlisted : (∀ ts, ¬lists ts) →
    ∃ d, defaults vars disk (directoryOf disk file) = .ok d ∧ s.roots = d.roots

variable {disk : Disk} {ts : List Text} {v : Value}

theorem seenFrom_eq_nil_iff : seenFrom disk file ts = [] ↔ ts = [] := by
  simp [seenFrom]

/-- A root seen from the base directory of a file is one joined to the file's directory. -/
theorem normalize_child_directoryOf (disk : Disk) (file : Route) (t : Text) :
    Path.normalize disk.cwdPath ((directoryOf disk file).child t).toPath =
      disk.normalize (Path.join (folder disk file) t) := by
  obtain ⟨n, steps, hn, hsteps, habsolute⟩ :
      Path.IsNormal (Path.absolute disk.cwdPath file.toPath) :=
    Path.isNormal_absolute rfl file.toPath
  have hnormal : Path.IsNormal (Path.rooted n steps) := ⟨n, steps, hn, hsteps, rfl⟩
  have hfolder : folder disk file = Path.rooted n steps.dropLast := by
    rw [folder, Disk.normalize, Path.normalize, habsolute, hnormal.collapse_eq,
      Path.dirname_rooted_eq hn hsteps]
  have hdirectory : directoryOf disk file = Route.ofPath (folder disk file) := by
    have hfront : ∀ t ∈ steps.dropLast, Path.IsName t :=
      fun t ht => hsteps t (List.mem_of_mem_dropLast ht)
    rw [hfolder, directoryOf, habsolute, Path.ofPath_rooted hn hsteps, Route.parent,
      Path.ofPath_rooted hn hfront]
  rw [hdirectory, Path.normalize_child, Disk.normalize]

theorem TableAt.unique [Parsers] {table' : List (Value × Value)} (h : TableAt disk file table)
    (h' : TableAt disk file table') : table = table' := by
  obtain ⟨content, hread, hparse⟩ := h
  have heq : parse file content = .ok (.map table') := (tableAt_iff_of_read hread).mp h'
  exact Value.map.inj (Except.ok.inj (hparse.symm.trans heq))

theorem meets_readTable_bind_follows [Parsers] (h : IsThere disk file)
    {lists : List (Value × Value) → List Text → Prop} {f : List (Value × Value) → Logged Settings}
    (hf : ∀ table, (f table).Meets () fun r _ =>
      Gives (FollowsFile vars disk file (lists table)) r) :
    (readTable (.still disk) file >>= f).Meets () fun r _ =>
      Gives (FollowsFile vars disk file (InFile disk file lists)) r := by
  refine (meets_readTable h).bind (fun e _ _ => gives_error e) fun table _ hread => ?_
  have htable : TableAt disk file table := (hread.table table).mp rfl
  refine (hf table).mono fun _ _ hfollows s hs => ⟨?_, fun hnone => ?_⟩
  · rintro ts ⟨table', htable', hlists⟩
    obtain rfl := htable.unique htable'
    exact (hfollows s hs).listed ts hlists
  · exact (hfollows s hs).unlisted fun ts hlists => hnone ts ⟨table, htable, hlists⟩

theorem roots_of_writes (hv : Value.lookup? rootsKey table = some v) (hts : Writes v ts)
    (hs : ofTable disk.cwdPath (directoryOf disk file) table = .ok s) :
    s.roots = seenFrom disk file ts := by
  obtain rfl := Except.ok.inj ((ofTable_eq hv hts).symm.trans hs)
  exact List.map_congr_left fun t _ => normalize_child_directoryOf disk file t

/-- Settings of a table that lists no roots have none. -/
theorem roots_eq_nil_of_unlisted (hnone : ∀ ts, ¬TableLists table ts)
    (hs : ofTable disk.cwdPath (directoryOf disk file) table = .ok s) : s.roots = [] := by
  have houtcome := tableOutcome_of_ok hs
  rcases houtcome.writes with habsent | ⟨v, ts, hv, hts⟩
  · exact houtcome.roots_eq_nil_iff.mpr (.inl habsent)
  · rw [roots_of_writes hv hts hs, seenFrom_eq_nil_iff]
    by_contra hne
    exact hnone ts ⟨hv, hts, hne⟩

theorem meets_ofFile_follows [Parsers] (h : IsThere disk file) :
    (ofFile vars (.still disk) file).Meets () fun r _ =>
      Gives (FollowsFile vars disk file (InFile disk file TableLists)) r := by
  unfold ofFile
  refine meets_readTable_bind_follows h fun table => ?_
  apply Op.meets_see_bind
  refine meets_ofExcept_bind_gives fun s hs => ?_
  have hlisted : ∀ ts, TableLists table ts → s.roots = seenFrom disk file ts ∧ ts ≠ [] := by
    rintro ts ⟨hv, hts, hne⟩
    exact ⟨roots_of_writes hv hts hs, hne⟩
  split
  next hempty =>
    -- An empty list counts as none, so the roots are those of the defaults.
    refine meets_ofExcept_bind_gives fun d hd => ?_
    refine fun _ => gives_ok ⟨fun ts hts => ?_, fun _ => ⟨d, hd, rfl⟩⟩
    obtain ⟨hroots, hne⟩ := hlisted ts hts
    exact absurd (seenFrom_eq_nil_iff.mp (hroots.symm.trans (List.isEmpty_iff.mp hempty))) hne
  next hroots =>
    refine fun _ => gives_ok ⟨fun ts hts => (hlisted ts hts).1, fun hnone => ?_⟩
    exact absurd (List.isEmpty_iff.mpr (roots_eq_nil_of_unlisted hnone hs)) hroots

theorem IncludesNothing.not_jsdocLists (hnothing : IncludesNothing table) (ts : List Text) :
    ¬JsdocLists table ts := by
  rintro ⟨hsource, hv, hpresent, -⟩
  simp [hnothing.isPresent_eq_false hsource hv] at hpresent

theorem meets_ofJsdoc_follows [Parsers] (h : IsThere disk file) :
    (ofJsdoc vars (.still disk) file).Meets () fun r _ =>
      Gives (FollowsFile vars disk file (InFile disk file JsdocLists)) r := by
  unfold ofJsdoc
  refine meets_readTable_bind_follows h fun table => ?_
  have houtcome := includeOutcome_jsdocInclude table
  apply Op.meets_see_bind
  generalize jsdocInclude table = included at houtcome
  cases houtcome with
  | odd _ _ _ => exact Op.meets_fail (gives_error _)
  | nothing hnothing habsent =>
      refine meets_ofExcept_bind_gives fun v hv => ?_
      obtain rfl := Except.ok.inj hv
      rw [if_neg (by simp [habsent])]
      exact Op.meets_ofExcept fun s hs =>
        ⟨fun ts hts => absurd hts (hnothing.not_jsdocLists ts), fun _ => ⟨s, hs, rfl⟩⟩
  | @roots es v hsource hinclude hpresent =>
      refine meets_ofExcept_bind_gives fun included hincluded => ?_
      obtain rfl := Except.ok.inj hincluded
      rw [if_pos hpresent]
      refine Op.meets_ofExcept fun s hs => ⟨?_, fun hnone => ?_⟩
      · rintro ts ⟨hsource', hinclude', -, hts⟩
        obtain rfl := Value.map.inj (Option.some.inj (hsource.symm.trans hsource'))
        obtain rfl := Option.some.inj (hinclude.symm.trans hinclude')
        exact roots_of_writes (lookup?_rootsKey _) hts hs
      · have houtcome := tableOutcome_of_ok hs
        rw [lookup?_rootsKey] at houtcome
        rcases houtcome.writes with habsent | ⟨v', ts, hv', hts⟩
        · simp at habsent
        · obtain rfl := Option.some.inj hv'
          exact absurd ⟨hsource, hinclude, hpresent, hts⟩ (hnone ts)

section Sources

variable [Parsers] {a : Command.Arguments} {log : Log}

/-- The file that is consulted lists these texts as source roots. -/
inductive Lists (disk : Disk) (path : Path) (config : Option Path) : Route → List Text → Prop
  | own {file : Route} {ts : List Text} (hfile : Consults disk path config (.own file))
      (h : InFile disk file TableLists ts) : Lists disk path config file ts
  | jsdoc {file : Route} {ts : List Text} (hfile : Consults disk path config (.jsdoc file))
      (h : InFile disk file JsdocLists ts) : Lists disk path config file ts

/-- The directory whose defaults stand in when nothing is listed. -/
def Source.directory (disk : Disk) (path : Path) : Source → Route
  | .own file => directoryOf disk file
  | .jsdoc file => directoryOf disk file
  | .fallback => projectRoute disk path

/-- Settings follow what is consulted: a file that lists roots gives them, seen from its own
directory, and otherwise they are those of the defaults. -/
structure FollowsSource (vars : Variables) (disk : Disk) (path : Path) (config : Option Path)
    (s : Settings) : Prop where
  listed : ∀ file ts, Lists disk path config file ts → s.roots = seenFrom disk file ts
  unlisted : (∀ file ts, ¬Lists disk path config file ts) →
    ∃ source d, Consults disk path config source ∧
      defaults vars disk (source.directory disk path) = .ok d ∧ s.roots = d.roots

theorem followsSource_of_load
    (hload : (load vars (.still disk) path config log ()).answer = .ok s) :
    FollowsSource vars disk path config s := by
  have hown : ∀ file, Consults disk path config (.own file) →
      FollowsFile vars disk file (InFile disk file TableLists) s := fun file hfile =>
    hfile.meets_own (meets_ofFile_follows (hfile.isThere.1 file rfl)) log s hload
  have hjsdoc : ∀ file, Consults disk path config (.jsdoc file) →
      FollowsFile vars disk file (InFile disk file JsdocLists) s := fun file hfile =>
    hfile.meets_jsdoc (meets_ofJsdoc_follows (hfile.isThere.2 file rfl)) log s hload
  refine ⟨fun file ts hlists => ?_, fun hnone => ?_⟩
  · cases hlists with
    | own hfile h => exact (hown file hfile).listed ts h
    | jsdoc hfile h => exact (hjsdoc file hfile).listed ts h
  · rcases consults_cases disk path config with
      ⟨source, hsource⟩ | ⟨c, rfl, hmissing | hname⟩ | ⟨rfl, hname⟩
    · refine ⟨source, ?_⟩
      cases source with
      | own file =>
          obtain ⟨d, hd, hroots⟩ := (hown file hsource).unlisted
            fun ts h => hnone file ts (.own hsource h)
          exact ⟨d, hsource, hd, hroots⟩
      | jsdoc file =>
          obtain ⟨d, hd, hroots⟩ := (hjsdoc file hsource).unlisted
            fun ts h => hnone file ts (.jsdoc hsource h)
          exact ⟨d, hsource, hd, hroots⟩
      | fallback =>
          have hanswer : (load vars (.still disk) path config).Meets () fun r _ =>
              r = defaults vars disk (projectRoute disk path) := hsource.meets_fallback rfl
          exact ⟨s, hsource, (hanswer log).symm.trans hload, rfl⟩
    · obtain ⟨problem, file, hanswer⟩ := meets_load_missing hmissing log
      cases hanswer.symm.trans hload
    · cases (meets_load_fileName hname log).symm.trans hload
    · cases (meets_load_projectName hname log).symm.trans hload

/-! ## The command line -/

/-- Roots of the command line replace those that are loaded. -/
theorem exists_of_command (h : (Command.settings vars view a log ()).answer = .ok s) :
    ∃ log' loaded, (load vars view (Route.ofPath a.project).toPath a.config log ()).answer =
        .ok loaded ∧
      (a.roots = [] → s = loaded) ∧
        (a.roots ≠ [] → s.roots = (ofRoots (view log').cwdPath a.roots).roots) := by
  unfold Command.settings at h
  cases hload : (load vars view (Route.ofPath a.project).toPath a.config log ()).answer with
  | error e =>
      rw [Op.bind_of_error hload] at h
      simp at h
  | ok loaded =>
      rw [Op.bind_of_ok hload, Op.bind_of_ok rfl] at h
      refine ⟨(load vars view (Route.ofPath a.project).toPath a.config log ()).log, loaded, rfl, ?_⟩
      split at h
      next hnone =>
        obtain rfl := Except.ok.inj h
        exact ⟨fun _ => rfl, fun hsome => absurd (List.isEmpty_iff.mp hnone) hsome⟩
      next hsome =>
        obtain rfl := Except.ok.inj h
        exact ⟨fun hnone => absurd (List.isEmpty_iff.mpr hnone) hsome, fun _ => rfl⟩

theorem hasUsableRoots_of_command (h : (Command.settings vars view a log ()).answer = .ok s) :
    s.HasUsableRoots := by
  obtain ⟨log', loaded, hload, hnone, hsome⟩ := exists_of_command h
  by_cases hroots : a.roots = []
  · rw [hnone hroots]
    exact meets_load_usable log loaded hload
  · exact (hasUsableRoots_ofRoots rfl hroots).of_roots_eq (hsome hroots)

/-- **Loaded settings have usable roots.** Whatever is on the disk and in the environment, settings
that are loaded have source roots, and each is absolute and normal. Roots that a file lists are
those it writes, each joined to the directory of this file and normalised; when no file lists any,
they are the defaults. Roots of the command line replace both, and are as usable. -/
theorem loaded_roots_usable (vars : Variables) (log : Log) :
    (∀ view path config s, (load vars view path config log ()).answer = .ok s →
      s.HasUsableRoots) ∧
    (∀ disk path config s, (load vars (.still disk) path config log ()).answer = .ok s →
      FollowsSource vars disk path config s) ∧
    (∀ view a s, (Command.settings vars view a log ()).answer = .ok s → s.HasUsableRoots) ∧
    ∀ disk a s, (Command.settings vars (.still disk) a log ()).answer = .ok s →
      (a.roots = [] → FollowsSource vars disk (Route.ofPath a.project).toPath a.config s) ∧
        (a.roots ≠ [] → s.roots = a.roots.map disk.normalize) := by
  refine ⟨fun _ _ _ s hs => meets_load_usable log s hs, fun _ _ _ _ => followsSource_of_load,
    fun _ _ _ => hasUsableRoots_of_command, fun disk a s hs => ?_⟩
  obtain ⟨log', loaded, hload, hnone, hsome⟩ := exists_of_command hs
  refine ⟨fun hroots => ?_, hsome⟩
  rw [hnone hroots]
  exact followsSource_of_load hload

end Sources

/-- The roots of settings, if there are settings. -/
def rootsOf? : Except Failure Settings → Option (List Path)
  | .ok s => some s.roots
  | .error _ => none

theorem exists_of_rootsOf? {r : Except Failure Settings} {roots : List Path}
    (h : rootsOf? r = some roots) : ∃ s, r = .ok s ∧ s.roots = roots := by
  cases r with
  | error e => cases h
  | ok s => exact ⟨s, rfl, Option.some.inj h⟩

/-- The source roots of a configuration file. -/
def writtenRoots : List Text := ["src/../lib".toList, "../w//a".toList]

/-- A configuration file with these roots. -/
def writtenText : Text := "\x7b\"source_roots\": [\"src/../lib\", \"../w//a\"]\x7d".toList

/-- A project with this configuration file, and another directory to work in. -/
def writtenDisk : Disk :=
  ⟨.sub ['w'] .empty (.sub ['p']
    (.file ".typeref.config.json".toList (Encoding.encodeUtf8 writtenText) .empty) .empty), [['w']]⟩

/-- The file of the project. -/
def writtenFile : Route :=
  (projectRoute writtenDisk "/p".toList).child ".typeref.config.json".toList

theorem lists_written : Lists writtenDisk "/p".toList none writtenFile writtenRoots := by
  have hfile : FirstThere writtenDisk (projectRoute writtenDisk "/p".toList) configNames
      writtenFile :=
    .intro (List.nil_append _).symm (by simp [NoneThere]) (by decide +kernel)
  have hread : writtenDisk.read writtenFile.toPath = .ok (Encoding.encodeUtf8 writtenText) := by
    decide +kernel
  have hfold : foldNewlines writtenText = writtenText := by decide +kernel
  have hjson : Json.read writtenText = .ok (.map [(.text rootsKey, .texts writtenRoots)]) := by
    cbv
  have hparse : parse writtenFile (Encoding.encodeUtf8 writtenText) =
      .ok (.map [(.text rootsKey, .texts writtenRoots)]) := by
    have hyaml : isYaml writtenFile = false := by decide +kernel
    rw [parse, if_neg (by simp [hyaml]), Encoding.decodeUtf8_encodeUtf8]
    dsimp only
    rw [hfold]
    exact hjson
  have hlists : TableLists [(.text rootsKey, .texts writtenRoots)] writtenRoots :=
    ⟨lookup?_rootsKey _, .many writtenRoots, by decide⟩
  exact .own (.own hfile) ⟨_, ⟨_, hread, hparse⟩, hlists⟩

/-- A command line for the project, with roots or without. -/
def listing (roots : List Text) : Command.Arguments :=
  { command := .link, roots := roots, project := "/p".toList }

theorem written_roots_loaded : ∃ s s' s'',
    (load [] (.still writtenDisk) "/p".toList none [] ()).answer = .ok s ∧ s.HasUsableRoots ∧
    s.roots = seenFrom writtenDisk writtenFile writtenRoots ∧
    s.roots = ["/p/lib".toList, "/w/a".toList] ∧
    (Command.settings [] (.still writtenDisk) (listing []) [] ()).answer = .ok s' ∧
    s'.HasUsableRoots ∧ s'.roots = seenFrom writtenDisk writtenFile writtenRoots ∧
    (Command.settings [] (.still writtenDisk) (listing ["x/.".toList]) [] ()).answer = .ok s'' ∧
    s''.HasUsableRoots ∧ s''.roots = ["/w/x".toList] := by
  obtain ⟨husable, hsource, hcommand, hreplaced⟩ := loaded_roots_usable [] []
  have hload : rootsOf? (load [] (.still writtenDisk) "/p".toList none [] ()).answer =
      some ["/p/lib".toList, "/w/a".toList] := by
    decide +kernel
  have hsettings : rootsOf? (Command.settings [] (.still writtenDisk) (listing []) [] ()).answer =
      some ["/p/lib".toList, "/w/a".toList] := by
    decide +kernel
  have hgiven : rootsOf? (Command.settings [] (.still writtenDisk) (listing ["x/.".toList]) []
      ()).answer = some ["/w/x".toList] := by
    decide +kernel
  obtain ⟨s, hs, hroots⟩ := exists_of_rootsOf? hload
  obtain ⟨s', hs', -⟩ := exists_of_rootsOf? hsettings
  obtain ⟨s'', hs'', hroots''⟩ := exists_of_rootsOf? hgiven
  have hfollows : FollowsSource [] writtenDisk "/p".toList none s' :=
    (hreplaced _ _ _ hs').1 rfl
  exact ⟨s, s', s'', hs, husable _ _ _ _ hs, (hsource _ _ _ _ hs).listed _ _ lists_written, hroots,
    hs', hcommand _ _ _ hs', hfollows.listed _ _ lists_written, hs'', hcommand _ _ _ hs'', hroots''⟩

end Settings

end DocRefs
