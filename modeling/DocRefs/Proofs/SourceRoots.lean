import Mathlib
import DocRefs.Proofs.RunFailures

/-!
# Source roots and the sources found under them

Sources are found by walking the tree from every root, and a module id is derived from a path by
looking for a root in front of it. The two agree on all that is found below a directory. A root that
is itself a file is found as well, but it lies below no root unless it lies below another one, and
then no id can be derived for it: a run over all sources fails at such a file when its module tag
has no name.
-/

namespace DocRefs

/-- Every name in the tree is one that a path can take. -/
def Dir.IsProper : Dir → Prop
  | empty => True
  | file n _ rest => Path.IsName n ∧ rest.IsProper
  | sub n entries rest => Path.IsName n ∧ entries.IsProper ∧ rest.IsProper

/-- A root that is a file and lies below no root. -/
structure Settings.IsAlone (disk : Disk) (settings : Settings) (p : Path) : Prop where
  mem_roots : p ∈ settings.roots
  isFile : disk.isFile p = true
  below : ∀ root ∈ settings.roots, ¬Path.rootWithSlash root <+: p

/-! ## Paths below a root -/

namespace Path

variable {n : Nat} {steps names : List Text}

theorem rootWithSlash_rooted (hn : n = 1 ∨ n = 2) (hsteps : ∀ t ∈ steps, IsName t) (s : Text) :
    rooted n (steps ++ [s]) = rootWithSlash (rooted n steps) ++ s := by
  rw [rooted_concat, rootWithSlash]
  by_cases hnil : steps = []
  · subst hnil
    rcases hn with rfl | rfl <;> rfl
  · rw [if_neg hnil, if_neg (by simpa using getLast?_rooted_ne hsteps hnil)]

theorem rootWithSlash_isPrefix (hn : n = 1 ∨ n = 2) (hsteps : ∀ t ∈ steps, IsName t)
    (hne : names ≠ []) : rootWithSlash (rooted n steps) <+: rooted n (steps ++ names) := by
  obtain ⟨s, names, rfl⟩ := List.exists_cons_of_ne_nil hne
  have hfirst : rootWithSlash (rooted n steps) <+: rooted n (steps ++ [s]) := by
    rw [rootWithSlash_rooted hn hsteps]
    exact List.prefix_append _ _
  have hrest := Disk.rooted_isPrefix n (steps ++ [s]) names
  rw [List.append_assoc] at hrest
  exact hfirst.trans hrest

theorem join_append {q : Path} (hq : q ≠ []) (p r : Path) : join p (q ++ r) = join p q ++ r := by
  unfold join
  rw [isAbsolute_append hq]
  split
  · rfl
  · split <;> simp

/-- Names joined to a path of names are more names. -/
theorem join_rooted_names (hn : n = 1 ∨ n = 2) (hsteps : ∀ t ∈ steps, IsName t) (hne : names ≠ [])
    (hnames : ∀ t ∈ names, IsName t) :
    join (rooted n steps) (Text.join ['/'] names) = rooted n (steps ++ names) := by
  induction names using List.reverseRecOn with
  | nil => exact absurd rfl hne
  | append_singleton names s ih =>
      by_cases hnil : names = []
      · subst hnil
        exact join_rooted hn hsteps (hnames s (by simp))
      · have hfront : ∀ t ∈ names, IsName t := fun t ht => hnames t (List.mem_append_left _ ht)
        have hjoin : Text.join ['/'] names ≠ [] := by
          obtain ⟨first, rest, rfl⟩ := List.exists_cons_of_ne_nil hnil
          have hfirst := (hfront first (by simp)).ne_nil
          cases rest <;> simp [Text.join, hfirst]
        rw [Text.join_concat '/' hnil, join_append hjoin, ih hnil hfront, ← List.append_assoc,
          rooted_concat, if_neg (by simp [hnil])]
        simp

end Path

/-! ## Proper trees -/

namespace Dir

variable {d : Dir} {extensions exclude : List Text} {names : List Text}

theorem IsProper.get? {name : Text} {entries : Dir} (hd : d.IsProper)
    (h : d.get? name = some (.dir entries)) : entries.IsProper := by
  induction d with
  | empty => simp [Dir.get?] at h
  | file n content rest ih =>
      rw [Dir.get?] at h
      split at h
      · simp at h
      · exact ih hd.2 h
  | sub n inner rest _ ih =>
      rw [Dir.get?] at h
      split at h
      · obtain rfl : inner = entries := by simpa using h
        exact hd.2.1
      · exact ih hd.2.2 h

theorem IsProper.find? {place : List Text} {entries : Dir} (hd : d.IsProper)
    (h : d.find? place = some (.dir entries)) : entries.IsProper := by
  induction place generalizing d with
  | nil =>
      obtain rfl : d = entries := by simpa [Dir.find?] using h
      exact hd
  | cons name place ih =>
      obtain ⟨inner, hget, -⟩ := hasDir_cons_iff.mp ⟨entries, h⟩
      rw [Dir.find?, hget] at h
      exact ih (hd.get? hget) h

/-- A source of a proper tree is found by names. -/
theorem IsProper.of_mem_sources (hd : d.IsProper) (h : names ∈ d.sources extensions exclude) :
    names ≠ [] ∧ ∀ n ∈ names, Path.IsName n := by
  induction d generalizing names with
  | empty => simp [sources] at h
  | file n content rest ih =>
      rw [sources] at h
      split at h
      · rcases List.mem_cons.mp h with rfl | h
        · simpa using hd.1
        · exact ih hd.2 h
      · exact ih hd.2 h
  | sub n entries rest ihEntries ih =>
      rw [sources] at h
      split at h
      · exact ih hd.2.2 h
      · rcases List.mem_append.mp h with h | h
        · obtain ⟨inner, hinner, rfl⟩ := List.mem_map.mp h
          exact ⟨by simp, List.forall_mem_cons.mpr ⟨hd.1, (ihEntries hd.2.1 hinner).2⟩⟩
        · exact ih hd.2.2 h

end Dir

/-! ## What is found -/

namespace Batch

variable {disk : Disk} {settings : Settings} {scope : Scope} {extensions exclude : List Text}
  {root p : Path}

theorem mem_filesBelow {entries : Dir} : p ∈ filesBelow extensions exclude root entries ↔
    ∃ names ∈ entries.sources extensions exclude, Disk.fits (Path.dirname p) = true ∧
      Path.join root (Text.join ['/'] names) = p := by
  unfold filesBelow
  rw [List.mem_filter, List.mem_map]
  constructor
  · rintro ⟨⟨names, hnames, rfl⟩, hfits⟩
    exact ⟨names, hnames, hfits, rfl⟩
  · rintro ⟨names, hnames, hfits, rfl⟩
    exact ⟨⟨names, hnames, rfl⟩, hfits⟩

theorem mem_sourcesUnder_of_isFile (hroot : Path.IsNormal root) (hfile : disk.isFile root = true) :
    root ∈ sourcesUnder disk extensions exclude root := by
  unfold Disk.isFile at hfile
  unfold sourcesUnder
  cases hentry : disk.entry? root with
  | none => simp [hentry] at hfile
  | some e =>
      cases e with
      | file content => simp [Disk.normalize, hroot.normalize_eq]
      | dir entries => simp [hentry, Entry.isFile] at hfile

/-- What is found under a root is the root itself, or lies below it. -/
theorem sourcesUnder_cases (htree : disk.root.IsProper) (hroot : Path.IsNormal root)
    (hp : p ∈ sourcesUnder disk extensions exclude root) :
    (p = root ∧ disk.isFile root = true) ∨ Path.rootWithSlash root <+: p := by
  unfold sourcesUnder at hp
  cases hentry : disk.entry? root with
  | none => simp [hentry] at hp
  | some e =>
      cases e with
      | file content =>
          left
          refine ⟨?_, by simp [Disk.isFile, hentry, Entry.isFile]⟩
          simpa [hentry, Disk.normalize, hroot.normalize_eq] using hp
      | dir entries =>
          right
          simp only [hentry] at hp
          obtain ⟨below, hbelow, rfl⟩ := List.mem_map.mp hp
          obtain ⟨names, hnames, -, rfl⟩ := mem_filesBelow.mp hbelow
          -- Names on the disk are steps of a path, so none of them leads out of the root.
          obtain ⟨place, -, hfind⟩ := Disk.entry?_eq_some_iff.mp hentry
          have hproper : entries.IsProper := htree.find? hfind
          obtain ⟨hne, hall⟩ := hproper.of_mem_sources hnames
          obtain ⟨n, steps, hn, hsteps, rfl⟩ := hroot
          have hboth : ∀ t ∈ steps ++ names, Path.IsName t := by
            simpa [or_imp, forall_and] using ⟨hsteps, hall⟩
          rw [Path.join_rooted_names hn hsteps hne hall, Disk.normalize,
            Path.IsNormal.normalize_eq ⟨n, _, hn, hboth, rfl⟩]
          exact Path.rootWithSlash_isPrefix hn hsteps hne

theorem isNormal_of_mem_sourcesUnder (hp : p ∈ sourcesUnder disk extensions exclude root) :
    Path.IsNormal p := by
  unfold sourcesUnder at hp
  split at hp
  · obtain rfl := List.mem_singleton.mp hp
    exact Path.isNormal_normalize rfl root
  · obtain ⟨below, -, rfl⟩ := List.mem_map.mp hp
    exact Path.isNormal_normalize rfl _
  · simp at hp

theorem mem_sourcesOn_iff {files : List Path} (h : sourcesOn disk settings = .ok files) :
    ∃ extensions exclude, ∀ p, p ∈ files ↔
      ∃ root ∈ settings.roots, p ∈ sourcesUnder disk extensions exclude root := by
  unfold sourcesOn at h
  cases hextensions : Settings.textSet settings.extensions with
  | error e => simp [hextensions, Bind.bind, Except.bind] at h
  | ok extensions =>
      cases hexclude : Settings.textSet settings.exclude with
      | error e => simp [hextensions, hexclude, Bind.bind, Except.bind] at h
      | ok exclude =>
          simp only [hextensions, hexclude, Bind.bind, Except.bind, Pure.pure, Except.pure,
            Except.ok.injEq] at h
          refine ⟨extensions, exclude, fun p => ?_⟩
          rw [← h, Text.mem_sortedSet, List.mem_flatten]
          simp

/-- The roots of settings are absolute and collapsed. -/
theorem isNormal_of_mem_roots {cwd : Path} (hcwd : Path.isAbsolute cwd = true)
    {fields : List (Value × Value)} (h : Settings.ofFields cwd fields = .ok settings) :
    ∀ root ∈ settings.roots, Path.IsNormal root := by
  unfold Settings.ofFields at h
  split at h
  · simp [Bind.bind, Except.bind, throw, throwThe, MonadExceptOf.throw] at h
  · generalize Settings.rootPaths _ = listed at h
    cases listed with
    | error e => simp [Bind.bind, Except.bind] at h
    | ok roots =>
        simp only [Bind.bind, Except.bind, Pure.pure, Except.pure, Except.ok.injEq] at h
        intro root hroot
        rw [← h] at hroot
        obtain ⟨p, -, rfl⟩ := List.mem_map.mp hroot
        exact Path.isNormal_normalize hcwd p

theorem roots_of_scope (hscope : Scope.ofSettings disk.cwdPath settings = .ok scope)
    (hroots : ∀ root ∈ settings.roots, Path.IsNormal root) : scope.roots = settings.roots := by
  obtain ⟨extensions, -, rfl⟩ := exists_of_scope hscope
  exact (List.map_congr_left fun root hroot => (hroots root hroot).normalize_eq _).trans
    (List.map_id' _)

/-- Of what is found only a root that is alone is below no root. -/
theorem below_iff_isAlone (htree : disk.root.IsProper)
    (hroots : ∀ root ∈ settings.roots, Path.IsNormal root) {files : List Path}
    (hfiles : sourcesOn disk settings = .ok files) (hp : p ∈ files) :
    (∀ root ∈ settings.roots, ¬Path.rootWithSlash root <+: p) ↔ settings.IsAlone disk p := by
  refine ⟨fun hbelow => ?_, fun h => h.below⟩
  obtain ⟨extensions, exclude, hmem⟩ := mem_sourcesOn_iff hfiles
  obtain ⟨root, hroot, hp⟩ := (hmem p).mp hp
  rcases sourcesUnder_cases htree (hroots root hroot) hp with ⟨rfl, hfile⟩ | hprefix
  · exact ⟨hroot, hfile, hbelow⟩
  · exact absurd hprefix (hbelow root hroot)

/-- **Sources without a root.** Whatever is found under the roots has a module id that its path
gives, but for the roots that are alone: they are found, and no id can be derived for them. A run
over all sources returns exactly when each can be read, none that is alone has a module tag without
a name, and all imports can be resolved. -/
theorem discovered_placed_iff {fields : List (Value × Value)}
    (hconfig : Settings.ofFields disk.cwdPath fields = .ok settings)
    (htree : disk.root.IsProper) (log : Log) {files : List Path}
    (hfiles : (discover (.still disk) settings log ()).answer = .ok files) :
    (∀ p ∈ files, ¬settings.IsAlone disk p →
        ∃ id, FileIdentity.derivedId settings.roots p = .ok id) ∧
      (∀ p, settings.IsAlone disk p → p ∈ files ∧
        FileIdentity.derivedId settings.roots p = .error (.outsideRoots p settings.roots)) ∧
      ∀ enc, Encoding.Names settings.encoding enc → ∀ scope,
        Scope.ofSettings disk.cwdPath settings = .ok scope →
        ((∃ r, ((run (.still disk) settings none).run ()).answer = .ok r) ↔
          ∀ p ∈ files, ∃ t, disk.Holds enc p t ∧
            ¬(settings.IsAlone disk p ∧
              FileIdentity.firstModuleTag? (DocComment.scan t) = some []) ∧
            ∀ r ∈ commentRefs t, Specifier.isRelative r.2.specifier = true →
              Resolvable scope disk enc p r.2.specifier) := by
  have hroots := isNormal_of_mem_roots rfl hconfig
  have hsources : sourcesOn disk settings = .ok files :=
    (meets_discover disk settings log).symm.trans hfiles
  obtain ⟨extensions, exclude, hmem⟩ := mem_sourcesOn_iff hsources
  have hderived : ∀ p, FileIdentity.belowRoots? settings.roots (Path.stem p) = none ↔
      ∀ root ∈ settings.roots, ¬Path.rootWithSlash root <+: p := fun p =>
    FileIdentity.belowRoots?_stem_eq_none_iff
  refine ⟨fun p hp hnot => ?_, fun p halone => ⟨?_, ?_⟩, fun enc henc scope hscope => ?_⟩
  · rw [← below_iff_isAlone htree hroots hsources hp, ← hderived] at hnot
    obtain ⟨id, hid⟩ := Option.ne_none_iff_exists'.mp hnot
    exact ⟨id, by rw [FileIdentity.derivedId, hid]⟩
  · exact (hmem p).mpr ⟨p, halone.mem_roots,
      mem_sourcesUnder_of_isFile (hroots p halone.mem_roots) halone.isFile⟩
  · rw [FileIdentity.derivedId, (hderived p).mpr halone.below]
  · have hfilesNormal : ∀ p ∈ files, Path.IsNormal p := by
      intro p hp
      obtain ⟨root, -, hp⟩ := (hmem p).mp hp
      exact isNormal_of_mem_sourcesUnder hp
    have hmap : files.map scope.normalize = files :=
      (List.map_congr_left fun p hp => (hfilesNormal p hp).normalize_eq _).trans (List.map_id' _)
    have hunplaced : ∀ p ∈ files, ∀ t, FileIdentity.Unplaced scope.roots p t ↔
        settings.IsAlone disk p ∧
          FileIdentity.firstModuleTag? (DocComment.scan t) = some [] := by
      intro p hp t
      rw [FileIdentity.Unplaced, roots_of_scope hscope hroots,
        below_iff_isAlone htree hroots hsources hp, and_comm]
    have hreturns : (∃ r, ((run (.still disk) settings none).run ()).answer = .ok r) ↔
        ∀ p ∈ files, Stageable scope disk p := by
      simp only [run_sources_eq_ok_iff hscope, hsources, Except.ok.injEq, exists_eq_left', hmap]
      refine ⟨fun ⟨_, hready, _⟩ => hready.stageable, fun h => ⟨_, ⟨hfilesNormal, h⟩, rfl⟩⟩
    have henc' : Encoding.Names scope.encoding enc := by
      rwa [encoding_of_scope hscope]
    rw [hreturns]
    refine forall₂_congr fun p hp => ?_
    rw [stageable_iff (hfilesNormal p hp) (isNormal_normalize hscope) henc']
    simp only [hunplaced p hp]

/-- A disk with one script. -/
def loneDisk : Disk :=
  ⟨.sub ['p'] (.file "a.js".toList (Encoding.encodeUtf8 "/** @module */".toList) .empty) .empty,
    [['p']]⟩

/-- Settings whose only root is the script. -/
def loneSettings : Settings := .ofRoots loneDisk.cwdPath ["a.js".toList]

set_option maxRecDepth 100000 in
theorem lone_root_is_found :
    (discover (.still loneDisk) loneSettings [] ()).answer = .ok [samplePath] ∧
      FileIdentity.derivedId loneSettings.roots samplePath =
        .error (.outsideRoots samplePath loneSettings.roots) ∧
      (∀ r, ((run (.still loneDisk) loneSettings none).run ()).answer ≠ .ok r) ∧
      ((run (.still loneDisk) loneSettings none).run ()).answer =
        .error (.outsideRoots samplePath loneSettings.roots) := by
  have hconfig : Settings.ofFields loneDisk.cwdPath
      [(.text Settings.rootsKey, .text "a.js".toList)] = .ok loneSettings := rfl
  have htree : loneDisk.root.IsProper :=
    ⟨⟨by decide, by decide, by decide, by decide⟩,
      ⟨⟨by decide, by decide, by decide, by decide⟩, trivial⟩, trivial⟩
  have hfound : (discover (.still loneDisk) loneSettings [] ()).answer = .ok [samplePath] := by
    decide +kernel
  have hroots : loneSettings.roots = [samplePath] := by decide +kernel
  have halone : loneSettings.IsAlone loneDisk samplePath := by
    refine ⟨by simp [hroots], by decide +kernel, ?_⟩
    rw [hroots]
    decide +kernel
  obtain ⟨-, hderived, hreturns⟩ := discovered_placed_iff hconfig htree [] hfound
  refine ⟨hfound, (hderived samplePath halone).2, fun r hr => ?_, by decide +kernel⟩
  obtain ⟨t, ht, hnot, -⟩ := (hreturns .utf8 sample_encoding _ rfl).mp ⟨r, hr⟩ samplePath (by simp)
  have hholds : loneDisk.Holds .utf8 samplePath "/** @module */".toList :=
    ⟨Encoding.encodeUtf8 "/** @module */".toList, "/** @module */".toList, by decide +kernel,
      by decide +kernel, by decide +kernel⟩
  obtain rfl := ht.unique hholds
  exact hnot ⟨halone, by decide +kernel⟩

end Batch

end DocRefs
