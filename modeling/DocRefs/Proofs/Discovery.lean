import Mathlib
import DocRefs.Proofs.SourceRoots

/-!
# What discovery finds

The walk below a root leaves out excluded directories as it meets them, and what the walks find is
sorted and freed of repetitions. The outcome is a set that needs no walk to describe: the roots that
are files, and below the roots that are directories the files with one of the extensions that no
excluded directory stands above. Only the directories below the root in question count, so a root
inside an excluded directory contributes as any other.
-/

namespace DocRefs

/-- A name that an entry of a directory can have. -/
structure Path.IsEntryName (s : Text) : Prop extends Path.IsName s where
  nul_notMem : '\x00' ∉ s
  fits : (Encoding.encodeUtf8 s).length ≤ Disk.nameLimit

instance (s : Text) : Decidable (Path.IsEntryName s) :=
  decidable_of_iff ((s ≠ [] ∧ s ≠ Path.here ∧ s ≠ Path.up ∧ '/' ∉ s) ∧
      '\x00' ∉ s ∧ (Encoding.encodeUtf8 s).length ≤ Disk.nameLimit)
    ⟨fun ⟨⟨hnil, hhere, hup, hslash⟩, hnul, hfits⟩ => ⟨⟨hnil, hhere, hup, hslash⟩, hnul, hfits⟩,
      fun h => ⟨⟨h.ne_nil, h.ne_here, h.ne_up, h.slash_notMem⟩, h.nul_notMem, h.fits⟩⟩

namespace Dir

/-- Entries have names that a directory can hold, and no directory holds a name twice. -/
def IsTree : Dir → Prop
  | empty => True
  | file n _ rest => Path.IsEntryName n ∧ n ∉ rest.names ∧ rest.IsTree
  | sub n entries rest =>
      Path.IsEntryName n ∧ n ∉ rest.names ∧ entries.IsTree ∧ rest.IsTree

instance decidableIsTree : (d : Dir) → Decidable d.IsTree
  | empty => inferInstanceAs (Decidable True)
  | file n _ rest =>
      have := decidableIsTree rest
      inferInstanceAs (Decidable (Path.IsEntryName n ∧ n ∉ rest.names ∧ rest.IsTree))
  | sub n entries rest =>
      have := decidableIsTree entries
      have := decidableIsTree rest
      inferInstanceAs
        (Decidable (Path.IsEntryName n ∧ n ∉ rest.names ∧ entries.IsTree ∧ rest.IsTree))

/-- Names that lead to a file with one of the extensions through directories none of which is
excluded. -/
inductive Wanted (extensions exclude : List Text) : List Text → Prop
  | file {name : Text} (h : Path.extension name ∈ extensions) : Wanted extensions exclude [name]
  | sub {name : Text} {names : List Text} (hname : name ∉ exclude)
      (h : Wanted extensions exclude names) : Wanted extensions exclude (name :: names)

variable {d entries : Dir} {e : Entry} {name : Text} {names place : List Text}
  {extensions exclude : List Text}

theorem wanted_iff : Wanted extensions exclude names ↔
    ∃ front name, names = front ++ [name] ∧ Path.extension name ∈ extensions ∧
      ∀ n ∈ front, n ∉ exclude := by
  constructor
  · intro h
    induction h with
    | file h => exact ⟨[], _, rfl, h, by simp⟩
    | @sub first names hfirst _ ih =>
        obtain ⟨front, name, rfl, hname, hfront⟩ := ih
        exact ⟨first :: front, name, rfl, hname, List.forall_mem_cons.mpr ⟨hfirst, hfront⟩⟩
  · rintro ⟨front, name, rfl, hname, hfront⟩
    induction front with
    | nil => exact .file hname
    | cons first front ih =>
        obtain ⟨hfirst, hfront⟩ := List.forall_mem_cons.mp hfront
        exact .sub hfirst (ih hfront)

/-! ## Finding entries by their names -/

theorem find?_file_cons (n : Text) (content : Bytes) (rest : Dir) (name : Text)
    (names : List Text) :
    (file n content rest).find? (name :: names) =
      if n = name then (if names = [] then some (.file content) else none)
      else rest.find? (name :: names) := by
  rw [find?, get?]
  by_cases h : n = name
  · simp [h]
  · rw [if_neg h, if_neg h, find?]

theorem find?_sub_cons (n : Text) (entries rest : Dir) (name : Text) (names : List Text) :
    (sub n entries rest).find? (name :: names) =
      if n = name then entries.find? names else rest.find? (name :: names) := by
  rw [find?, get?]
  by_cases h : n = name
  · simp [h]
  · rw [if_neg h, if_neg h, find?]

theorem find?_cons_of_notMem (h : name ∉ d.names) (names : List Text) :
    d.find? (name :: names) = none := by
  have hget : d.get? name = none := by
    by_contra hget
    obtain ⟨e, hget⟩ := Option.ne_none_iff_exists'.mp hget
    exact h (mem_names_of_get? hget)
  rw [find?, hget]

/-- Behind the names that lead to a directory stand names that lead through it. -/
theorem find?_append (h : d.find? place = some (.dir entries)) (names : List Text) :
    d.find? (place ++ names) = entries.find? names := by
  induction place generalizing d with
  | nil =>
      obtain rfl : d = entries := by simpa [find?] using h
      rfl
  | cons first place ih =>
      obtain ⟨inner, hget, -⟩ := hasDir_cons_iff.mp ⟨entries, h⟩
      rw [find?, hget] at h
      rw [List.cons_append, find?, hget]
      exact ih h

/-- Whatever stands above an entry is a directory. -/
theorem hasDir_of_find?_append (h : d.find? (place ++ name :: names) = some e) :
    d.HasDir place := by
  induction place generalizing d with
  | nil => exact hasDir_nil d
  | cons first place ih =>
      obtain ⟨next, rest, hcons⟩ : ∃ next rest, place ++ name :: names = next :: rest :=
        List.exists_cons_of_ne_nil (by simp)
      rw [List.cons_append, hcons] at h
      obtain ⟨inner, hget, hfind⟩ := find?_cons_cons h
      rw [← hcons] at hfind
      exact hasDir_cons_iff.mpr ⟨inner, hget, ih hfind⟩

theorem mem_sources_file {content : Bytes} {rest : Dir} {n : Text} :
    names ∈ (file n content rest).sources extensions exclude ↔
      (Path.extension n ∈ extensions ∧ names = [n]) ∨ names ∈ rest.sources extensions exclude := by
  rw [sources]
  split <;> simp_all

theorem mem_sources_sub {rest : Dir} {n : Text} :
    names ∈ (sub n entries rest).sources extensions exclude ↔
      (n ∉ exclude ∧ ∃ inner ∈ entries.sources extensions exclude, n :: inner = names) ∨
        names ∈ rest.sources extensions exclude := by
  rw [sources]
  split <;> simp_all

namespace IsTree

theorem isEntryName_of_find? (hd : d.IsTree) (h : d.find? names = some e) :
    ∀ n ∈ names, Path.IsEntryName n := by
  induction d generalizing names with
  | empty => cases names <;> simp [find?, get?] at h ⊢
  | file n content rest ih =>
      cases names with
      | nil => simp
      | cons first names =>
          rw [find?_file_cons] at h
          split at h
          next heq =>
            subst heq
            split at h
            next hnil =>
              subst hnil
              simpa using hd.1
            next => simp at h
          next => exact ih hd.2.2 h
  | sub n entries rest ihEntries ih =>
      cases names with
      | nil => simp
      | cons first names =>
          rw [find?_sub_cons] at h
          split at h
          next heq =>
            subst heq
            exact List.forall_mem_cons.mpr ⟨hd.1, ihEntries hd.2.2.1 h⟩
          next => exact ih hd.2.2.2 h

theorem find? (hd : d.IsTree) (h : d.find? place = some (.dir entries)) : entries.IsTree := by
  induction d generalizing place with
  | empty =>
      cases place with
      | nil =>
          obtain rfl : Dir.empty = entries := by simpa [Dir.find?] using h
          exact hd
      | cons first place => simp [Dir.find?, get?] at h
  | file n content rest ih =>
      cases place with
      | nil =>
          obtain rfl : Dir.file n content rest = entries := by simpa [Dir.find?] using h
          exact hd
      | cons first place =>
          rw [find?_file_cons] at h
          split at h
          · split at h <;> simp at h
          · exact ih hd.2.2 h
  | sub n inner rest ihInner ih =>
      cases place with
      | nil =>
          obtain rfl : Dir.sub n inner rest = entries := by simpa [Dir.find?] using h
          exact hd
      | cons first place =>
          rw [find?_sub_cons] at h
          split at h
          · exact ihInner hd.2.2.1 h
          · exact ih hd.2.2.2 h

/-- The walk finds the files that are wanted, each by the names that lead to it. -/
theorem mem_sources_iff (hd : d.IsTree) : names ∈ d.sources extensions exclude ↔
    Wanted extensions exclude names ∧ ∃ content, d.find? names = some (.file content) := by
  induction d generalizing names with
  | empty => cases names <;> simp [sources, Dir.find?, get?]
  | file n content rest ih =>
      obtain ⟨-, hfresh, hrest⟩ := hd
      rw [mem_sources_file, ih hrest]
      cases names with
      | nil => simp [Dir.find?]
      | cons first names =>
          rw [find?_file_cons]
          by_cases heq : n = first
          · subst heq
            rw [find?_cons_of_notMem hfresh]
            cases names with
            | nil =>
                simp only [and_true, if_pos, reduceCtorEq, exists_false, and_false, or_false]
                constructor
                · exact fun h => ⟨.file h, content, rfl⟩
                · rintro ⟨hwanted, -⟩
                  cases hwanted with
                  | file h => exact h
                  | sub _ h => cases h
            | cons next names => simp
          · simp [heq, Ne.symm heq]
  | sub n entries rest ihEntries ih =>
      obtain ⟨-, hfresh, hentries, hrest⟩ := hd
      rw [mem_sources_sub, ih hrest]
      cases names with
      | nil => simp [Dir.find?]
      | cons first names =>
          rw [find?_sub_cons]
          by_cases heq : n = first
          -- The rest has no entry of this name, so what is found is found in the directory.
          · subst heq
            rw [find?_cons_of_notMem hfresh]
            simp only [if_pos, List.cons.injEq, true_and, exists_eq_right, ihEntries hentries,
              reduceCtorEq, exists_false, and_false, or_false]
            constructor
            · rintro ⟨hname, hwanted, hfile⟩
              exact ⟨.sub hname hwanted, hfile⟩
            · rintro ⟨hwanted, hfile⟩
              cases hwanted with
              | file _ => simp [Dir.find?] at hfile
              | sub hname hwanted => exact ⟨hname, hwanted, hfile⟩
          · simp [heq]

end IsTree

end Dir

namespace Disk

variable {disk : Disk} {root : Dir} {n : Nat} {names place steps : List Text} {e : Entry}

theorem follow_of_find? (hnames : ∀ s ∈ names, Path.IsEntryName s)
    (h : root.find? (place ++ names) = some e) :
    follow root place names = .ok (place ++ names) := by
  induction names generalizing place with
  | nil => simp [follow]
  | cons s names ih =>
      obtain ⟨hs, hnames⟩ := List.forall_mem_cons.mp hnames
      rw [follow_cons_of_hasDir (Dir.hasDir_of_find?_append h),
        if_neg (by simp [hs.ne_nil, hs.ne_here]), if_neg hs.ne_up,
        if_neg (Nat.not_lt.mpr hs.fits), ih hnames (by simpa using h)]
      simp

/-- A path of names leads to the entry of these names in the tree, unless it is too long. -/
theorem entry?_rooted (htree : disk.root.IsTree) (hn : n = 1 ∨ n = 2)
    (hsteps : ∀ s ∈ steps, Path.IsName s) :
    disk.entry? (Path.rooted n steps) = some e ↔
      fits (Path.rooted n steps) = true ∧ disk.root.find? steps = some e := by
  simp only [entry?_eq_some_iff, locate_rooted_eq_ok_iff hn hsteps, objection?_eq_none_iff]
  constructor
  · rintro ⟨place, ⟨⟨-, hfits, -⟩, hfollow⟩, hfind⟩
    obtain rfl : place = steps := by simpa using eq_append_of_follow hsteps hfollow
    exact ⟨hfits, hfind⟩
  · rintro ⟨hfits, hfind⟩
    have hentryNames := htree.isEntryName_of_find? hfind
    have hnul : '\x00' ∉ Path.rooted n steps := by
      rw [← Path.toPath_rooted hn, Route.nul_mem_toPath]
      rintro ⟨s, hs, hmem⟩
      exact (hentryNames s hs).nul_notMem hmem
    exact ⟨steps, ⟨⟨hnul, hfits, Path.rooted_ne_nil hn steps⟩, follow_of_find? hentryNames hfind⟩,
      hfind⟩

/-- A directory that can be looked up has a file of a name. -/
def HasFile (disk : Disk) (directory : Path) (name : Text) : Prop :=
  ∃ entries content, disk.entry? directory = some (.dir entries) ∧
    entries.get? name = some (.file content)

/-- A file below a directory is in a directory that can be looked up, unless the path of that
directory is too long. -/
theorem hasFile_join_iff {entries : Dir} {front : List Text} {name : Text} {p : Path}
    (htree : disk.root.IsTree) (hn : n = 1 ∨ n = 2) (hsteps : ∀ s ∈ steps, Path.IsName s)
    (hfind : disk.root.find? steps = some (.dir entries))
    (hnames : ∀ s ∈ front ++ [name], Path.IsName s)
    (hp : Path.join (Path.rooted n steps) (Text.join ['/'] (front ++ [name])) = p) :
    disk.HasFile (Path.dirname p) name ↔ fits (Path.dirname p) = true ∧
      ∃ content, entries.find? (front ++ [name]) = some (.file content) := by
  have hall : ∀ s ∈ (steps ++ front) ++ [name], Path.IsName s := by
    simpa [or_imp, forall_and] using And.intro hsteps hnames
  have hfront : ∀ s ∈ steps ++ front, Path.IsName s := fun s hs =>
    hall s (List.mem_append_left _ hs)
  have hdirectory : Path.dirname p = Path.rooted n (steps ++ front) := by
    rw [← hp, Path.join_rooted_names hn hsteps (by simp) hnames, ← List.append_assoc,
      Path.dirname_rooted hn hall]
  unfold HasFile
  simp only [hdirectory, entry?_rooted htree hn hfront, Dir.find?_append hfind]
  constructor
  · rintro ⟨inner, content, ⟨hfits, hinner⟩, hget⟩
    exact ⟨hfits, content, (Dir.find?_concat hinner name).trans hget⟩
  · rintro ⟨hfits, content, hfile⟩
    obtain ⟨inner, hinner⟩ := Dir.hasDir_of_find?_append hfile
    exact ⟨inner, content, ⟨hfits, hinner⟩, (Dir.find?_concat hinner name).symm.trans hfile⟩

theorem normalize_join (hn : n = 1 ∨ n = 2) (hsteps : ∀ s ∈ steps, Path.IsName s)
    (hne : names ≠ []) (hnames : ∀ s ∈ names, Path.IsName s) :
    disk.normalize (Path.join (Path.rooted n steps) (Text.join ['/'] names)) =
      Path.join (Path.rooted n steps) (Text.join ['/'] names) := by
  have hboth : ∀ s ∈ steps ++ names, Path.IsName s :=
    List.forall_mem_append.mpr ⟨hsteps, hnames⟩
  rw [Path.join_rooted_names hn hsteps hne hnames]
  exact Path.IsNormal.normalize_eq ⟨n, _, hn, hboth, rfl⟩ _

end Disk

/-! ## Sources without a walk -/

/-- A root that is a file, or a file in a directory at any depth below a root that is a directory,
where the extension of its name is listed and no directory between the root and the file is
excluded. -/
inductive IsSource (disk : Disk) (roots : List Path) (extensions exclude : List Value) :
    Path → Prop
  | root {root : Path} (hroot : root ∈ roots) (hfile : disk.isFile root = true) :
      IsSource disk roots extensions exclude (disk.normalize root)
  | under {root : Path} {front : List Text} {name : Text} (hroot : root ∈ roots)
      (hdir : disk.isDir root = true) (hnames : ∀ n ∈ front ++ [name], Path.IsName n)
      (hfile : disk.HasFile (Path.dirname (Path.join root (Text.join ['/'] (front ++ [name])))) name)
      (hextension : .text (Path.extension name) ∈ extensions)
      (hexclude : ∀ n ∈ front, .text n ∉ exclude) :
      IsSource disk roots extensions exclude (Path.join root (Text.join ['/'] (front ++ [name])))

theorem Settings.mem_texts {vs : List Value} {t : Text} :
    t ∈ vs.filterMap Value.text? ↔ .text t ∈ vs := by
  rw [List.mem_filterMap]
  constructor
  · rintro ⟨v, hv, ht⟩
    cases v <;> simp [Value.text?] at ht
    exact ht ▸ hv
  · intro h
    exact ⟨_, h, rfl⟩

theorem Settings.textSet_list {vs : List Value} (h : ∀ v ∈ vs, v.isKey = true) :
    textSet (.list vs) = .ok (vs.filterMap Value.text?) := by
  unfold textSet
  rw [Value.elements?]
  dsimp only
  rw [if_pos (List.all_eq_true.mpr h)]

namespace Batch

variable {disk : Disk} {settings : Settings} {root p : Path}

/-- What a root contributes: itself as a file, or wanted files below it. -/
theorem mem_sourcesUnder_iff (htree : disk.root.IsTree) (hroot : Path.IsNormal root)
    {extensions exclude : List Text} :
    p ∈ sourcesUnder disk extensions exclude root ↔
      (disk.isFile root = true ∧ p = disk.normalize root) ∨
      (disk.isDir root = true ∧ ∃ front name, (∀ n ∈ front ++ [name], Path.IsName n) ∧
        Path.extension name ∈ extensions ∧ (∀ n ∈ front, n ∉ exclude) ∧
        Path.join root (Text.join ['/'] (front ++ [name])) = p ∧
        disk.HasFile (Path.dirname p) name) := by
  obtain ⟨n, steps, hn, hsteps, rfl⟩ := hroot
  unfold sourcesUnder
  rw [Disk.isFile, Disk.isDir]
  cases hentry : disk.entry? (Path.rooted n steps) with
  | none => simp
  | some e =>
      cases e with
      | file content => simp [Entry.isFile, Entry.isDir]
      | dir entries =>
          obtain ⟨-, hfind⟩ := (Disk.entry?_rooted htree hn hsteps).mp hentry
          have hentries := htree.find? hfind
          simp only [Option.any_some, Entry.isFile, Entry.isDir, Bool.false_eq_true, false_and,
            false_or, true_and, List.mem_map, mem_filesBelow, hentries.mem_sources_iff]
          constructor
          · rintro ⟨below, ⟨names, ⟨hwanted, content, hcontent⟩, hfits, rfl⟩, rfl⟩
            have hnames : ∀ t ∈ names, Path.IsName t := fun t ht =>
              (hentries.isEntryName_of_find? hcontent t ht).toIsName
            obtain ⟨front, name, rfl, hextension, hexclude⟩ := Dir.wanted_iff.mp hwanted
            rw [Disk.normalize_join hn hsteps (by simp) hnames]
            exact ⟨front, name, hnames, hextension, hexclude, rfl,
              (Disk.hasFile_join_iff htree hn hsteps hfind hnames rfl).mpr
                ⟨hfits, content, hcontent⟩⟩
          · rintro ⟨front, name, hnames, hextension, hexclude, hp, hheld⟩
            obtain ⟨hfits, hfile⟩ :=
              (Disk.hasFile_join_iff htree hn hsteps hfind hnames hp).mp hheld
            refine ⟨p, ⟨front ++ [name], ⟨?_, hfile⟩, hfits, hp⟩, ?_⟩
            · exact Dir.wanted_iff.mpr ⟨front, name, rfl, hextension, hexclude⟩
            · rw [← hp, Disk.normalize_join hn hsteps (by simp) hnames]

theorem isSource_iff (htree : disk.root.IsTree) (hroots : ∀ root ∈ settings.roots,
    Path.IsNormal root) {extensions exclude : List Value} :
    IsSource disk settings.roots extensions exclude p ↔ ∃ root ∈ settings.roots,
      p ∈ sourcesUnder disk (extensions.filterMap Value.text?) (exclude.filterMap Value.text?)
        root := by
  constructor
  · intro h
    cases h with
    | root hroot hfile =>
        exact ⟨_, hroot, (mem_sourcesUnder_iff htree (hroots _ hroot)).mpr (.inl ⟨hfile, rfl⟩)⟩
    | under hroot hdir hnames hfile hextension hexclude =>
        refine ⟨_, hroot, (mem_sourcesUnder_iff htree (hroots _ hroot)).mpr
          (.inr ⟨hdir, _, _, hnames, Settings.mem_texts.mpr hextension, fun n hn hmem => ?_, rfl,
            hfile⟩)⟩
        exact hexclude n hn (Settings.mem_texts.mp hmem)
  · rintro ⟨root, hroot, hp⟩
    rcases (mem_sourcesUnder_iff htree (hroots root hroot)).mp hp with
      ⟨hfile, rfl⟩ | ⟨hdir, front, name, hnames, hextension, hexclude, rfl, hfile⟩
    · exact .root hroot hfile
    · exact .under hroot hdir hnames hfile (Settings.mem_texts.mp hextension)
        fun n hn hmem => hexclude n hn (Settings.mem_texts.mpr hmem)

/-- Only roots that are on the disk count, in any order and any number of times. -/
theorem isSource_congr {roots roots' : List Path} {extensions exclude : List Value}
    (h : ∀ root, disk.isFile root = true ∨ disk.isDir root = true →
      (root ∈ roots ↔ root ∈ roots')) :
    IsSource disk roots extensions exclude p ↔ IsSource disk roots' extensions exclude p := by
  have hmono : ∀ {roots roots' : List Path}, (∀ root, disk.isFile root = true ∨
      disk.isDir root = true → root ∈ roots → root ∈ roots') →
      IsSource disk roots extensions exclude p → IsSource disk roots' extensions exclude p := by
    intro roots roots' h hp
    cases hp with
    | root hroot hfile => exact .root (h _ (.inl hfile) hroot) hfile
    | under hroot hdir hnames hfile hextension hexclude =>
        exact .under (h _ (.inr hdir) hroot) hdir hnames hfile hextension hexclude
  exact ⟨hmono fun root hroot => (h root hroot).mp, hmono fun root hroot => (h root hroot).mpr⟩

/-- A directory with scripts, one of them in a directory of its own. -/
def shelvedDisk : Disk :=
  let dist : Dir := .file "b.js".toList [] .empty
  let lib : Dir := .sub "dist".toList dist (.file "a.js".toList [] (.file "c.txt".toList [] .empty))
  ⟨.sub ['p'] (.sub "lib".toList lib (.file "main.txt".toList [] .empty)) .empty, [['p']]⟩

/-- The fields of settings that exclude the inner directory. -/
def shelvedFields (roots : List Path) : List (Value × Value) :=
  [(.text Settings.rootsKey, .texts roots),
    (.text Settings.extensionsKey, .texts [".js".toList]),
    (.text Settings.excludeKey, .texts ["dist".toList])]

/-- The settings of these fields. -/
def shelvedSettings (roots : List Path) : Settings :=
  { Settings.ofRoots shelvedDisk.cwdPath roots with
    extensions := .texts [".js".toList]
    exclude := .texts ["dist".toList] }

/-- The sources, in order. -/
def shelvedFiles : List Path := ["/p/lib/a.js", "/p/lib/dist/b.js", "/p/main.txt"].map String.toList

set_option maxRecDepth 100000 in
theorem shelved_sorted :
    Text.sortedSet ((shelvedSettings ["lib".toList, "lib/dist".toList, "main.txt".toList]).roots.map
      (sourcesUnder shelvedDisk [".js".toList] ["dist".toList])).flatten = shelvedFiles := by
  rw [Text.sortedSet, Text.sort, List.mergeSort_of_pairwise (by decide +kernel)]
  decide +kernel

theorem shelved_found : sourcesOn shelvedDisk
    (shelvedSettings ["lib".toList, "lib/dist".toList, "main.txt".toList]) = .ok shelvedFiles := by
  rw [← shelved_sorted]
  rfl

end Batch

end DocRefs
