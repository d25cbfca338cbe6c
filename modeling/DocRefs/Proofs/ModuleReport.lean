import Mathlib
import DocRefs.Proofs.Idempotence
import DocRefs.Proofs.RunFailures

/-!
# What a run reports about modules

The modules of a run are put together from a cache and an index that were filled on the way. They
can be read off the disk instead: the files are the listed ones and those that their comments
import, each file has the module and the type names that its text declares, and every list is in
code-point order.
-/

namespace DocRefs

variable {scope : Scope} {disk : Disk} {l : Ledger} {s : Session}

theorem Text.ascending_sort {ts : List Text} (h : ts.Nodup) : Ascending (sort ts) := by
  have hnodup : (sort ts).Nodup := (List.mergeSort_perm ts le).nodup_iff.mpr h
  exact (pairwise_sort ts).and hnodup

namespace Session

theorem map_fst_modules (s : Session) :
    s.modules.map (·.1) = Text.sortedSet
      (((s.cache.map (·.2)).map FileIdentity.moduleId).filter (!·.isEmpty)) := by
  simp [modules, Function.comp_def]

theorem files_of_mem_modules {m : Text × ModuleSummary} (hm : m ∈ s.modules) :
    m.2.files = Text.sort
      (((s.cache.map (·.2)).filter fun i => i.moduleId = m.1).map FileIdentity.path) := by
  obtain ⟨id, -, rfl⟩ := List.mem_map.mp hm
  rfl

theorem typeNames_of_mem_modules {m : Text × ModuleSummary} (hm : m ∈ s.modules) :
    m.2.typeNames = (s.index.names? m.1).getD [] := by
  obtain ⟨id, -, rfl⟩ := List.mem_map.mp hm
  rfl

end Session

section Disk

variable (scope : Scope) (disk : Disk)

/-- The modules of a set of files, as the disk says. -/
structure Summarizes (files : Set Path) (modules : List (Text × ModuleSummary)) : Prop where
  ids_ascending : Text.Ascending (modules.map (·.1))
  /-- The ids are those of the files that have a module. -/
  mem_ids : ∀ id, id ∈ modules.map (·.1) ↔
    id ≠ [] ∧ ∃ p ∈ files, (Batch.identityAt scope disk p).moduleId = id
  files_ascending : ∀ m ∈ modules, Text.Ascending m.2.files
  /-- Under an id stand its files. -/
  mem_files : ∀ m ∈ modules, ∀ p, p ∈ m.2.files ↔
    p ∈ files ∧ (Batch.identityAt scope disk p).moduleId = m.1
  typeNames_ascending : ∀ m ∈ modules, Text.Ascending m.2.typeNames
  /-- The names of a module are those that its files declare. -/
  mem_typeNames : ∀ m ∈ modules, ∀ name, name ∈ m.2.typeNames ↔
    ∃ p ∈ m.2.files, name ∈ (Batch.identityAt scope disk p).typeNames

end Disk

/-- A file with a module stands in one entry. -/
theorem Summarizes.existsUnique {files : Set Path} {modules : List (Text × ModuleSummary)}
    (h : Summarizes scope disk files modules) {p : Path} (hp : p ∈ files)
    (hid : (Batch.identityAt scope disk p).moduleId ≠ []) :
    ∃! m, m ∈ modules ∧ p ∈ m.2.files := by
  obtain ⟨m, hm, hm1⟩ := List.mem_map.mp ((h.mem_ids _).mpr ⟨hid, p, hp, rfl⟩)
  refine ⟨m, ⟨hm, (h.mem_files m hm p).mpr ⟨hp, hm1.symm⟩⟩, ?_⟩
  rintro m' ⟨hm', hp'⟩
  have hm1' := ((h.mem_files m' hm' p).mp hp').2
  exact List.inj_on_of_nodup_map h.ids_ascending.nodup hm' hm (hm1'.symm.trans hm1.symm)

namespace Keeps

/-- A file that was met has the identity that the disk gives it. -/
theorem mem_cache_iff_identityAt (h : Keeps scope disk l s) {p : Path} {info : FileIdentity} :
    (p, info) ∈ s.cache ↔ p ∈ l.known ∧ Batch.identityAt scope disk p = info := by
  rw [h.mem_cache_iff]
  constructor
  · rintro ⟨hknown, hinfo⟩
    refine ⟨hknown, ?_⟩
    rw [Batch.identityAt, hinfo]
    rfl
  · rintro ⟨hknown, rfl⟩
    obtain ⟨info, hget⟩ := OrderedMap.exists_get?_of_mem_keys ((h.known p).mpr hknown)
    have hinfo := h.cached p info hget
    refine ⟨hknown, ?_⟩
    rw [Batch.identityAt, hinfo]
    rfl

theorem mem_infos_iff (h : Keeps scope disk l s) {info : FileIdentity} :
    info ∈ s.cache.map (·.2) ↔ ∃ p ∈ l.known, Batch.identityAt scope disk p = info := by
  constructor
  · intro hinfo
    obtain ⟨⟨p, info⟩, hmem, rfl⟩ := List.mem_map.mp hinfo
    exact ⟨p, h.mem_cache_iff_identityAt.mp hmem⟩
  · rintro ⟨p, hp⟩
    exact List.mem_map_of_mem (h.mem_cache_iff_identityAt.mpr hp)

/-- Files that were met are told apart by the path in their identity. -/
theorem path_identityAt (h : Keeps scope disk l s) {p : Path} (hp : p ∈ l.known) :
    (Batch.identityAt scope disk p).path = p := by
  have hmem := h.mem_cache_iff_identityAt.mpr ⟨hp, rfl⟩
  exact Batch.path_identityOf (h.mem_cache_iff.mp hmem).2

theorem nodup_paths (h : Keeps scope disk l s) :
    ((s.cache.map (·.2)).map FileIdentity.path).Nodup := by
  have hkeys : (s.cache.map (·.2)).map FileIdentity.path = OrderedMap.keys s.cache := by
    rw [List.map_map]
    apply List.map_congr_left
    rintro ⟨p, info⟩ hmem
    exact Batch.path_identityOf (h.mem_cache_iff.mp hmem).2
  rw [hkeys]
  exact h.nodup

theorem mem_files (h : Keeps scope disk l s) {m : Text × ModuleSummary} (hm : m ∈ s.modules)
    (p : Path) :
    p ∈ m.2.files ↔ p ∈ l.known ∧ (Batch.identityAt scope disk p).moduleId = m.1 := by
  rw [Session.files_of_mem_modules hm, Text.sort, List.mem_mergeSort, List.mem_map]
  constructor
  · rintro ⟨info, hinfo, rfl⟩
    obtain ⟨hmem, hid⟩ := List.mem_filter.mp hinfo
    obtain ⟨p, hp, rfl⟩ := h.mem_infos_iff.mp hmem
    rw [h.path_identityAt hp]
    exact ⟨hp, of_decide_eq_true hid⟩
  · rintro ⟨hp, hid⟩
    refine ⟨_, List.mem_filter.mpr ⟨h.mem_infos_iff.mpr ⟨p, hp, rfl⟩, decide_eq_true hid⟩, ?_⟩
    exact h.path_identityAt hp

theorem mem_typeNames (h : Keeps scope disk l s) {m : Text × ModuleSummary} (hm : m ∈ s.modules)
    (name : Text) :
    name ∈ m.2.typeNames ↔
      ∃ p ∈ m.2.files, name ∈ (Batch.identityAt scope disk p).typeNames := by
  rw [Session.typeNames_of_mem_modules hm, h.indexed.getD_names?, Text.mem_sortedSet,
    mem_declaredIn]
  constructor
  · rintro ⟨info, hinfo, hid, hname⟩
    obtain ⟨p, hp, rfl⟩ := h.mem_infos_iff.mp hinfo
    exact ⟨p, (h.mem_files hm p).mpr ⟨hp, hid⟩, hname⟩
  · rintro ⟨p, hp, hname⟩
    obtain ⟨hp, hid⟩ := (h.mem_files hm p).mp hp
    exact ⟨_, h.mem_infos_iff.mpr ⟨p, hp, rfl⟩, hid, hname⟩

/-- The modules of a session are those of the files met. -/
theorem summarizes (h : Keeps scope disk l s) : Summarizes scope disk l.known s.modules := by
  refine ⟨?_, ?_, ?_, fun m hm => h.mem_files hm, ?_, fun m hm => h.mem_typeNames hm⟩
  · rw [Session.map_fst_modules]
    exact Text.ascending_sortedSet _
  · intro id
    rw [Session.map_fst_modules, Text.mem_sortedSet, List.mem_filter, List.mem_map]
    constructor
    · rintro ⟨⟨info, hinfo, rfl⟩, hne⟩
      obtain ⟨p, hp, rfl⟩ := h.mem_infos_iff.mp hinfo
      exact ⟨by simpa using hne, p, hp, rfl⟩
    · rintro ⟨hne, p, hp, rfl⟩
      exact ⟨⟨_, h.mem_infos_iff.mpr ⟨p, hp, rfl⟩, rfl⟩, by simpa using hne⟩
  · intro m hm
    rw [Session.files_of_mem_modules hm]
    exact Text.ascending_sort (h.nodup_paths.sublist (List.filter_sublist.map _))
  · intro m hm
    rw [Session.typeNames_of_mem_modules hm, h.indexed.getD_names?]
    exact Text.ascending_sortedSet _

end Keeps

namespace Batch

variable {settings : Settings} {paths : List Path}

/-- The files that a run over listed ones covers: these, and the paths of the relative imports in
their doc comments. What an imported file imports in turn is left out. -/
def covered (scope : Scope) (disk : Disk) (listed : List Path) : Set Path :=
  { p | p ∈ listed ∨ ∃ importer ∈ listed, ∃ t, disk.readText scope.encoding importer = .ok t ∧
    ∃ r ∈ commentRefs t, ((Session.resolvePath scope (.still disk) importer r.2.specifier).run
      .fresh).answer = .ok (some p) }

theorem resolvePath_eq_some_iff {importer p : Path} {specifier : Text}
    (himporter : Path.IsNormal importer) :
    ((Session.resolvePath scope (.still disk) importer specifier).run .fresh).answer =
        .ok (some p) ↔ p ∈ importedFiles scope disk importer specifier := by
  by_cases hrelative : Specifier.isRelative specifier = true
  · rw [resolvePath_fresh himporter hrelative]
    cases htarget : targetOf scope disk importer specifier with
    | error e => simp [Except.map, importedFiles, htarget]
    | ok q =>
        have hnormal : scope.normalize q = q :=
          (isNormal_targetOf himporter htarget).normalize_eq scope.cwd
        simp [Except.map, importedFiles, htarget, hrelative, hnormal, eq_comm]
  · have hnone : Session.resolvePath scope (.still disk) importer specifier = pure none := by
      rw [Session.resolvePath, if_neg hrelative]
    refine iff_of_false ?_ fun h => hrelative h.1
    rw [hnone]
    simp [Op.run, Pure.pure, Op.pure]

/-- A run meets the files that it covers. -/
theorem Ready.filesMet_eq (h : Ready scope disk paths) :
    filesMet scope disk paths = covered scope disk paths := by
  ext p
  constructor
  · rintro ⟨q, hq, rfl | ⟨r, hr, himported⟩⟩
    · exact .inl hq
    · obtain ⟨t, ht⟩ := (h.stageable q hq).1
      rw [sourceOf, ht] at hr
      exact .inr ⟨q, hq, t, ht, r, hr, (resolvePath_eq_some_iff (h.normal q hq)).mpr himported⟩
  · rintro (hp | ⟨q, hq, t, ht, r, hr, hpath⟩)
    · exact ⟨p, hp, .inl rfl⟩
    · refine ⟨q, hq, .inr ⟨r, ?_, (resolvePath_eq_some_iff (h.normal q hq)).mp hpath⟩⟩
      rw [sourceOf, ht]
      exact hr

/-- A run that succeeds has found its files, over which it reports. -/
theorem exists_listed_of_run {files? : Option (List Path)} {r : BatchResult}
    (hrun : ((run (.still disk) settings files?).run ()).answer = .ok r) :
    ∃ scope files, Scope.ofSettings disk.cwdPath settings = .ok scope ∧
      ((files?.elim (discover (.still disk) settings) pure).run ()).answer = .ok files ∧
      Ready scope disk (files.map scope.normalize) ∧
      r = reportOf scope disk (files.map scope.normalize) := by
  obtain ⟨scope, -, hscope, -⟩ := exists_ready_of_run hrun
  cases files? with
  | some files => exact ⟨scope, files, hscope, rfl, ready_of_run hscope hrun⟩
  | none =>
      obtain ⟨files, hfiles, hready, hr⟩ := (run_sources_eq_ok_iff hscope r).mp hrun
      exact ⟨scope, files, hscope, (meets_discover disk settings []).trans hfiles, hready, hr⟩

/-- Whatever files a run was given or has found, when it returns, its modules are those of the files
that it covers: every such file has an identity, its module stands in the report with the file and
the names that it declares, and nothing else does. -/
theorem run_reports_modules {files? : Option (List Path)} {r : BatchResult}
    (hrun : ((run (.still disk) settings files?).run ()).answer = .ok r) :
    ∃ scope files, Scope.ofSettings disk.cwdPath settings = .ok scope ∧
      ((files?.elim (discover (.still disk) settings) pure).run ()).answer = .ok files ∧
      let listed := files.map disk.normalize
      (∀ p ∈ covered scope disk listed,
        identityOf scope disk p = .ok (identityAt scope disk p)) ∧
      Summarizes scope disk (covered scope disk listed) r.modules ∧
      ∀ p ∈ covered scope disk listed, (identityAt scope disk p).moduleId ≠ [] →
        ∃! m, m ∈ r.modules ∧ p ∈ m.2.files := by
  obtain ⟨scope, files, hscope, hfiles, hready, rfl⟩ := exists_listed_of_run hrun
  refine ⟨scope, files, hscope, hfiles, ?_⟩
  intro listed
  have hknown : (endLedger scope disk (files.map scope.normalize)).known =
      covered scope disk listed := by
    rw [show listed = files.map scope.normalize by rw [normalize_of_scope hscope]]
    exact hready.filesMet_eq
  have hsummary := hready.keeps.summarizes
  rw [hknown] at hsummary
  refine ⟨fun p hp => ?_, hsummary, fun p hp => hsummary.existsUnique hp⟩
  rw [← hknown] at hp
  exact (hready.keeps.mem_cache_iff.mp (hready.keeps.mem_cache_iff_identityAt.mpr ⟨hp, rfl⟩)).2

/-- A file that imports another one of the same module. -/
def sharedDisk : Disk :=
  ⟨.sub ['p'] (.file "a.js".toList
    (Encoding.encodeUtf8 "/** @module m\n @type \x7bimport('./b').T\x7d */".toList)
    (.file ['b'] (Encoding.encodeUtf8 "/** @module m\n @typedef \x7bobject\x7d T */".toList)
      .empty)) .empty, [['p']]⟩

set_option maxRecDepth 100000 in
theorem shared_reports_modules :
    ∃ r, ((run (.still sharedDisk) sampleSettings (some ["a.js".toList])).run ()).answer = .ok r ∧
      ∃ m ∈ r.modules, m.1 = ['m'] ∧ samplePath ∈ m.2.files ∧ "/p/b".toList ∈ m.2.files ∧
        ['T'] ∈ m.2.typeNames := by
  have hok : ((run (.still sharedDisk) sampleSettings
      (some ["a.js".toList])).run ()).answer.toOption.isSome = true := by
    decide +kernel
  cases hrun : ((run (.still sharedDisk) sampleSettings (some ["a.js".toList])).run ()).answer with
  | error e =>
      rw [hrun] at hok
      simp [Except.toOption] at hok
  | ok r =>
      obtain ⟨scope, files, hscope, hfiles, -, hsummary, -⟩ := run_reports_modules hrun
      obtain rfl : sampleScope = scope := Except.ok.inj hscope
      obtain rfl : ["a.js".toList] = files := Except.ok.inj hfiles
      have hlisted : samplePath ∈ covered sampleScope sharedDisk
          (["a.js".toList].map sharedDisk.normalize) := .inl (by decide +kernel)
      have himported : "/p/b".toList ∈ covered sampleScope sharedDisk
          (["a.js".toList].map sharedDisk.normalize) :=
        .inr ⟨samplePath, by decide +kernel,
          "/** @module m\n @type \x7bimport('./b').T\x7d */".toList, by decide +kernel,
          by decide +kernel⟩
      have hid : (identityAt sampleScope sharedDisk samplePath).moduleId = ['m'] := by
        decide +kernel
      have hid' : (identityAt sampleScope sharedDisk "/p/b".toList).moduleId = ['m'] := by
        decide +kernel
      obtain ⟨m, hm, hm1⟩ :=
        List.mem_map.mp ((hsummary.mem_ids ['m']).mpr ⟨by decide, samplePath, hlisted, hid⟩)
      have hfile := (hsummary.mem_files m hm _).mpr ⟨himported, hid'.trans hm1.symm⟩
      refine ⟨r, rfl, m, hm, hm1, ?_, hfile, ?_⟩
      · exact (hsummary.mem_files m hm _).mpr ⟨hlisted, hid.trans hm1.symm⟩
      · exact (hsummary.mem_typeNames m hm _).mpr ⟨_, hfile, by decide +kernel⟩

end Batch

end DocRefs
