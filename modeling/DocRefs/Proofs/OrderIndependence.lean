import Mathlib
import DocRefs.Proofs.Runs

/-!
# Runs do not depend on the order of files

A file enters the cache through its own staging or earlier as a target of an import, and the first
entry stays. Both entries are what the disk says, so two sessions that know the same files have the
same cache up to order, and the same index and modules. Two runs over the same set of files then
differ at most in how often a file was counted.
-/

namespace DocRefs

variable {scope : Scope} {disk : Disk} {l l' : Ledger} {s s' : Session}

namespace Keeps

/-- The cache holds the files known with the identities that the disk gives them. -/
theorem mem_cache_iff (h : Keeps scope disk l s) {p : Path} {info : FileIdentity} :
    (p, info) ∈ s.cache ↔ p ∈ l.known ∧ identityOf scope disk p = .ok info := by
  constructor
  · intro hmem
    have hget := OrderedMap.get?_of_mem h.nodup hmem
    exact ⟨(h.known p).mp (OrderedMap.mem_keys_of_get? hget), h.cached p info hget⟩
  · intro hboth
    rcases hboth with ⟨hknown, hinfo⟩
    obtain ⟨info', hget⟩ := OrderedMap.exists_get?_of_mem_keys ((h.known p).mpr hknown)
    have heq : info' = info := Except.ok.inj ((h.cached p info' hget).symm.trans hinfo)
    rw [← heq]
    exact OrderedMap.mem_of_get? hget

theorem cache_perm (h : Keeps scope disk l s) (h' : Keeps scope disk l' s')
    (hknown : l.known = l'.known) : s.cache.Perm s'.cache := by
  rw [List.perm_ext_iff_of_nodup (List.Nodup.of_map _ h.nodup) (List.Nodup.of_map _ h'.nodup)]
  intro entry
  rcases entry with ⟨p, info⟩
  rw [h.mem_cache_iff, h'.mem_cache_iff, hknown]

theorem index_eq (h : Keeps scope disk l s) (h' : Keeps scope disk l' s')
    (hknown : l.known = l'.known) : s.index = s'.index := by
  have hperm := (h.cache_perm h' hknown).map Prod.snd
  exact h.indexed.unique (h'.indexed.congr fun info => hperm.symm.mem_iff)

theorem modules_eq (h : Keeps scope disk l s) (h' : Keeps scope disk l' s')
    (hknown : l.known = l'.known) : s.modules = s'.modules := by
  have hperm := (h.cache_perm h' hknown).map Prod.snd
  have hids : Text.sortedSet
        (((s.cache.map (·.2)).map FileIdentity.moduleId).filter (!·.isEmpty)) =
      Text.sortedSet (((s'.cache.map (·.2)).map FileIdentity.moduleId).filter (!·.isEmpty)) :=
    Text.sortedSet_eq_of_mem_iff fun id => ((hperm.map _).filter _).mem_iff
  have hfiles : ∀ id, Text.sort
        (((s.cache.map (·.2)).filter fun i => i.moduleId = id).map FileIdentity.path) =
      Text.sort (((s'.cache.map (·.2)).filter fun i => i.moduleId = id).map FileIdentity.path) :=
    fun id => Text.sort_eq_of_perm ((hperm.filter _).map _)
  simp only [Session.modules]
  rw [hids, h.index_eq h' hknown]
  simp only [hfiles]

end Keeps

theorem filesMet_congr {paths paths' : List Path} (h : ∀ p, p ∈ paths ↔ p ∈ paths') :
    filesMet scope disk paths = filesMet scope disk paths' := by
  ext p
  simp only [filesMet, h]

theorem OrderedMap.get?_ofPairs_congr {κ α : Type} [DecidableEq κ] {keys keys' : List κ}
    (hsame : ∀ k, k ∈ keys ↔ k ∈ keys') (f : κ → α) (key : κ) :
    get? key (ofPairs (keys.map fun k => (k, f k))) =
      get? key (ofPairs (keys'.map fun k => (k, f k))) := by
  rw [get?_ofPairs, get?_ofPairs]
  by_cases hkey : key ∈ keys
  · rw [if_pos hkey, if_pos ((hsame key).mp hkey)]
  · rw [if_neg hkey, if_neg (mt (hsame key).mpr hkey)]

theorem BatchResult.mem_changed {r : BatchResult} (hnodup : (OrderedMap.keys r.outputs).Nodup)
    (p : Path) :
    p ∈ r.changed ↔ ∃ t, r.outputs.get? p = some t ∧ r.sources.get? p ≠ some t := by
  unfold BatchResult.changed
  simp only [List.mem_map, List.mem_filter, bne_iff_ne, ne_eq]
  constructor
  · intro hchanged
    rcases hchanged with ⟨⟨q, t⟩, ⟨hmem, hne⟩, rfl⟩
    exact ⟨t, OrderedMap.get?_of_mem hnodup hmem, hne⟩
  · intro h
    rcases h with ⟨t, hget, hne⟩
    exact ⟨(p, t), ⟨OrderedMap.mem_of_get? hget, hne⟩, rfl⟩

namespace Batch

variable {paths paths' : List Path}

theorem Ready.congr (h : Ready scope disk paths) (hsame : ∀ p, p ∈ paths ↔ p ∈ paths') :
    Ready scope disk paths' :=
  ⟨fun p hp => h.normal p ((hsame p).mpr hp), fun p hp => h.stageable p ((hsame p).mpr hp)⟩

/-- Reports over the same set of files agree, but for what counts how often a file was listed. -/
theorem report_congr (h : Ready scope disk paths) (hsame : ∀ p, p ∈ paths ↔ p ∈ paths') :
    let r := reportOf scope disk paths
    let r' := reportOf scope disk paths'
    (∀ p, r.outputs.get? p = r'.outputs.get? p) ∧
    (∀ p, r.sources.get? p = r'.sources.get? p) ∧
    r.modules = r'.modules ∧
    r.statistics.files = r'.statistics.files ∧
    r.statistics.modules = r'.statistics.modules ∧
    r.statistics.typeNames = r'.statistics.typeNames := by
  intro r r'
  have hkeeps := h.keeps
  have hkeeps' := (h.congr hsame).keeps
  have hknown : (endLedger scope disk paths).known = (endLedger scope disk paths').known :=
    filesMet_congr hsame
  have hindex := hkeeps.index_eq hkeeps' hknown
  refine ⟨?_, ?_, hkeeps.modules_eq hkeeps' hknown, ?_, ?_, ?_⟩
  · intro p
    simp only [r, r', reportOf, hindex]
    exact OrderedMap.get?_ofPairs_congr hsame _ p
  · intro p
    exact OrderedMap.get?_ofPairs_congr hsame _ p
  · exact (hkeeps.cache_perm hkeeps' hknown).length_eq
  · exact congrArg TypeIndex.size hindex
  · exact congrArg TypeIndex.nameCount hindex

/-- Lists that agree up to order give the same counts. -/
theorem counts_perm (h : Ready scope disk paths) (hperm : paths.Perm paths') :
    (reportOf scope disk paths).statistics.linkedReferences =
        (reportOf scope disk paths').statistics.linkedReferences ∧
      (reportOf scope disk paths).statistics.qualifiedIdentifiers =
        (reportOf scope disk paths').statistics.qualifiedIdentifiers := by
  have hsame : ∀ p, p ∈ paths ↔ p ∈ paths' := fun p => hperm.mem_iff
  have hkeeps := h.keeps
  have hkeeps' := (h.congr hsame).keeps
  have hindex := hkeeps.index_eq hkeeps' (filesMet_congr hsame)
  constructor
  · exact (hkeeps.linked.trans (hperm.map _).sum_eq).trans hkeeps'.linked.symm
  · refine (hkeeps.qualified.trans ?_).trans hkeeps'.qualified.symm
    simp only [endLedger, wordsMade, hindex]
    exact (hperm.map _).sum_eq

/-- A run fails exactly when some listed file cannot be staged. -/
theorem fails_iff {settings : Settings} {files : List Path}
    (hscope : Scope.ofSettings disk.cwdPath settings = .ok scope) :
    (∃ e, ((run (.still disk) settings (some files)).run ()).answer = .error e) ↔
      ¬∀ p ∈ files.map scope.normalize, Stageable scope disk p := by
  have hok := run_eq_ok_iff disk settings files
  cases hanswer : ((run (.still disk) settings (some files)).run ()).answer with
  | ok r =>
      obtain ⟨scope', hscope', hstageable, -⟩ := (hok r).mp hanswer
      obtain rfl := Except.ok.inj (hscope.symm.trans hscope')
      simpa using hstageable
  | error e =>
      refine iff_of_true ⟨e, rfl⟩ fun hstageable => ?_
      have hsome := (hok _).mpr ⟨scope, hscope, hstageable, rfl⟩
      rw [hanswer] at hsome
      simp at hsome

/-- Two runs over lists with the same set of normalized paths: one fails exactly when the other
does; otherwise they give the same text for every path, change the same paths, and report the same
modules and the same numbers of files, modules and type names. If the lists agree up to order, they
also count the same references and words. -/
theorem run_order_independent (disk : Disk) (settings : Settings) {files files' : List Path}
    (hsame : ∀ p, p ∈ files.map disk.normalize ↔ p ∈ files'.map disk.normalize) :
    let answer := ((run (.still disk) settings (some files)).run ()).answer
    let answer' := ((run (.still disk) settings (some files')).run ()).answer
    ((∃ e, answer = .error e) ↔ ∃ e, answer' = .error e) ∧
    ∀ r r', answer = .ok r → answer' = .ok r' →
      (∀ p, r.outputs.get? p = r'.outputs.get? p) ∧
      (∀ p, p ∈ r.changed ↔ p ∈ r'.changed) ∧
      r.modules = r'.modules ∧
      r.statistics.files = r'.statistics.files ∧
      r.statistics.modules = r'.statistics.modules ∧
      r.statistics.typeNames = r'.statistics.typeNames ∧
      ((files.map disk.normalize).Perm (files'.map disk.normalize) →
        r.statistics.linkedReferences = r'.statistics.linkedReferences ∧
        r.statistics.qualifiedIdentifiers = r'.statistics.qualifiedIdentifiers) := by
  intro answer answer'
  cases hscope : Scope.ofSettings disk.cwdPath settings with
  | error e =>
      -- Bad settings fail before any file is looked at.
      have herror : ∀ fs, ((run (.still disk) settings (some fs)).run ()).answer = .error e := by
        intro fs
        rw [run_eq, hscope]
      refine ⟨iff_of_true ⟨e, herror files⟩ ⟨e, herror files'⟩, fun r r' hr => ?_⟩
      simp [answer, herror files] at hr
  | ok scope =>
      rw [← normalize_of_scope hscope] at hsame ⊢
      refine ⟨?_, fun r r' hr hr' => ?_⟩
      · rw [fails_iff hscope, fails_iff hscope]
        simp only [hsame]
      · obtain ⟨hready, rfl⟩ := ready_of_run hscope hr
        obtain ⟨-, rfl⟩ := ready_of_run hscope hr'
        obtain ⟨houtputs, hsources, hmodules, hstatistics⟩ := report_congr hready hsame
        refine ⟨houtputs, fun p => ?_, hmodules, hstatistics.1, hstatistics.2.1,
          hstatistics.2.2, counts_perm hready⟩
        rw [BatchResult.mem_changed (OrderedMap.nodup_keys_ofPairs _),
          BatchResult.mem_changed (OrderedMap.nodup_keys_ofPairs _), houtputs, hsources]

theorem sample_listed_twice :
    (∀ p, p ∈ ["a.js".toList].map sampleDisk.normalize ↔
        p ∈ ["./a.js".toList, "a.js".toList].map sampleDisk.normalize) ∧
      ∃ r, ((run (.still sampleDisk) sampleSettings
          (some ["./a.js".toList, "a.js".toList])).run ()).answer = .ok r ∧
        (∀ p, sampleResult.outputs.get? p = r.outputs.get? p) ∧
        sampleResult.modules = r.modules := by
  have hsame : ∀ p, p ∈ ["a.js".toList].map sampleDisk.normalize ↔
      p ∈ ["./a.js".toList, "a.js".toList].map sampleDisk.normalize := by
    have hnormal : sampleDisk.normalize "./a.js".toList = sampleDisk.normalize "a.js".toList := by
      decide
    intro p
    simp only [List.map_cons, List.map_nil, List.mem_cons, hnormal, or_self_left]
  obtain ⟨hfails, hresults⟩ := run_order_independent sampleDisk sampleSettings hsame
  refine ⟨hsame, ?_⟩
  cases hanswer : ((run (.still sampleDisk) sampleSettings
      (some ["./a.js".toList, "a.js".toList])).run ()).answer with
  | error e =>
      obtain ⟨e', he'⟩ := hfails.mpr ⟨e, hanswer⟩
      rw [sample_run] at he'
      simp at he'
  | ok r =>
      obtain ⟨houtputs, -, hmodules, -⟩ := hresults _ r sample_run hanswer
      exact ⟨r, rfl, houtputs, hmodules⟩

end Batch

end DocRefs
