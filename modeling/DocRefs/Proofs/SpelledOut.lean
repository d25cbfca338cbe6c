import Mathlib
import DocRefs.Proofs.ImportTargets
import DocRefs.Proofs.PathMemo
import DocRefs.Proofs.ReferenceGrammar

/-!
# References that spell out a script

A relative reference may spell out the whole name of a script, but its suffix is dropped when the
reference is read, and has to be found again when it is resolved. So the reference leads to the
script exactly when inference from the rest of the name comes back to it: when nothing has the name
without the suffix, scripts are among the files preferred, and no file with the same stem comes
before the script.
-/

namespace DocRefs

open ImportRef (scriptSuffix SpecifierOf StandsIn)

/-- Inference from the path without its extension comes back to the script at the path. -/
structure Recovered (disk : Disk) (extensions : List Text) (p : Path) : Prop where
  extension_eq : Path.extension p = scriptSuffix
  /-- What is there without the extension would be taken as it is. -/
  stem_isFile : disk.isFile (Path.stem p) = false
  mem_extensions : scriptSuffix ∈ extensions
  foremost : ∀ q, StemFile disk extensions (Path.dirname p) (Path.stem (Path.basename p)) q →
    extensions.idxOf scriptSuffix ≤ extensions.idxOf (Path.extension q)

/-! ## Names with a suffix -/

namespace Path

variable {s : Text}

theorem isName_append_script (hs : '/' ∉ s) : IsName (s ++ scriptSuffix) := by
  refine ⟨by simp [scriptSuffix], ?_, ?_, by simp [scriptSuffix, hs]⟩
  · intro h
    simpa [scriptSuffix, here] using congrArg List.length h
  · intro h
    simpa [scriptSuffix, up] using congrArg List.length h

/-- A suffix that is the extension stands behind a name, and what is left of it is the name. -/
theorem isName_of_extension_eq (hs : '/' ∉ s) (h : extension (s ++ scriptSuffix) = scriptSuffix) :
    IsName s ∧ stem (s ++ scriptSuffix) = s := by
  have hsplit : splitExt (s ++ scriptSuffix) = _ :=
    splitExt_append_dot hs (by decide) (by decide)
  have hdots : ¬s.all (· = '.') = true := by
    intro hdots
    rw [extension, hsplit, if_pos hdots] at h
    simp [scriptSuffix] at h
  rw [if_neg hdots] at hsplit
  refine ⟨⟨?_, ?_, ?_, hs⟩, congrArg Prod.fst hsplit⟩
  · rintro rfl
    exact hdots rfl
  · rintro rfl
    exact hdots rfl
  · rintro rfl
    exact hdots rfl

end Path

/-! ## From the name without its suffix -/

section Scripts

variable {disk : Disk} {extensions : List Text} {n : Nat} {steps : List Text} {s : Text}

theorem StemFile.stem_ne_nil {directory p : Path} {stem : Text}
    (h : StemFile disk extensions directory stem p) : stem ≠ [] := by
  obtain ⟨n, steps, s, -, hsteps, -, -, rfl, -⟩ := h.exists_eq_rooted
  intro hnil
  have happend := Path.stem_append_extension s
  rcases Path.extension_cases s with hnone | ⟨hne, -⟩
  · rw [hnil, hnone] at happend
    exact (hsteps s (by simp)).ne_nil happend.symm
  · exact hne hnil

/-- A path that names another one has no file and names one found by its stem. -/
theorem Names.found {c p : Path} (h : Names disk extensions c p) (hne : p ≠ c) :
    disk.isFile c = false ∧
      (Foremost disk extensions (Path.dirname c) (Path.basename c) p ∨
        Foremost disk extensions c indexStem p) := by
  cases h with
  | itself _ => exact absurd rfl hne
  | sibling hfile hp => exact ⟨hfile, .inl hp⟩
  | index hfile _ _ hp => exact ⟨hfile, .inr hp⟩
  | missing _ _ _ => exact absurd rfl hne

/-- A step that is no name leads back or stays, and the script is not found from there. -/
theorem not_names_of_not_isName (hn : n = 1 ∨ n = 2) (hsteps : ∀ t ∈ steps, Path.IsName t)
    (hs : '/' ∉ s) (hname : ¬Path.IsName s) :
    ¬Names disk extensions (Path.rooted n (Path.descend steps s))
      (Path.rooted n (steps ++ [s ++ scriptSuffix])) := by
  intro h
  have hcases : s = [] ∨ s = Path.here ∨ s = Path.up := by
    by_contra hnot
    simp only [not_or] at hnot
    exact hname ⟨hnot.1, hnot.2.1, hnot.2.2, hs⟩
  obtain ⟨k, hk, hlength, hnames⟩ : ∃ k, Path.descend steps s = k ∧ k.length ≤ steps.length ∧
      ∀ t ∈ k, Path.IsName t := by
    rcases hcases with rfl | rfl | rfl
    · exact ⟨steps, rfl, Nat.le_refl _, hsteps⟩
    · exact ⟨steps, rfl, Nat.le_refl _, hsteps⟩
    · exact ⟨steps.dropLast, rfl, by simp, fun t ht => hsteps t (List.mem_of_mem_dropLast ht)⟩
  have hscript : Path.IsName (s ++ scriptSuffix) := Path.isName_append_script hs
  have hboth : ∀ t ∈ steps ++ [s ++ scriptSuffix], Path.IsName t := by
    simpa [or_imp, forall_and] using ⟨hsteps, hscript⟩
  rw [hk] at h
  have hne : Path.rooted n (steps ++ [s ++ scriptSuffix]) ≠ Path.rooted n k := by
    intro heq
    have hlengths := congrArg List.length (Path.rooted_inj hn hn hboth hnames heq).2
    rw [List.length_append, List.length_singleton] at hlengths
    omega
  -- Files beside the place reached are in a shorter directory than the script, and index files
  -- have another stem.
  obtain ⟨-, hp | hp⟩ := h.found hne
  · have hdirname := hp.dirname_eq
    rw [Path.dirname_rooted hn hboth, Path.dirname_rooted_eq hn hnames] at hdirname
    have hdrop := (Path.rooted_inj hn hn hsteps
      (fun t ht => hnames t (List.mem_of_mem_dropLast ht)) hdirname).2
    cases k with
    | nil => exact hp.stem_ne_nil (by rcases hn with rfl | rfl <;> rfl)
    | cons first k =>
        rw [hdrop, List.length_dropLast, List.length_cons] at hlength
        omega
  · have hstem := hp.stem_eq
    rw [Path.basename_rooted hn steps hscript.slash_notMem] at hstem
    rcases hcases with rfl | rfl | rfl
    · exact absurd hstem (by decide)
    · exact absurd hstem (by decide)
    · exact absurd hstem (by decide)

/-- From the name without its suffix the search comes to the script exactly when the script is
recovered. -/
theorem names_script_iff (hn : n = 1 ∨ n = 2) (hsteps : ∀ t ∈ steps, Path.IsName t)
    (hs : '/' ∉ s)
    (hfile : disk.isFile (Path.rooted n (steps ++ [s ++ scriptSuffix])) = true) :
    Names disk extensions (Path.rooted n (Path.descend steps s))
        (Path.rooted n (steps ++ [s ++ scriptSuffix])) ↔
      Recovered disk extensions (Path.rooted n (steps ++ [s ++ scriptSuffix])) := by
  have hscript : Path.IsName (s ++ scriptSuffix) := Path.isName_append_script hs
  have hboth : ∀ t ∈ steps ++ [s ++ scriptSuffix], Path.IsName t := by
    simpa [or_imp, forall_and] using ⟨hsteps, hscript⟩
  have hdirname := Path.dirname_rooted hn hboth
  have hbasename := Path.basename_rooted hn steps hscript.slash_notMem
  have hextension := Path.extension_rooted hn steps hscript.slash_notMem
  have hstem := Path.stem_rooted hn steps hscript.slash_notMem
  have hbare : Path.IsName s → ∀ t ∈ steps ++ [s], Path.IsName t := by
    intro hname
    simpa [or_imp, forall_and] using ⟨hsteps, hname⟩
  constructor
  · intro h
    have hname : Path.IsName s := by
      by_contra hname
      exact not_names_of_not_isName hn hsteps hs hname h
    have hbare := hbare hname
    rw [Path.descend_of_isName hname] at h
    have hne : Path.rooted n (steps ++ [s ++ scriptSuffix]) ≠ Path.rooted n (steps ++ [s]) := by
      intro heq
      simpa [scriptSuffix] using (Path.rooted_inj hn hn hboth hbare heq).2
    obtain ⟨hmissing, hp | hp⟩ := h.found hne
    · rw [Path.dirname_rooted hn hbare, Path.basename_rooted hn steps hs] at hp
      have hs' : Path.stem (s ++ scriptSuffix) = s := hbasename ▸ hp.stem_eq
      have hscript' : Path.extension (s ++ scriptSuffix) = scriptSuffix := by
        have happend := Path.stem_append_extension (s ++ scriptSuffix)
        rwa [hs', List.append_cancel_left_eq] at happend
      rw [hscript'] at hextension
      refine ⟨hextension, ?_, hextension ▸ hp.extension_mem, ?_⟩
      · rwa [hstem, hs']
      · rw [hdirname, hbasename, hs', ← hextension]
        exact hp.idxOf_le
    -- The directory of the script is not the path without its suffix.
    · have heq := (Path.rooted_inj hn hn hsteps hbare (hdirname.symm.trans hp.dirname_eq)).2
      simp at heq
  · intro h
    obtain ⟨hname, hs'⟩ := Path.isName_of_extension_eq hs (hextension.symm.trans h.extension_eq)
    have hbare := hbare hname
    rw [Path.descend_of_isName hname]
    refine .sibling ?_ ⟨⟨⟨n, _, hn, hboth, rfl⟩, hfile, ?_, ?_, ?_⟩, ?_⟩
    · rw [← h.stem_isFile, hstem, hs']
    · rw [hdirname, Path.dirname_rooted hn hbare]
    · rw [hbasename, hs', Path.basename_rooted hn steps hs]
    · rw [h.extension_eq]
      exact h.mem_extensions
    · have hforemost := h.foremost
      rw [hdirname, hbasename, hs'] at hforemost
      rwa [h.extension_eq, Path.dirname_rooted hn hbare, Path.basename_rooted hn steps hs]

/-- The step behind the last slash of a specifier is taken last, with and without its suffix. -/
theorem exists_candidates {importer u : Path} (himporter : Path.IsNormal importer)
    (hrelative : Path.isAbsolute u = false) :
    ∃ n steps s, (n = 1 ∨ n = 2) ∧ (∀ t ∈ steps, Path.IsName t) ∧ '/' ∉ s ∧
      Session.candidate importer u = Path.rooted n (Path.descend steps s) ∧
      Session.candidate importer (u ++ scriptSuffix) =
        Path.rooted n (steps ++ [s ++ scriptSuffix]) := by
  have hslash := Path.slash_notMem_basename u
  have happend := Path.splitLast_append u
  have hfront : Path.isAbsolute (Path.splitLast u).1 = false := by
    by_cases hnil : (Path.splitLast u).1 = []
    · rw [hnil]
      rfl
    · rwa [← happend, Path.isAbsolute_append hnil] at hrelative
  obtain ⟨whole, habsolute, hlast, hjoin⟩ := Path.exists_join_append
    (Path.isNormal_dirname himporter).isAbsolute (Path.splitLast_fst_cases u) hfront
  have hcollapse : ∀ s, '/' ∉ s → Session.candidate importer ((Path.splitLast u).1 ++ s) =
      Path.rooted (Path.rootSlashes whole)
        (Path.descend (Path.foldSteps true [] (Text.splitOn '/' whole)) s) := by
    intro s hs
    rw [Session.candidate, hjoin s hs, Path.collapse_append_step habsolute hlast hs]
  have hscript := Path.isName_append_script hslash
  refine ⟨_, _, (Path.splitLast u).2, Path.rootSlashes_of_isAbsolute habsolute,
    Path.isName_of_mem_foldSteps_splitOn whole, hslash, ?_, ?_⟩
  · rw [← hcollapse _ hslash, happend]
  · rw [← Path.descend_of_isName hscript, ← hcollapse _ hscript.slash_notMem, ← List.append_assoc,
      happend]

/-- From a relative specifier as it is read the search comes to the file that is spelled out exactly
when the specifier is read as it is written, or the file is recovered. -/
theorem names_spelledOut_iff {importer : Path} (himporter : Path.IsNormal importer)
    {raw specifier : Text} (hrelative : Specifier.isRelative raw = true)
    (hsuffix : scriptSuffix <:+ raw) (hspecifier : SpecifierOf raw specifier)
    (hfile : disk.isFile (Session.candidate importer raw) = true) :
    Names disk extensions (Session.candidate importer specifier)
        (Session.candidate importer raw) ↔
      raw = scriptSuffix ∨ Recovered disk extensions (Session.candidate importer raw) := by
  have hdot : ['.'] <+: raw := Text.startsWith_iff.mp hrelative
  unfold SpecifierOf at hspecifier
  by_cases hraw : raw = scriptSuffix
  · rw [if_neg (by simp [hraw])] at hspecifier
    rw [hspecifier]
    exact iff_of_true (.itself hfile) (.inl hraw)
  · have hlength : scriptSuffix.length < raw.length := by
      refine lt_of_le_of_ne hsuffix.length_le fun heq => hraw (hsuffix.eq_of_length heq).symm
    rw [if_pos ⟨hdot, hsuffix, hlength⟩] at hspecifier
    subst hspecifier
    have hu : Path.isAbsolute specifier = false := by
      cases specifier with
      | nil => exact absurd rfl hraw
      | cons c u =>
          obtain ⟨rest, hrest⟩ := hdot
          obtain rfl : '.' = c := (List.cons.inj hrest).1
          rfl
    obtain ⟨n, steps, s, hn, hsteps, hs, hcandidate, hscript⟩ := exists_candidates himporter hu
    rw [hscript] at hfile ⊢
    rw [hcandidate, names_script_iff hn hsteps hs hfile, or_iff_right hraw]

end Scripts

theorem ImportRef.isRelative_of_specifierOf {raw specifier : Text} (h : SpecifierOf raw specifier)
    (hrelative : Specifier.isRelative raw = true) : Specifier.isRelative specifier = true := by
  have hdot : ['.'] <+: raw := Text.startsWith_iff.mp hrelative
  unfold SpecifierOf at h
  split at h
  next hstripped =>
    cases specifier with
    | nil =>
        obtain ⟨-, -, hlength⟩ := hstripped
        rw [h] at hlength
        simp at hlength
    | cons c u =>
        rw [h] at hdot
        obtain ⟨rest, hrest⟩ := hdot
        obtain rfl : '.' = c := (List.cons.inj hrest).1
        rfl
  next => rwa [h]

/-! ## Linking -/

namespace Session

variable {scope : Scope} {disk : Disk} {settings : Settings}

/-- A relative import that is settled has the module id of the file that its joined path names. -/
theorem Recalls.exists_target {s : Session} {importer : Path} {specifier id : Text}
    (hs : s.Recalls scope disk) (himporter : Path.IsNormal importer)
    (hadmitted : Specifier.IsAdmitted specifier) (hrelative : Specifier.isRelative specifier = true)
    (hid : s.module? scope importer specifier = some id) :
    ∃ target info,
      Names disk (Path.extension importer :: scope.extensions) (candidate importer specifier)
          target ∧
        s.cache.get? target = some info ∧ info.moduleId = id := by
  rw [module?, if_pos hrelative] at hid
  obtain ⟨target, hmemo, hid⟩ := Option.bind_eq_some_iff.mp hid
  obtain ⟨info, hinfo, rfl⟩ := Option.map_eq_some_iff.mp hid
  have hnames := targetOf_names himporter (hs.targetOf hadmitted hmemo)
  have hnormal := hnames.isNormal (isNormal_candidate himporter specifier)
  rw [show scope.normalize target = target from hnormal.normalize_eq scope.cwd] at hinfo
  exact ⟨target, info, hnames, hinfo, rfl⟩

/-- **References that spell out a script.** When a text is linked, in a session that has served any
requests for the files of the disk, each reference whose path is relative, ends in the suffix of
scripts and leads to an existing file is linked by the module id of the file that its path names
without the suffix. This file is the one spelled out exactly when the path is the bare suffix or the
file is recovered. -/
theorem linkImports_spelledOut (hscope : Scope.ofSettings disk.cwdPath settings = .ok scope)
    {before : List Request} (hbefore : ∀ request ∈ before, request.Admits disk) (start log : Log)
    (filename : Path) (t : Text) {u : Text}
    (hreturns : (linkImports scope (.still disk) filename t log
      (afterRequests scope before start .fresh)).answer = .ok u) :
    let importer := scope.normalize filename
    let extensions := Path.extension importer :: scope.extensions
    let s' := (linkImports scope (.still disk) filename t log
      (afterRequests scope before start .fresh)).state
    u = Replacement.splice t (s'.links scope importer t) ∧
      ∀ c ∈ DocComment.scan t, ∀ ref ∈ ImportRef.scan c.text, ∀ front q raw behind,
        StandsIn c.text front q raw behind ref → Specifier.isRelative raw = true →
        scriptSuffix <:+ raw → disk.isFile (candidate importer raw) = true →
        ∃ target info, Names disk extensions (candidate importer ref.specifier) target ∧
          s'.cache.get? target = some info ∧
          s'.module? scope importer ref.specifier = some info.moduleId ∧
          (target = candidate importer raw ↔
            raw = scriptSuffix ∨ Recovered disk extensions (candidate importer raw)) := by
  intro importer extensions s'
  have himporter : Path.IsNormal importer := Batch.isNormal_normalize hscope filename
  have hrecalls : (afterRequests scope before start .fresh).Recalls scope disk :=
    recalls_afterRequests hbefore (recalls_of_memo_eq_nil rfl) start
  have hrecalls' : s'.Recalls scope disk := meets_linkImports_recalls hrecalls filename t log
  have hlinks : (linkImports scope (.still disk) filename t).Meets
      (afterRequests scope before start .fresh) _ :=
    meets_linkImports_moves filename t
  obtain ⟨hsettled, hu⟩ := (hlinks log).2 u hreturns
  refine ⟨hu, fun c hc ref href front q raw behind hstands hrelative hsuffix hfile => ?_⟩
  have hmem : (c.start, ref) ∈ commentRefs t :=
    List.mem_flatMap.mpr ⟨c, hc, List.mem_map_of_mem href⟩
  obtain ⟨id, hid⟩ := hsettled _ hmem
  obtain ⟨target, info, hnames, hinfo, rfl⟩ := hrecalls'.exists_target himporter
    (isAdmitted_of_mem_commentRefs hmem)
    (ImportRef.isRelative_of_specifierOf hstands.specifier hrelative) hid
  refine ⟨target, info, hnames, hinfo, hid, ?_⟩
  rw [← names_spelledOut_iff himporter hrelative hsuffix hstands.specifier hfile]
  constructor
  · rintro rfl
    exact hnames
  · intro hscript
    exact hnames.unique (isNormal_candidate himporter _) (fun _ _ => rfl) hscript

/-- A typed script that spells out a script. -/
def spellingText : Text := "/** \x7bimport('./a.js').T\x7d */".toList

set_option maxRecDepth 100000 in
theorem spelling_recovers_script :
    let linked := linkImports Batch.sampleScope (.still Batch.sampleDisk) "/p/c.ts".toList
      spellingText [] (afterRequests Batch.sampleScope [] [] .fresh)
    linked.answer = .ok "/** \x7bmodule:a~T\x7d */".toList ∧
      Recovered Batch.sampleDisk (".ts".toList :: Settings.defaultExtensions) Batch.samplePath := by
  intro linked
  have hanswer : linked.answer = .ok "/** \x7bmodule:a~T\x7d */".toList := by decide +kernel
  have hcomments : DocComment.scan spellingText = [⟨0, spellingText.length, spellingText⟩] := by
    decide +kernel
  have hrefs : ImportRef.scan spellingText =
      [⟨5, 23, none, "./a".toList, some ['T'], "import('./a.js').T".toList⟩] := by
    decide +kernel
  have himporter : Batch.sampleScope.normalize "/p/c.ts".toList = "/p/c.ts".toList := by
    decide +kernel
  have hscript : candidate "/p/c.ts".toList "./a.js".toList = Batch.samplePath := by decide +kernel
  have hkeys : linked.state.cache.keys = [Batch.samplePath] := by decide +kernel
  have hquotes : ImportRef.Quotes '\x27' "./a.js".toList :=
    ⟨rfl, by simp, List.all_eq_true.mp (by decide +kernel)⟩
  obtain ⟨-, hspelled⟩ := linkImports_spelledOut Batch.sample_scope
    (fun request hrequest => absurd hrequest List.not_mem_nil) [] [] "/p/c.ts".toList spellingText
    hanswer
  rw [himporter] at hspelled
  have hsplit : spellingText = "/** \x7b".toList ++
      (ImportRef.written '\x27' "./a.js".toList ++ ".T\x7d */".toList) := by
    decide +kernel
  obtain ⟨ref, href, hstands⟩ :=
    ImportRef.exists_mem_scanFrom hquotes List.getLast?_nil rfl hsplit (by decide +kernel)
  have href' : ref = ⟨5, 23, none, "./a".toList, some ['T'], "import('./a.js').T".toList⟩ :=
    List.mem_singleton.mp (hrefs ▸ href)
  rcases hstands with hstands | ⟨name, hname, hstop, -⟩
  · obtain ⟨target, info, -, hinfo, -, hiff⟩ := hspelled ⟨0, spellingText.length, spellingText⟩
      (by simp [hcomments]) ref href _ _ _ _ hstands (by decide +kernel)
      ⟨"./a".toList, by decide +kernel⟩ (by decide +kernel)
    have htarget : target ∈ linked.state.cache.keys := OrderedMap.mem_keys_of_get? hinfo
    rw [hkeys, List.mem_singleton] at htarget
    rw [hscript] at hiff
    exact ⟨hanswer, (hiff.mp htarget).resolve_left (by decide)⟩
  · subst href'
    obtain rfl := Option.some.inj hname
    simp at hstop

/-- The same reference where a file has the name of the script without its suffix. -/
def shadowedDisk : Disk :=
  ⟨.sub ['p'] (.file ['a'] (Encoding.encodeUtf8 "/** @module bare */".toList)
    (.file "a.js".toList (Encoding.encodeUtf8 "/** @module script */".toList) .empty)) .empty,
    [['p']]⟩

set_option maxRecDepth 100000 in
/-- The script is there and has a module, but the reference is linked to the other file's. -/
theorem spelling_misses_script :
    shadowedDisk.isFile (candidate "/p/c.ts".toList "./a.js".toList) = true ∧
      (resolve Batch.sampleScope (.still shadowedDisk) "/p/c.ts".toList "./a.js".toList []
        .fresh).answer = .ok "script".toList ∧
      (linkImports Batch.sampleScope (.still shadowedDisk) "/p/c.ts".toList spellingText []
        .fresh).answer = .ok "/** \x7bmodule:bare~T\x7d */".toList := by
  refine ⟨?_, ?_, ?_⟩ <;> decide +kernel

end Session

end DocRefs
