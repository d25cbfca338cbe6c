import Mathlib
import DocRefs.Proofs.Linking

/-!
# Runs on a still disk

Qualifying a comment is a function of the cache and the index, and changes neither. So the second
phase meets the knowledge that the first one has left, and a whole run is described by the disk: it
fails exactly when some listed file cannot be staged, and its outputs are the listed sources linked
and then qualified.
-/

namespace DocRefs

/-- A comment of a file with the type names of the file's module qualified. -/
def qualifiedIn (index : TypeIndex) (info : FileIdentity) (comment : Text) : Text :=
  if info.moduleId.isEmpty then comment
  else qualifiedComment info.moduleId ((index.names? info.moduleId).getD []) comment

/-- The number of words that qualifying a comment replaces. -/
def qualifyCount (index : TypeIndex) (info : FileIdentity) (comment : Text) : Nat :=
  if info.moduleId.isEmpty then 0
  else (qualifications info.moduleId ((index.names? info.moduleId).getD []) comment).length

/-- The session is `first`, but for its phase and its number of words replaced. -/
def Rests (first : Session) (n : Nat) (s : Session) : Prop :=
  s = { first with phase := s.phase, qualifiedIdentifiers := n }

variable {scope : Scope} {disk : Disk} {first s : Session} {info : FileIdentity} {n : Nat}

theorem Keeps.rests {l : Ledger} (h : Keeps scope disk l first) (hs : Rests first n s) :
    Keeps scope disk { l with phase := s.phase, qualified := n } s := by
  have hphase : Keeps scope disk { l with phase := s.phase, qualified := n }
      { first with phase := s.phase, qualifiedIdentifiers := n } :=
    { h with phase := rfl, qualified := rfl }
  rwa [← hs] at hphase

namespace Session

theorem answers_beginQualify :
    beginQualify.Answers s True () fun s' => s' = { s with phase := .qualify } := by
  unfold beginQualify
  apply Op.meets_get_bind
  split
  · apply Op.meets_log_bind
    exact fun _ => ⟨fun _ => ⟨rfl, rfl⟩, fun hnot => absurd trivial hnot⟩
  next hphase =>
    refine Op.answers_pure ?_
    cases s with
    | mk phase cache index memo linked qualified =>
        cases phase with
        | ingest => exact absurd rfl hphase
        | qualify => rfl

/-- Qualifying a comment of a file that was met. -/
theorem answers_qualifyComment {filename : Path} (hcached : s.cached? scope filename = some info)
    (comment : Text) :
    (qualifyComment scope filename comment).Answers s True (qualifiedIn s.index info comment)
      fun s' => s' = { s with
        phase := .qualify
        qualifiedIdentifiers := s.qualifiedIdentifiers + qualifyCount s.index info comment } := by
  unfold qualifyComment
  apply Op.meets_get_bind
  rw [hcached]
  refine answers_beginQualify.andThen fun s' _ hs' => ?_
  subst hs'
  unfold qualifiedIn qualifyCount
  split
  · exact Op.answers_pure rfl
  · rw [← splice_qualifications]
    dsimp only
    split
    next hnil =>
      rw [List.isEmpty_iff.mp hnil, Replacement.splice_nil]
      exact Op.answers_pure rfl
    next =>
      apply Op.meets_modify_bind
      exact Op.answers_pure rfl

end Session

namespace Batch

theorem answers_commentReplacement? (hs : Rests first n s) {p : Path}
    (hcached : first.cached? scope p = some info) (c : DocComment) :
    (commentReplacement? scope p c).Answers s True
      (if qualifiedIn first.index info c.text = c.text then none
        else some ⟨c.start, c.stop, qualifiedIn first.index info c.text⟩)
      (Rests first (n + qualifyCount first.index info c.text)) := by
  have hcached' : s.cached? scope p = some info := by
    rw [hs]
    exact hcached
  have hindex : s.index = first.index := by rw [hs]
  have hqualified : s.qualifiedIdentifiers = n := by rw [hs]
  have hqualify := Session.answers_qualifyComment hcached' c.text
  rw [hindex, hqualified] at hqualify
  refine (hqualify.map fun qualified =>
    if qualified = c.text then none else some (Replacement.mk c.start c.stop qualified)).mono ?_
  rintro s' rfl
  rw [Rests, hs]

/-- The number of words that qualifying the comments of a text replaces. -/
def qualifyCounts (index : TypeIndex) (info : FileIdentity) (t : Text) : Nat :=
  ((DocComment.scan t).map fun c => qualifyCount index info c.text).sum

theorem answers_qualifyComments (hs : Rests first n s) {p : Path}
    (hcached : first.cached? scope p = some info) (t : Text) :
    (qualifyComments scope p t).Answers s True (mapComments (qualifiedIn first.index info) t)
      (Rests first (n + qualifyCounts first.index info t)) := by
  have hcollect : (Op.collect (commentReplacement? scope p) (DocComment.scan t)).Answers s
      (∀ c ∈ DocComment.scan t, True)
      ((DocComment.scan t).map fun c =>
        if qualifiedIn first.index info c.text = c.text then none
        else some ⟨c.start, c.stop, qualifiedIn first.index info c.text⟩)
      (Rests first (n + qualifyCounts first.index info t)) := by
    refine Op.answers_collect (fun done : List DocComment =>
      Rests first (n + (done.map fun c => qualifyCount first.index info c.text).sum)) ?_ hs
    intro done c _ s' hs'
    refine (answers_commentReplacement? hs' hcached c).mono fun s'' hs'' => ?_
    rw [List.map_append, List.sum_append, ← Nat.add_assoc]
    exact hs''
  have hsplice := splice_comments (qualifiedIn first.index info) t
  have hanswer := (hcollect.congr (iff_of_true (fun _ _ => trivial) trivial)).map fun found =>
    Replacement.splice t (found.filterMap id)
  rw [List.filterMap_map, Function.id_comp, hsplice] at hanswer
  exact hanswer

section Disk

variable (scope : Scope) (disk : Disk)

/-- The identity of a listed file, empty when it has none. -/
def identityAt (p : Path) : FileIdentity :=
  (identityOf scope disk p).toOption.getD ⟨p, [], [], false⟩

/-- The new text of a listed file. -/
def outputOf (index : TypeIndex) (p : Path) : Text :=
  mapComments (qualifiedIn index (identityAt scope disk p))
    (linkedText scope disk p (sourceOf scope disk p))

/-- The number of words replaced in the listed files. -/
def wordsMade (index : TypeIndex) (paths : List Path) : Nat :=
  (paths.map fun p => qualifyCounts index (identityAt scope disk p)
    (linkedText scope disk p (sourceOf scope disk p))).sum

end Disk

/-- A listed file that was staged is cached with its identity. -/
theorem cached?_of_keeps {l : Ledger} (h : Keeps scope disk l first) {p : Path}
    (hp : Path.IsNormal p) (hknown : p ∈ l.known) :
    first.cached? scope p = some (identityAt scope disk p) := by
  obtain ⟨info, hinfo⟩ := OrderedMap.exists_get?_of_mem_keys ((h.known p).mpr hknown)
  have hidentity : identityAt scope disk p = info := by
    rw [identityAt, h.cached p info hinfo]
    rfl
  have hnormal : scope.normalize p = p := hp.normalize_eq scope.cwd
  rw [Session.cached?, hnormal, hinfo, hidentity]

/-- The second phase over the listed files. -/
theorem answers_outputs {paths : List Path} (hpaths : ∀ p ∈ paths, Path.IsNormal p)
    (hfirst : Keeps scope disk (ledgerOf scope disk paths) first) {texts : OrderedMap Path Text}
    (htexts : ∀ p ∈ paths,
      texts.get? p = some (linkedText scope disk p (sourceOf scope disk p))) :
    (Op.collect (fun p => do
        let t ← qualifyComments scope p ((texts.get? p).getD [])
        return (p, t)) paths).Answers first True
      (paths.map fun p => (p, outputOf scope disk first.index p))
      (Rests first (wordsMade scope disk first.index paths)) := by
  have hcollect : (Op.collect (fun p => do
        let t ← qualifyComments scope p ((texts.get? p).getD [])
        return (p, t)) paths).Answers first (∀ p ∈ paths, True)
      (paths.map fun p => (p, outputOf scope disk first.index p))
      (Rests first (wordsMade scope disk first.index paths)) := by
    refine Op.answers_collect (fun done : List Path =>
      Rests first (wordsMade scope disk first.index done)) ?_ ?_
    · intro done p hp s hs
      have hcached := cached?_of_keeps hfirst (hpaths p hp) ⟨p, hp, .inl rfl⟩
      rw [htexts p hp]
      refine ((answers_qualifyComments hs hcached _).map (Prod.mk p)).mono fun s' hs' => ?_
      rw [wordsMade, List.map_append, List.sum_append]
      simpa [wordsMade] using hs'
    · rw [Rests]
      have hqualified := hfirst.qualified
      cases first
      simp_all [wordsMade, ledgerOf]
  exact hcollect.congr (iff_of_true (fun _ _ => trivial) trivial)

/-- Both phases over a list of files. -/
theorem meets_phases {paths : List Path} (hpaths : ∀ p ∈ paths, Path.IsNormal p) :
    (phases scope (.still disk) paths).Meets .fresh fun r s =>
      ((∀ p ∈ paths, Stageable scope disk p) →
        Keeps scope disk ⟨s.phase, filesMet scope disk paths, linksMade scope disk paths,
            wordsMade scope disk s.index paths⟩ s ∧
          r = .ok (OrderedMap.ofPairs (paths.map fun p => (p, sourceOf scope disk p)),
            OrderedMap.ofPairs (paths.map fun p => (p, outputOf scope disk s.index p)))) ∧
      (¬(∀ p ∈ paths, Stageable scope disk p) → ∃ e, r = .error e) := by
  unfold phases
  refine (answers_stages hpaths).bindMeets ?_ ?_
  · intro hnot e s
    exact ⟨fun h => absurd h hnot, fun _ => ⟨e, rfl⟩⟩
  -- The second phase starts from the session that staging leaves and keeps its index.
  · intro first hstageable hfirst
    have hsources : (paths.map (stagedOf scope disk)).map (fun f => (f.path, f.source)) =
        paths.map fun p => (p, sourceOf scope disk p) := by
      rw [List.map_map]
      rfl
    have htexts : (paths.map (stagedOf scope disk)).map (fun f => (f.path, f.text)) =
        paths.map fun p => (p, linkedText scope disk p (sourceOf scope disk p)) := by
      rw [List.map_map]
      rfl
    rw [hsources, htexts]
    refine (answers_outputs hpaths hfirst fun p hp => ?_).bindMeets ?_ ?_
    · rw [OrderedMap.get?_ofPairs, if_pos hp]
    · exact fun hnot => absurd trivial hnot
    · intro s _ hs
      apply Op.meets_pure
      have hindex : s.index = first.index := by rw [hs]
      refine ⟨fun _ => ?_, fun hnot => absurd hstageable hnot⟩
      rw [hindex]
      exact ⟨hfirst.rests hs, rfl⟩

/-- The session that the phases over a list of files leave. -/
def endSession (scope : Scope) (disk : Disk) (paths : List Path) : Session :=
  ((phases scope (.still disk) paths).run .fresh).state

/-- What is known of that session. -/
def endLedger (scope : Scope) (disk : Disk) (paths : List Path) : Ledger where
  phase := (endSession scope disk paths).phase
  known := filesMet scope disk paths
  linked := linksMade scope disk paths
  qualified := wordsMade scope disk (endSession scope disk paths).index paths

/-- The listed paths are normal, and each file can be staged. -/
structure Ready (scope : Scope) (disk : Disk) (paths : List Path) : Prop where
  normal : ∀ p ∈ paths, Path.IsNormal p
  stageable : ∀ p ∈ paths, Stageable scope disk p

theorem Ready.keeps {paths : List Path} (h : Ready scope disk paths) :
    Keeps scope disk (endLedger scope disk paths) (endSession scope disk paths) :=
  ((meets_phases h.normal []).1 h.stageable).1

/-- What a run over files that can be staged reports. -/
def reportOf (scope : Scope) (disk : Disk) (paths : List Path) : BatchResult where
  sources := OrderedMap.ofPairs (paths.map fun p => (p, sourceOf scope disk p))
  outputs := OrderedMap.ofPairs (paths.map fun p =>
    (p, outputOf scope disk (endSession scope disk paths).index p))
  modules := (endSession scope disk paths).modules
  statistics := (endSession scope disk paths).statistics

theorem get?_outputs_reportOf {paths : List Path} {p : Path} (hp : p ∈ paths) :
    (reportOf scope disk paths).outputs.get? p =
      some (outputOf scope disk (endSession scope disk paths).index p) := by
  rw [reportOf, OrderedMap.get?_ofPairs, if_pos hp]

theorem get?_sources_reportOf {paths : List Path} {p : Path} (hp : p ∈ paths) :
    (reportOf scope disk paths).sources.get? p = some (sourceOf scope disk p) := by
  rw [reportOf, OrderedMap.get?_ofPairs, if_pos hp]

/-- What settings give as a scope. -/
theorem exists_of_scope {settings : Settings} {cwd : Path}
    (hscope : Scope.ofSettings cwd settings = .ok scope) :
    ∃ extensions, Settings.preferredExtensions settings.extensions = .ok extensions ∧
      scope = ⟨cwd, settings.roots.map (Path.normalize cwd), settings.encoding, extensions⟩ := by
  unfold Scope.ofSettings at hscope
  cases hextensions : Settings.preferredExtensions settings.extensions with
  | error e => simp [hextensions, Bind.bind, Except.bind] at hscope
  | ok extensions =>
      rw [hextensions] at hscope
      exact ⟨extensions, rfl, (Except.ok.inj hscope).symm⟩

theorem normalize_of_scope {settings : Settings}
    (hscope : Scope.ofSettings disk.cwdPath settings = .ok scope) :
    scope.normalize = disk.normalize := by
  obtain ⟨extensions, -, rfl⟩ := exists_of_scope hscope
  rfl

theorem isNormal_normalize {settings : Settings}
    (hscope : Scope.ofSettings disk.cwdPath settings = .ok scope) (f : Path) :
    Path.IsNormal (scope.normalize f) := by
  rw [normalize_of_scope hscope]
  exact Path.isNormal_normalize rfl f

theorem isNormal_of_mem_normalized {settings : Settings} {files : List Path}
    (hscope : Scope.ofSettings disk.cwdPath settings = .ok scope) :
    ∀ p ∈ files.map scope.normalize, Path.IsNormal p := by
  intro p hp
  obtain ⟨f, -, rfl⟩ := List.mem_map.mp hp
  exact isNormal_normalize hscope f

/-- A run gives the scope to its phases and answers with what they leave. -/
theorem run_eq (disk : Disk) (settings : Settings) (files : List Path) :
    ((run (.still disk) settings (some files)).run ()).answer =
      match Scope.ofSettings disk.cwdPath settings with
      | .error e => .error e
      | .ok scope =>
          ((phases scope (.still disk) (files.map scope.normalize)).run .fresh).answer.map
            fun texts => ⟨texts.1, texts.2,
              (endSession scope disk (files.map scope.normalize)).modules,
              (endSession scope disk (files.map scope.normalize)).statistics⟩ := by
  have hrun : (run (.still disk) settings (some files)).run () =
      (Op.ofExcept (Scope.ofSettings disk.cwdPath settings) >>= fun scope =>
        (phases scope (.still disk) (files.map scope.normalize)).within .fresh >>= fun r =>
          Op.log .info "typeref.runner"
              ("Rewrite complete: ".toList ++ r.2.statistics.toValue.quoted) >>= fun _ =>
            pure ⟨r.1.1, r.1.2, r.2.modules, r.2.statistics⟩ : Logged BatchResult) [] () := rfl
  rw [hrun]
  cases Scope.ofSettings disk.cwdPath settings with
  | error e => rfl
  | ok scope =>
      rw [Op.bind_apply]
      simp only [Op.ofExcept, Op.pure, Op.bind_apply, Op.within, Op.run, endSession]
      rcases (phases scope (.still disk) (files.map scope.normalize)) [] .fresh with
        ⟨_ | texts, s, log⟩
      · rfl
      · rfl

/-- A run succeeds exactly when the settings give a scope and every listed file can be staged; what
it then reports is determined by the disk. -/
theorem run_eq_ok_iff (disk : Disk) (settings : Settings) (files : List Path) (r : BatchResult) :
    ((run (.still disk) settings (some files)).run ()).answer = .ok r ↔
      ∃ scope, Scope.ofSettings disk.cwdPath settings = .ok scope ∧
        (∀ p ∈ files.map scope.normalize, Stageable scope disk p) ∧
        r = reportOf scope disk (files.map scope.normalize) := by
  rw [run_eq]
  cases hscope : Scope.ofSettings disk.cwdPath settings with
  | error e => simp
  | ok scope =>
      have hphases : (phases scope (.still disk) (files.map scope.normalize)).Meets .fresh _ :=
        meets_phases (isNormal_of_mem_normalized hscope)
      obtain ⟨hgood, hbad⟩ := hphases []
      constructor
      · intro h
        have hstageable : ∀ p ∈ files.map scope.normalize, Stageable scope disk p := by
          by_contra hnot
          obtain ⟨e, he⟩ := hbad hnot
          simp [Op.run, he, Except.map] at h
        refine ⟨scope, rfl, hstageable, ?_⟩
        obtain ⟨-, hanswer⟩ := hgood hstageable
        simp only [Op.run, hanswer, Except.map] at h
        exact (Except.ok.inj h).symm
      · rintro ⟨scope', hscope', hstageable, rfl⟩
        obtain rfl := Except.ok.inj hscope'
        obtain ⟨-, hanswer⟩ := hgood hstageable
        simp only [Op.run, hanswer, Except.map]
        rfl

/-- A run that succeeds was ready for it. -/
theorem ready_of_run {settings : Settings} {files : List Path} {r : BatchResult}
    (hscope : Scope.ofSettings disk.cwdPath settings = .ok scope)
    (hrun : ((run (.still disk) settings (some files)).run ()).answer = .ok r) :
    Ready scope disk (files.map scope.normalize) ∧
      r = reportOf scope disk (files.map scope.normalize) := by
  obtain ⟨scope', hscope', hstageable, hr⟩ := (run_eq_ok_iff disk settings files r).mp hrun
  obtain rfl : scope = scope' := Except.ok.inj (hscope.symm.trans hscope')
  exact ⟨⟨isNormal_of_mem_normalized hscope, hstageable⟩, hr⟩

namespace Ready

variable {paths : List Path}

/-- The end session links the texts of listed files as the disk says. -/
theorem linkImports (h : Ready scope disk paths) {p : Path} (hp : p ∈ paths) {t : Text}
    (ht : Linkable scope disk p t) :
    ((Session.linkImports scope (.still disk) p t).run (endSession scope disk paths)).answer =
      .ok (linkedText scope disk p t) := by
  have hanswers := Session.answers_linkImports h.keeps p t
  have hnormal : scope.normalize p = p := (h.normal p hp).normalize_eq scope.cwd
  rw [hnormal] at hanswers
  exact ((hanswers []).1 ht).1

/-- The end session qualifies the comments of listed files as its index says. -/
theorem qualifyComment (h : Ready scope disk paths) {p : Path} (hp : p ∈ paths) (d : Text) :
    ((Session.qualifyComment scope p d).run (endSession scope disk paths)).answer =
      .ok (qualifiedIn (endSession scope disk paths).index (identityAt scope disk p) d) := by
  have hcached := cached?_of_keeps h.keeps (h.normal p hp) ⟨p, hp, .inl rfl⟩
  exact ((Session.answers_qualifyComment hcached d []).1 trivial).1

end Ready

/-! ## A small run

One file, whose comment declares a type and imports a type of that name from a file that is
missing. -/

def sampleText : Text := "let x /** @module a\n @typedef \x7bimport('./b').T\x7d T */ + y".toList

def sampleDisk : Disk :=
  ⟨.sub ['p'] (.file ['a', '.', 'j', 's'] (Encoding.encodeUtf8 sampleText) .empty) .empty, [['p']]⟩

def sampleSettings : Settings := .ofRoots ['/', 'p'] [['/', 'p']]

def sampleScope : Scope :=
  ⟨['/', 'p'], [['/', 'p']], .text "utf-8".toList, Settings.defaultExtensions⟩

def samplePath : Path := "/p/a.js".toList

def sampleResult : BatchResult where
  sources := [(samplePath, sampleText)]
  outputs := [(samplePath,
    "let x /** @module a\n @typedef \x7bmodule:a~T\x7d T */ + y".toList)]
  modules := [(['a'], ⟨[samplePath], [['T']]⟩)]
  statistics := ⟨2, 2, 1, 1, 1⟩

theorem sample_scope : Scope.ofSettings sampleDisk.cwdPath sampleSettings = .ok sampleScope := rfl

set_option maxRecDepth 100000 in
theorem sample_run :
    ((run (.still sampleDisk) sampleSettings (some ["a.js".toList])).run ()).answer =
      .ok sampleResult := by
  decide +kernel

end Batch

end DocRefs
