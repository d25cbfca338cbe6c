import Mathlib
import DocRefs.Json.Reader
import DocRefs.Proofs.ConfigFiles
import DocRefs.Proofs.Discovery
import DocRefs.Yaml.Reader

/-!
# Failures of loading settings

Loading answers with settings or with a failure, and most failures are reported as one of the
configuration. The others escape: a path that is too long, a file that is not UTF-8, source roots
that are no texts, a jsdoc source that is no table, and a variable of digits that is no number. What
is consulted decides which of them there can be. A parser may let failures of its own through; one
that fails with nothing but its own errors adds none.
-/

namespace DocRefs

namespace Settings

variable {vars : Variables} {disk : Disk} {file : Route} {e : Failure}

/-! ## Which file is consulted -/

theorem pathExists_eq_true_iff {p : Path} :
    pathExists disk p = .ok true ↔ ∃ entry, disk.entry p = .ok entry := by
  unfold pathExists leadsTo
  cases disk.entry p with
  | ok entry => simp
  | error why => cases why <;> simp

theorem pathExists_eq_error_iff {p : Path} : pathExists disk p = .error e ↔
    e = .disk .nameTooLong ∧ disk.entry p = .error .nameTooLong := leadsTo_eq_error_iff

theorem entry_eq_nameTooLong_iff {p : Path} : disk.entry p = .error .nameTooLong ↔
    disk.locate p = .error .nameTooLong := by
  unfold Disk.entry
  cases disk.locate p with
  | error why => simp [Bind.bind, Except.bind]
  | ok place =>
      simp only [Bind.bind, Except.bind]
      cases disk.root.find? place <;>
        simp [Pure.pure, Except.pure, throw, throwThe, MonadExceptOf.throw]

section Lengths

variable {n : Nat} {steps : List Text} {s t : Text}

/-- A path is found too long as a whole, or at one of its names. -/
theorem locate_rooted_eq_nameTooLong_iff (hn : n = 1 ∨ n = 2)
    (hsteps : ∀ s ∈ steps, Path.IsName s) :
    disk.locate (Path.rooted n steps) = .error .nameTooLong ↔ '\x00' ∉ Path.rooted n steps ∧
      (Disk.fits (Path.rooted n steps) = false ∨
        Disk.follow disk.root [] steps = .error .nameTooLong) := by
  have hne := Path.rooted_ne_nil hn steps
  unfold Disk.locate Disk.objection?
  rw [Disk.follow_splitOn_rooted hn hsteps]
  by_cases hnul : '\x00' ∈ Path.rooted n steps
  · simp [hnul]
  · cases hfits : Disk.fits (Path.rooted n steps) <;> simp [hnul, hne]

theorem follow_concat_eq_nameTooLong_iff {root : Dir} (hs : Path.IsEntryName s) :
    Disk.follow root [] (steps ++ [s]) = .error .nameTooLong ↔
      Disk.follow root [] steps = .error .nameTooLong := by
  rw [Disk.follow_append]
  cases Disk.follow root [] steps with
  | error why => simp
  | ok place =>
      dsimp only
      rw [Disk.follow]
      split
      · simp
      · simp
      · rw [if_neg (by simp [hs.ne_nil, hs.ne_here]), if_neg hs.ne_up,
          if_neg (Nat.not_lt.mpr hs.fits), Disk.follow]
        simp

theorem fits_concat_of_le (hle : (Encoding.encodeUtf8 s).length ≤ (Encoding.encodeUtf8 t).length)
    (h : Disk.fits (Path.rooted n (steps ++ [t])) = true) :
    Disk.fits (Path.rooted n (steps ++ [s])) = true := by
  have hlength : ∀ u : Text, (Encoding.encodeUtf8 (Path.rooted n (steps ++ [u]))).length =
      (Encoding.encodeUtf8 (if steps = [] then List.replicate n '/' else
        Path.rooted n steps ++ ['/'])).length + (Encoding.encodeUtf8 u).length := by
    intro u
    rw [Path.rooted_concat]
    unfold Encoding.encodeUtf8
    rw [List.flatMap_append, List.length_append]
  rw [Disk.fits_iff, hlength] at h ⊢
  omega

/-- Where a path with a short name at its end is too long, one with a name that is no shorter is
too long as well. -/
theorem locate_concat_eq_nameTooLong (hn : n = 1 ∨ n = 2) (hsteps : ∀ s ∈ steps, Path.IsName s)
    (hs : Path.IsEntryName s) (ht : Path.IsEntryName t)
    (hle : (Encoding.encodeUtf8 s).length ≤ (Encoding.encodeUtf8 t).length)
    (h : disk.locate (Path.rooted n (steps ++ [s])) = .error .nameTooLong) :
    disk.locate (Path.rooted n (steps ++ [t])) = .error .nameTooLong := by
  have hall : ∀ {u : Text}, Path.IsEntryName u → ∀ v ∈ steps ++ [u], Path.IsName v := fun hu => by
    simpa [or_imp, forall_and] using ⟨hsteps, hu.toIsName⟩
  have hnul : ∀ {u : Text}, Path.IsEntryName u →
      ('\x00' ∈ Path.rooted n (steps ++ [u]) ↔ ∃ v ∈ steps, '\x00' ∈ v) := fun hu => by
    rw [← Path.toPath_rooted hn, Route.nul_mem_toPath]
    simp [hu.nul_notMem]
  rw [locate_rooted_eq_nameTooLong_iff hn (hall hs), hnul hs,
    follow_concat_eq_nameTooLong_iff hs] at h
  rw [locate_rooted_eq_nameTooLong_iff hn (hall ht), hnul ht, follow_concat_eq_nameTooLong_iff ht]
  refine ⟨h.1, h.2.imp_left fun hlong => ?_⟩
  rw [← Bool.not_eq_true] at hlong ⊢
  exact mt (fits_concat_of_le hle) hlong

end Lengths

section Loading

variable {path : Path} {config : Option Path} {directory : Route} {names : List String}
  {post : Except Failure Settings → Unit → Prop}

/-- The directory of a project. -/
def projectRoute (disk : Disk) (path : Path) : Route :=
  Route.ofPath (Path.absolute disk.cwdPath path)

/-- The file that is looked for first. -/
def firstFile (disk : Disk) (path : Path) : Route :=
  (projectRoute disk path).child ".typeref.config.json".toList

/-- None of the names is in a directory. -/
def NoneThere (disk : Disk) (directory : Route) (names : List String) : Prop :=
  ∀ name ∈ names, pathExists disk (directory.child name.toList).toPath = .ok false

/-- A file is the first of the names that is in a directory. -/
inductive FirstThere (disk : Disk) (directory : Route) (names : List String) : Route → Prop
  | intro {front back : List String} {name : String} (hnames : names = front ++ name :: back)
      (hfront : NoneThere disk directory front)
      (h : pathExists disk (directory.child name.toList).toPath = .ok true) :
      FirstThere disk directory names (directory.child name.toList)

/-- Where settings are loaded from. -/
inductive Source
  | own (file : Route)
  | jsdoc (file : Route)
  | fallback

/-- What is consulted for the settings of a project: the file that is asked for, the project's own
one, a jsdoc configuration, or the defaults. -/
inductive Consults (disk : Disk) (path : Path) : Option Path → Source → Prop
  | asked {c : Path} (h : pathExists disk (Route.ofPath c).toPath = .ok true) :
      Consults disk path (some c) (.own (Route.ofPath c))
  | own {file : Route} (h : FirstThere disk (projectRoute disk path) configNames file) :
      Consults disk path none (.own file)
  | jsdoc {file : Route} (hown : NoneThere disk (projectRoute disk path) configNames)
      (h : FirstThere disk (projectRoute disk path) jsdocNames file) :
      Consults disk path none (.jsdoc file)
  | fallback (hown : NoneThere disk (projectRoute disk path) configNames)
      (hjsdoc : NoneThere disk (projectRoute disk path) jsdocNames) :
      Consults disk path none .fallback

theorem NoneThere.firstExisting_eq (h : NoneThere disk directory names) :
    firstExisting disk directory names = .ok none := by
  induction names with
  | nil => rfl
  | cons name names ih =>
      obtain ⟨hname, hnames⟩ := List.forall_mem_cons.mp h
      rw [firstExisting, hname]
      exact ih hnames

theorem FirstThere.exists_firstExisting_eq (h : FirstThere disk directory names file) :
    ∃ name, firstExisting disk directory names = .ok (some (name, file)) := by
  cases h with
  | @intro front back name hnames hfront hname =>
      subst hnames
      refine ⟨name, ?_⟩
      induction front with
      | nil =>
          rw [List.nil_append, firstExisting, hname]
          rfl
      | cons first front ih =>
          obtain ⟨hfirst, hfront⟩ := List.forall_mem_cons.mp hfront
          rw [List.cons_append, firstExisting, hfirst]
          exact ih hfront

/-- Of a list of names none is there, or there is a first one, or one cannot be looked for. -/
theorem there_cases (disk : Disk) (directory : Route) (names : List String) :
    NoneThere disk directory names ∨ (∃ file, FirstThere disk directory names file) ∨
      ∃ name ∈ names, ∃ e, pathExists disk (directory.child name.toList).toPath = .error e := by
  induction names with
  | nil => exact .inl (by simp [NoneThere])
  | cons name names ih =>
      cases hname : pathExists disk (directory.child name.toList).toPath with
      | error e => exact .inr (.inr ⟨name, by simp, e, hname⟩)
      | ok there =>
          cases there with
          | true =>
              have hnone : NoneThere disk directory [] := by simp [NoneThere]
              exact .inr (.inl ⟨_, .intro (List.nil_append _).symm hnone hname⟩)
          | false =>
              rcases ih with hnone | ⟨file, hfile⟩ | ⟨other, hother, e, he⟩
              · exact .inl (List.forall_mem_cons.mpr ⟨hname, hnone⟩)
              · cases hfile with
                | intro hnames hfront h =>
                    subst hnames
                    exact .inr (.inl ⟨_, .intro rfl
                      (List.forall_mem_cons.mpr ⟨hname, hfront⟩) h⟩)
              · exact .inr (.inr ⟨other, by simp [hother], e, he⟩)

theorem FirstThere.isThere (h : FirstThere disk directory names file) : IsThere disk file := by
  cases h with
  | intro hnames hfront h => exact pathExists_eq_true_iff.mp h

theorem Consults.isThere {source : Source} (h : Consults disk path config source) :
    (∀ file, source = .own file → IsThere disk file) ∧
      ∀ file, source = .jsdoc file → IsThere disk file := by
  cases h with
  | asked h =>
      have hthere : IsThere disk _ := pathExists_eq_true_iff.mp h
      simpa using hthere
  | own h => simpa using h.isThere
  | jsdoc hown h => simpa using h.isThere
  | fallback hown hjsdoc => simp

/-- The names of configuration files are short, and none is longer than the first. -/
theorem isEntryName_of_mem {name : String} (h : name ∈ configNames ++ jsdocNames) :
    Path.IsEntryName name.toList ∧ (Encoding.encodeUtf8 name.toList).length ≤
      (Encoding.encodeUtf8 ".typeref.config.json".toList).length := by
  revert name
  decide +kernel

/-- Looking for configuration files fails for one of them only if it fails for the first. -/
theorem entry_firstFile_of_error {name : String} (hname : name ∈ configNames ++ jsdocNames)
    (h : pathExists disk ((projectRoute disk path).child name.toList).toPath = .error e) :
    disk.entry (firstFile disk path).toPath = .error .nameTooLong := by
  obtain ⟨n, steps, hn, hsteps, habsolute⟩ : Path.IsNormal (Path.absolute disk.cwdPath path) :=
    Path.isNormal_absolute rfl path
  have hchild : ∀ name' ∈ configNames ++ jsdocNames,
      ((projectRoute disk path).child name'.toList).toPath =
        Path.rooted n (steps ++ [name'.toList]) := by
    intro name' hmem
    have hname' := (isEntryName_of_mem hmem).1.toIsName
    have hall : ∀ t ∈ steps ++ [name'.toList], Path.IsName t := by
      simpa [or_imp, forall_and] using ⟨hsteps, hname'⟩
    rw [projectRoute, ← Route.ofPath_join, habsolute, Path.join_rooted hn hsteps hname',
      Path.IsNormal.toPath_ofPath ⟨n, _, hn, hall, rfl⟩]
  have hfirst : ".typeref.config.json" ∈ configNames ++ jsdocNames := by simp [configNames]
  obtain ⟨hshort, hle⟩ := isEntryName_of_mem hname
  rw [pathExists_eq_error_iff, hchild name hname, entry_eq_nameTooLong_iff] at h
  rw [firstFile, hchild _ hfirst, entry_eq_nameTooLong_iff]
  exact locate_concat_eq_nameTooLong hn hsteps hshort (isEntryName_of_mem hfirst).1 hle h.2

/-- Something is consulted, or the file that is asked for is missing, or the path of that file or
of the first one in the project is too long. -/
theorem consults_cases (disk : Disk) (path : Path) (config : Option Path) :
    (∃ source, Consults disk path config source) ∨
      (∃ c, config = some c ∧ (pathExists disk (Route.ofPath c).toPath = .ok false ∨
        disk.entry (Route.ofPath c).toPath = .error .nameTooLong)) ∨
      (config = none ∧ disk.entry (firstFile disk path).toPath = .error .nameTooLong) := by
  cases config with
  | some c =>
      cases hc : pathExists disk (Route.ofPath c).toPath with
      | error e => exact .inr (.inl ⟨c, rfl, .inr (pathExists_eq_error_iff.mp hc).2⟩)
      | ok there =>
          cases there with
          | true => exact .inl ⟨_, .asked hc⟩
          | false => exact .inr (.inl ⟨c, rfl, .inl hc⟩)
  | none =>
      rcases there_cases disk (projectRoute disk path) configNames with
        hown | ⟨file, hfile⟩ | ⟨name, hname, e, he⟩
      · rcases there_cases disk (projectRoute disk path) jsdocNames with
          hjsdoc | ⟨file, hfile⟩ | ⟨name, hname, e, he⟩
        · exact .inl ⟨_, .fallback hown hjsdoc⟩
        · exact .inl ⟨_, .jsdoc hown hfile⟩
        · exact .inr (.inr ⟨rfl, entry_firstFile_of_error (List.mem_append_right _ hname) he⟩)
      · exact .inl ⟨_, .own hfile⟩
      · exact .inr (.inr ⟨rfl, entry_firstFile_of_error (List.mem_append_left _ hname) he⟩)

/-! ## What escapes -/

variable [Parsers]

namespace Consults

theorem meets_own (h : Consults disk path config (.own file))
    (hfile : (ofFile vars (.still disk) file).Meets () post) :
    (load vars (.still disk) path config).Meets () post := by
  unfold load
  apply Op.meets_see_bind
  cases h with
  | asked h =>
      dsimp only
      rw [h]
      exact fun log => hfile log
  | own h =>
      obtain ⟨name, hname⟩ := h.exists_firstExisting_eq
      unfold projectRoute at hname
      dsimp only
      rw [hname]
      exact fun _ => hfile _

theorem meets_jsdoc (h : Consults disk path config (.jsdoc file))
    (hfile : (ofJsdoc vars (.still disk) file).Meets () post) :
    (load vars (.still disk) path config).Meets () post := by
  unfold load
  apply Op.meets_see_bind
  cases h with
  | jsdoc hown h =>
      have hnone := hown.firstExisting_eq
      obtain ⟨name, hname⟩ := h.exists_firstExisting_eq
      unfold projectRoute at hnone hname
      dsimp only
      rw [hnone]
      refine Op.meets_ofExcept_bind (fun why h => nomatch h) fun found hfound => ?_
      obtain rfl := Except.ok.inj hfound
      dsimp only
      rw [hname]
      exact fun _ => hfile _

theorem meets_fallback (h : Consults disk path config .fallback)
    (hdefaults : post (defaults vars disk (projectRoute disk path)) ()) :
    (load vars (.still disk) path config).Meets () post := by
  unfold load
  apply Op.meets_see_bind
  cases h with
  | fallback hown hjsdoc =>
      have hnone := hown.firstExisting_eq
      have hnone' := hjsdoc.firstExisting_eq
      unfold projectRoute at hnone hnone' hdefaults
      dsimp only
      rw [hnone]
      refine Op.meets_ofExcept_bind (fun why h => nomatch h) fun found hfound => ?_
      obtain rfl := Except.ok.inj hfound
      dsimp only
      rw [hnone']
      refine Op.meets_ofExcept_bind (fun why h => nomatch h) fun found hfound => ?_
      obtain rfl := Except.ok.inj hfound
      exact Op.meets_log_bind (Op.meets_ofExcept hdefaults)

theorem meets_load_own (h : Consults disk path config (.own file)) :
    (load vars (.still disk) path config).Meets () fun r _ => ∀ e, e.Escapes r ↔
      FileEscapes disk file (TableEscapes vars disk (directoryOf disk file)) e :=
  h.meets_own (meets_ofFile (h.isThere.1 file rfl))

theorem meets_load_jsdoc (h : Consults disk path config (.jsdoc file)) :
    (load vars (.still disk) path config).Meets () fun r _ => ∀ e, e.Escapes r ↔
      FileEscapes disk file (JsdocEscapes vars disk (directoryOf disk file)) e :=
  h.meets_jsdoc (meets_ofJsdoc (h.isThere.2 file rfl))

theorem meets_load_fallback (h : Consults disk path config .fallback) :
    (load vars (.still disk) path config).Meets () fun r _ => ∀ e : Failure, e.Escapes r ↔
      DefaultsEscapes vars disk (projectRoute disk path) e :=
  h.meets_fallback fun _ => escapes_defaults_iff

end Consults

/-- Escapes of loading settings. -/
inductive LoadEscapes (vars : Variables) (disk : Disk) (path : Path) : Option Path → Failure → Prop
  /-- The path of the file that is asked for is too long, or a name in it. -/
  | fileName {c : Path} (h : disk.entry (Route.ofPath c).toPath = .error .nameTooLong) :
      LoadEscapes vars disk path (some c) (.disk .nameTooLong)
  /-- The path of the project is too long for its configuration file, or a name in it is. -/
  | projectName (h : disk.entry (firstFile disk path).toPath = .error .nameTooLong) :
      LoadEscapes vars disk path none (.disk .nameTooLong)
  | own {config : Option Path} {file : Route} {e : Failure}
      (hfile : Consults disk path config (.own file))
      (h : FileEscapes disk file (TableEscapes vars disk (directoryOf disk file)) e) :
      LoadEscapes vars disk path config e
  | jsdoc {config : Option Path} {file : Route} {e : Failure}
      (hfile : Consults disk path config (.jsdoc file))
      (h : FileEscapes disk file (JsdocEscapes vars disk (directoryOf disk file)) e) :
      LoadEscapes vars disk path config e
  | fallback {config : Option Path} {e : Failure} (h : Consults disk path config .fallback)
      (hbad : DefaultsEscapes vars disk (projectRoute disk path) e) :
      LoadEscapes vars disk path config e

theorem meets_load_fileName {c : Path}
    (h : disk.entry (Route.ofPath c).toPath = .error .nameTooLong) :
    (load vars (.still disk) path (some c)).Meets () fun r _ =>
      r = .error (.disk .nameTooLong) := by
  unfold load
  apply Op.meets_see_bind
  dsimp only
  rw [pathExists_eq_error_iff.mpr ⟨rfl, h⟩]
  exact fun _ => rfl

theorem meets_load_projectName
    (h : disk.entry (firstFile disk path).toPath = .error .nameTooLong) :
    (load vars (.still disk) path none).Meets () fun r _ => r = .error (.disk .nameTooLong) := by
  have hfirst : firstExisting disk (projectRoute disk path) configNames =
      .error (.disk .nameTooLong) := by
    unfold firstFile at h
    rw [configNames, firstExisting, pathExists_eq_error_iff.mpr ⟨rfl, h⟩]
    rfl
  unfold projectRoute at hfirst
  unfold load
  apply Op.meets_see_bind
  dsimp only
  rw [hfirst]
  exact fun _ => rfl

theorem meets_load_missing {c : Path} (h : pathExists disk (Route.ofPath c).toPath = .ok false) :
    (load vars (.still disk) path (some c)).Meets () fun r _ =>
      ∃ problem file, r = .error (.configuration problem file) := by
  unfold load
  apply Op.meets_see_bind
  dsimp only
  rw [h]
  exact fun _ => ⟨_, _, rfl⟩

theorem load_escapes_iff (log : Log) :
    e.Escapes (load vars (.still disk) path config log ()).answer ↔
      LoadEscapes vars disk path config e := by
  have hlong : ∀ {r : Except Failure Settings}, r = .error (.disk .nameTooLong) →
      (e.Escapes r ↔ e = .disk .nameTooLong) := by
    rintro _ rfl
    exact Failure.escapes_error_iff id
  constructor
  · intro hescapes
    rcases consults_cases disk path config with
      ⟨source, hsource⟩ | ⟨c, rfl, hmissing | hname⟩ | ⟨rfl, hname⟩
    · cases source with
      | own file => exact .own hsource ((hsource.meets_load_own log e).mp hescapes)
      | jsdoc file => exact .jsdoc hsource ((hsource.meets_load_jsdoc log e).mp hescapes)
      | fallback => exact .fallback hsource ((hsource.meets_load_fallback log e).mp hescapes)
    · obtain ⟨problem, file, hanswer⟩ := meets_load_missing hmissing log
      rw [hanswer] at hescapes
      exact absurd hescapes (Failure.not_escapes_configuration problem file)
    · obtain rfl := (hlong (meets_load_fileName hname log)).mp hescapes
      exact .fileName hname
    · obtain rfl := (hlong (meets_load_projectName hname log)).mp hescapes
      exact .projectName hname
  · intro h
    cases h with
    | fileName hname => exact (hlong (meets_load_fileName hname log)).mpr rfl
    | projectName hname => exact (hlong (meets_load_projectName hname log)).mpr rfl
    | own hfile h => exact (hfile.meets_load_own log e).mpr h
    | jsdoc hfile h => exact (hfile.meets_load_jsdoc log e).mpr h
    | fallback hfile hbad => exact (hfile.meets_load_fallback log e).mpr hbad

/-- **Failures that are not reported.** Loading settings answers with settings or with a failure
that is reported as one of the configuration exactly when nothing escapes, and it answers with an
escape whenever there is one. With parsers that give a value or an error of their own, reading a
table lets nothing through but a file that is not UTF-8, and lets every such file through that is
not read as YAML. -/
theorem load_reports_iff (vars : Variables) (disk : Disk) (path : Path) (config : Option Path)
    (log : Log) :
    let answer := (load vars (.still disk) path config log ()).answer
    (((∃ s, answer = .ok s) ∨ ∃ problem file, answer = .error (.configuration problem file)) ↔
        ∀ e, ¬LoadEscapes vars disk path config e) ∧
      (∀ e, LoadEscapes vars disk path config e ↔ answer = .error e ∧ ¬e.IsConfiguration) ∧
      (Parsers.OnlyRefuse → ∀ file e,
        (ReadEscapes disk file e → e = .undecodable ∧ ∃ content,
          disk.read file.toPath = .ok content ∧ Encoding.decodeUtf8 content = none) ∧
        (isYaml file = false → e = .undecodable → (∃ content,
          disk.read file.toPath = .ok content ∧ Encoding.decodeUtf8 content = none) →
          ReadEscapes disk file e)) := by
  intro answer
  have hescapes : ∀ e, LoadEscapes vars disk path config e ↔ e.Escapes answer := fun e =>
    (load_escapes_iff log).symm
  refine ⟨?_, hescapes, fun hparsers => readEscapes_of_onlyRefuse hparsers disk⟩
  simp only [hescapes]
  cases hanswer : answer with
  | ok s => simp
  | error why =>
      by_cases hwhy : why.IsConfiguration
      · cases why with
        | configuration problem file => simp
        | _ => exact hwhy.elim
      · refine iff_of_false ?_ fun h => h why ⟨rfl, hwhy⟩
        rintro (⟨s, hs⟩ | ⟨problem, file, heq⟩)
        · simp at hs
        · exact hwhy (Except.error.inj heq ▸ trivial)

end Loading

/-! ## A configuration file that is no text -/

/-- What a parser answers that takes every text that it does not get through for a wrong one. -/
def refused : Except Misread Value → Except Misread Value
  | .error _ => .error .malformed
  | .ok v => .ok v

theorem refused_ne_failed (r : Except Misread Value) (why : Failure) :
    refused r ≠ .error (.failed why) := by
  cases r <;> simp [refused]

/-- YAML that is decoded before it is parsed. -/
def refusedYaml (content : Bytes) : Except Misread Value :=
  match Encoding.decodeUtf8 content with
  | none => .error (.failed .undecodable)
  | some t => refused (Yaml.read (foldNewlines t))

/-- Parsers that give a value or refuse. -/
@[reducible] def refusingParsers : Parsers where
  json t := refused (Json.read t)
  yaml := refusedYaml

theorem onlyRefuse_refusingParsers : @Parsers.OnlyRefuse refusingParsers := by
  refine @Parsers.OnlyRefuse.mk refusingParsers (fun t why => refused_ne_failed _ why) ?_
  intro content why (h : refusedYaml content = .error (.failed why))
  unfold refusedYaml at h
  split at h
  next hnone =>
    obtain rfl : .undecodable = why := by simpa using h
    exact ⟨rfl, hnone⟩
  · exact absurd h (refused_ne_failed _ why)

/-- A project whose configuration file is one byte that no UTF-8 text has. -/
def garbledDisk : Disk :=
  ⟨.sub ['p'] (.file ".typeref.config.json".toList [0xFF] .empty) .empty, [['p']]⟩

/-- The bytes cannot be decoded, and this failure is not reported as one of the configuration. -/
theorem garbled_load_not_reported :
    let answer := (@load refusingParsers [] (.still garbledDisk) ['/', 'p'] none [] ()).answer
    answer = .error .undecodable ∧
      ¬((∃ s, answer = .ok s) ∨ ∃ problem file, answer = .error (.configuration problem file)) := by
  intro answer
  have hfile : FirstThere garbledDisk (projectRoute garbledDisk ['/', 'p']) configNames
      (firstFile garbledDisk ['/', 'p']) :=
    .intro (List.nil_append _).symm (by simp [NoneThere]) (by decide +kernel)
  obtain ⟨hreported, hescapes, hreads⟩ :=
    @load_reports_iff refusingParsers [] garbledDisk ['/', 'p'] none []
  obtain ⟨-, hundecodable⟩ :=
    hreads onlyRefuse_refusingParsers (firstFile garbledDisk ['/', 'p']) .undecodable
  have hread := hundecodable (by decide +kernel) rfl
    ⟨[0xFF], by decide +kernel, by decide +kernel⟩
  have hload : @LoadEscapes refusingParsers [] garbledDisk ['/', 'p'] none .undecodable :=
    @LoadEscapes.own refusingParsers _ _ _ _ _ _ (.own hfile)
      (@FileEscapes.read refusingParsers _ _ _ _ hread)
  exact ⟨((hescapes _).mp hload).1, fun h => hreported.mp h _ hload⟩

end Settings

end DocRefs
