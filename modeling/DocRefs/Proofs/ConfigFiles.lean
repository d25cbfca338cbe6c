import Mathlib
import DocRefs.Proofs.RunFailures
import DocRefs.Proofs.SettingsTables

/-!
# Settings from a file

A configuration file has to be read and to be parsed as a table. What escapes from there on depends
on the table, and for a jsdoc configuration on the sources that it includes. The parsers may be any;
that they fail with nothing but errors of their own is asked for only where it is needed.
-/

namespace DocRefs

namespace Settings

variable {vars : Variables} {disk : Disk} {base file : Route} {table : List (Value × Value)}
  {content : Bytes} {e : Failure}

/-! ## The table in a file -/

section Reading

variable [Parsers]

/-- A file holds what its parser takes for a table. -/
def TableAt (disk : Disk) (file : Route) (table : List (Value × Value)) : Prop :=
  ∃ content, disk.read file.toPath = .ok content ∧ parse file content = .ok (.map table)

/-- Escapes of reading a table: the failures of its parser that are none of the parser's own
errors. -/
def ReadEscapes (disk : Disk) (file : Route) (e : Failure) : Prop :=
  (∃ content, disk.read file.toPath = .ok content ∧ parse file content = .error (.failed e)) ∧
    ¬e.IsConfiguration

/-- What reading a table comes to. -/
structure TableRead (disk : Disk) (file : Route) (r : Except Failure (List (Value × Value))) :
    Prop where
  table : ∀ table, r = .ok table ↔ TableAt disk file table
  escapes : ∀ e, e.Escapes r ↔ ReadEscapes disk file e

/-- Something is at the path of a file. -/
def IsThere (disk : Disk) (file : Route) : Prop := ∃ e, disk.entry file.toPath = .ok e

/-- Once the content of a file is known, the parser decides whether there is a table. -/
theorem tableAt_iff_of_read (hread : disk.read file.toPath = .ok content) :
    TableAt disk file table ↔ parse file content = .ok (.map table) := by
  simp [TableAt, hread]

theorem readEscapes_iff_of_read (hread : disk.read file.toPath = .ok content) :
    ReadEscapes disk file e ↔ parse file content = .error (.failed e) ∧ ¬e.IsConfiguration := by
  simp [ReadEscapes, hread]

/-- Parsers that fail with errors of their own let nothing through but bytes that are not UTF-8. -/
theorem parse_failed (hparsers : Parsers.OnlyRefuse)
    (h : parse file content = .error (.failed e)) :
    e = .undecodable ∧ Encoding.decodeUtf8 content = none := by
  unfold parse at h
  split at h
  · cases hyaml : Parsers.yaml content with
    | ok v => simp [hyaml, Bind.bind, Except.bind, Pure.pure, Except.pure] at h
    | error misread =>
        obtain rfl : misread = .failed e := by simpa [hyaml, Bind.bind, Except.bind] using h
        exact hparsers.yaml content e hyaml
  · split at h
    next hnone =>
      obtain rfl : .undecodable = e := by simpa using h
      exact ⟨rfl, hnone⟩
    next t _ => exact absurd h (hparsers.json (foldNewlines t) e)

/-- With such parsers a file that is not UTF-8 is all that escapes from reading, and a file that is
decoded before it is parsed always does. -/
theorem readEscapes_of_onlyRefuse (hparsers : Parsers.OnlyRefuse) (disk : Disk) (file : Route)
    (e : Failure) :
    (ReadEscapes disk file e → e = .undecodable ∧
      ∃ content, disk.read file.toPath = .ok content ∧ Encoding.decodeUtf8 content = none) ∧
    (isYaml file = false → e = .undecodable → (∃ content, disk.read file.toPath = .ok content ∧
      Encoding.decodeUtf8 content = none) → ReadEscapes disk file e) := by
  constructor
  · rintro ⟨⟨content, hread, hparse⟩, -⟩
    obtain ⟨rfl, hnone⟩ := parse_failed hparsers hparse
    exact ⟨rfl, content, hread, hnone⟩
  · rintro hjson rfl ⟨content, hread, hnone⟩
    refine ⟨⟨content, hread, ?_⟩, id⟩
    rw [parse, if_neg (by simp [hjson]), hnone]

theorem meets_readTable (h : IsThere disk file) :
    (readTable (.still disk) file).Meets () fun r _ => TableRead disk file r := by
  obtain ⟨entry, hentry⟩ := h
  unfold readTable
  apply Op.meets_see_bind
  cases entry with
  | dir entries =>
      have hread : disk.read file.toPath = .error .isADirectory := by
        simp [Disk.read, hentry, Bind.bind, Except.bind, throw, throwThe, MonadExceptOf.throw]
      rw [hread]
      exact Op.meets_log_bind (Op.meets_fail
        ⟨by simp [TableAt, hread], by simp [ReadEscapes, hread]⟩)
  | file content =>
      have hread : disk.read file.toPath = .ok content := by
        simp [Disk.read, hentry, Bind.bind, Except.bind, Pure.pure, Except.pure]
      have htable : ∀ table, TableAt disk file table ↔ _ := fun _ => tableAt_iff_of_read hread
      have hescapes : ∀ e, ReadEscapes disk file e ↔ _ := fun _ => readEscapes_iff_of_read hread
      rw [hread]
      dsimp only
      cases hparse : parse file content with
      | error misread =>
          cases misread with
          | malformed =>
              exact Op.meets_log_bind (Op.meets_fail
                ⟨by simp [htable, hparse], by simp [hescapes, hparse]⟩)
          | failed why =>
              refine Op.meets_fail ⟨by simp [htable, hparse], fun e => ?_⟩
              rw [hescapes, hparse, Failure.Escapes]
              simp
      | ok v =>
          cases v with
          | map entries =>
              exact Op.meets_pure ⟨by simp [htable, hparse], by simp [hescapes, hparse]⟩
          | _ => exact Op.meets_fail ⟨by simp [htable, hparse], by simp [hescapes, hparse]⟩

/-- Escapes of what is done with the table in a file: those of reading it, and those of the rest. -/
inductive FileEscapes (disk : Disk) (file : Route)
    (rest : List (Value × Value) → Failure → Prop) : Failure → Prop
  | read {e : Failure} (h : ReadEscapes disk file e) : FileEscapes disk file rest e
  | rest {table : List (Value × Value)} {e : Failure} (htable : TableAt disk file table)
      (h : rest table e) : FileEscapes disk file rest e

theorem meets_readTable_bind (h : IsThere disk file) {rest : List (Value × Value) → Failure → Prop}
    {f : List (Value × Value) → Logged Settings}
    (hf : ∀ table, (f table).Meets () fun r _ => ∀ e, e.Escapes r ↔ rest table e) :
    (readTable (.still disk) file >>= f).Meets () fun r _ =>
      ∀ e, e.Escapes r ↔ FileEscapes disk file rest e := by
  refine (meets_readTable h).bind ?_ ?_
  · intro why _ hread e
    have hnone : ∀ table, ¬TableAt disk file table := fun table htable => by
      simpa using (hread.table table).mpr htable
    have hescapes := hread.escapes e
    simp only [Failure.Escapes, Except.error.injEq] at hescapes ⊢
    rw [hescapes]
    constructor
    · exact .read
    · intro hescapes
      cases hescapes with
      | read hescapes => exact hescapes
      | rest htable _ => exact absurd htable (hnone _)
  · intro table _ hread
    refine (hf table).mono fun r _ hr e => ?_
    rw [hr]
    constructor
    · exact .rest ((hread.table table).mp rfl)
    · intro hescapes
      cases hescapes with
      | read hescapes => simpa using (hread.escapes e).mpr hescapes
      | rest htable hrest =>
          obtain rfl := Except.ok.inj ((hread.table _).mpr htable)
          exact hrest

end Reading

/-! ## Settings from a configuration file -/

/-- Escapes of settings from the table in a configuration file, where `base` is the directory that
its roots are seen from. -/
inductive TableEscapes (vars : Variables) (disk : Disk) (base : Route)
    (table : List (Value × Value)) : Failure → Prop
  | roots {v : Value} (hv : Value.lookup? rootsKey table = some v) (h : OddRoots v) :
      TableEscapes vars disk base table .wrongKind
  /-- A file that lists no roots leaves them to the defaults. -/
  | defaults {e : Failure} (hroots : Value.lookup? rootsKey table = none ∨
        Value.lookup? rootsKey table = some (.list []))
      (h : DefaultsEscapes vars disk base e) : TableEscapes vars disk base table e

theorem tableEscapes_iff : TableEscapes vars disk base table e ↔
    (e = .wrongKind ∧ ∃ v, Value.lookup? rootsKey table = some v ∧ OddRoots v) ∨
    (DefaultsEscapes vars disk base e ∧ (Value.lookup? rootsKey table = none ∨
      Value.lookup? rootsKey table = some (.list []))) := by
  constructor
  · intro h
    cases h with
    | roots hv hodd => exact .inl ⟨rfl, _, hv, hodd⟩
    | defaults hroots hbad => exact .inr ⟨hbad, hroots⟩
  · rintro (⟨rfl, v, hv, hodd⟩ | ⟨hbad, hroots⟩)
    · exact .roots hv hodd
    · exact .defaults hroots hbad

/-- Settings that come out right have nothing odd in their roots. -/
theorem TableOutcome.tableEscapes_iff_of_ok {s : Settings}
    (h : TableOutcome (Value.lookup? rootsKey table) (.ok s)) :
    TableEscapes vars disk base table e ↔ DefaultsEscapes vars disk base e ∧ s.roots = [] := by
  have hodd := h.escapes_iff.not.mp (Failure.not_escapes_ok (e := e) s)
  rw [tableEscapes_iff, or_iff_right hodd, ← h.roots_eq_nil_iff]

theorem meets_ofFile [Parsers] (h : IsThere disk file) :
    (ofFile vars (.still disk) file).Meets () fun r _ => ∀ e, e.Escapes r ↔
      FileEscapes disk file (TableEscapes vars disk (directoryOf disk file)) e := by
  unfold ofFile
  refine meets_readTable_bind h fun table => ?_
  have houtcome := tableOutcome_ofTable disk.cwdPath (directoryOf disk file) table
  apply Op.meets_see_bind
  refine Op.meets_ofExcept_bind ?_ ?_
  · intro why hwhy e
    rw [hwhy] at houtcome
    rw [tableEscapes_iff, houtcome.escapes_iff]
    simp [houtcome.not_nil_of_error]
  · intro s hs
    rw [hs] at houtcome
    simp only [houtcome.tableEscapes_iff_of_ok]
    split
    next hempty =>
      have hroots : s.roots = [] := List.isEmpty_iff.mp hempty
      refine Op.meets_ofExcept_bind ?_ ?_
      · intro why hwhy e
        rw [← hwhy, escapes_defaults_iff]
        simp [hroots]
      · intro d hd
        have hgood : ∀ e : Failure, ¬DefaultsEscapes vars disk (directoryOf disk file) e :=
          fun e => by
            rw [← escapes_defaults_iff, hd]
            exact Failure.not_escapes_ok d
        exact fun _ e => iff_of_false (Failure.not_escapes_ok _) fun h => hgood e h.1
    next hlisted =>
      exact fun _ e => iff_of_false (Failure.not_escapes_ok _) fun h =>
        hlisted (List.isEmpty_iff.mpr h.2)

/-! ## Settings from a jsdoc configuration -/

/-- A jsdoc configuration has no source, or a source that counts as absent, or a table that includes
nothing. -/
def IncludesNothing (table : List (Value × Value)) : Prop :=
  ∀ source, Value.lookup? "source".toList table = some source → source.isPresent = true →
    ∃ es, source = .map es ∧
      ∀ v, Value.lookup? "include".toList es = some v → v.isPresent = false

/-- What the included sources of a jsdoc configuration come to. -/
inductive IncludeOutcome (table : List (Value × Value)) : Except Failure Value → Prop
  | nothing {v : Value} (h : IncludesNothing table) (habsent : v.isPresent = false) :
      IncludeOutcome table (.ok v)
  | roots {es : List (Value × Value)} {v : Value}
      (hsource : Value.lookup? "source".toList table = some (.map es))
      (hv : Value.lookup? "include".toList es = some v) (hpresent : v.isPresent = true) :
      IncludeOutcome table (.ok v)
  | odd {source : Value} (hsource : Value.lookup? "source".toList table = some source)
      (hpresent : source.isPresent = true) (hodd : ∀ es, source ≠ .map es) :
      IncludeOutcome table (.error .noMember)

theorem includeOutcome_jsdocInclude (table : List (Value × Value)) :
    IncludeOutcome table (jsdocInclude table) := by
  unfold jsdocInclude
  cases hsource : Value.lookup? "source".toList table with
  | none => exact .nothing (fun source h => absurd (hsource.symm.trans h) (by simp)) rfl
  | some source =>
      simp only [Option.getD_some]
      split
      next hpresent =>
        split
        next es =>
          have hnothing : (∀ v, Value.lookup? "include".toList es = some v → v.isPresent = false) →
              IncludesNothing table := by
            intro h source' hsource' _
            obtain rfl := Option.some.inj (hsource.symm.trans hsource')
            exact ⟨es, rfl, h⟩
          cases hv : Value.lookup? "include".toList es with
          | none => exact .nothing (hnothing fun v h => absurd (hv.symm.trans h) (by simp)) rfl
          | some v =>
              cases hthere : v.isPresent with
              | true => exact .roots hsource hv hthere
              | false =>
                  refine .nothing (hnothing fun v' h => ?_) hthere
                  rwa [← Option.some.inj (hv.symm.trans h)]
        next hodd => exact .odd hsource hpresent hodd
      next habsent =>
        refine .nothing (fun source' hsource' hpresent => ?_) rfl
        obtain rfl := Option.some.inj (hsource.symm.trans hsource')
        exact absurd hpresent habsent

/-- Escapes of settings from the table in a jsdoc configuration in a directory. -/
inductive JsdocEscapes (vars : Variables) (disk : Disk) (base : Route)
    (table : List (Value × Value)) : Failure → Prop
  | source {source : Value} (hsource : Value.lookup? "source".toList table = some source)
      (hpresent : source.isPresent = true) (hodd : ∀ es, source ≠ .map es) :
      JsdocEscapes vars disk base table .noMember
  | roots {es : List (Value × Value)} {v : Value}
      (hsource : Value.lookup? "source".toList table = some (.map es))
      (hv : Value.lookup? "include".toList es = some v) (hpresent : v.isPresent = true)
      (h : OddRoots v) : JsdocEscapes vars disk base table .wrongKind
  /-- A configuration that includes nothing leaves the roots to the defaults. -/
  | defaults {e : Failure} (hnothing : IncludesNothing table)
      (h : DefaultsEscapes vars disk base e) : JsdocEscapes vars disk base table e

theorem IncludesNothing.isPresent_eq_false (h : IncludesNothing table) {es : List (Value × Value)}
    {v : Value} (hsource : Value.lookup? "source".toList table = some (.map es))
    (hv : Value.lookup? "include".toList es = some v) : v.isPresent = false := by
  have hpresent : (Value.map es).isPresent = true := by
    cases es with
    | nil =>
        rw [Value.lookup?_nil] at hv
        cases hv
    | cons entry es => rfl
  obtain ⟨es', heq, habsent⟩ := h _ hsource hpresent
  obtain rfl := Value.map.inj heq
  exact habsent v hv

theorem IncludesNothing.jsdocEscapes_iff (h : IncludesNothing table) :
    JsdocEscapes vars disk base table e ↔ DefaultsEscapes vars disk base e := by
  constructor
  · intro hescapes
    cases hescapes with
    | source hsource hpresent hodd =>
        obtain ⟨es, rfl, -⟩ := h _ hsource hpresent
        exact absurd rfl (hodd es)
    | roots hsource hv hpresent _ => simp [h.isPresent_eq_false hsource hv] at hpresent
    | defaults _ hbad => exact hbad
  · exact .defaults h

theorem jsdocEscapes_iff_of_roots {es : List (Value × Value)} {v : Value}
    (hsource : Value.lookup? "source".toList table = some (.map es))
    (hv : Value.lookup? "include".toList es = some v) (hpresent : v.isPresent = true) :
    JsdocEscapes vars disk base table e ↔ e = .wrongKind ∧ OddRoots v := by
  constructor
  · intro hescapes
    cases hescapes with
    | source hsource' _ hodd =>
        obtain rfl := Option.some.inj (hsource.symm.trans hsource')
        exact absurd rfl (hodd es)
    | roots hsource' hv' _ hodd =>
        obtain rfl := Value.map.inj (Option.some.inj (hsource.symm.trans hsource'))
        obtain rfl := Option.some.inj (hv.symm.trans hv')
        exact ⟨rfl, hodd⟩
    | defaults hnothing _ => simp [hnothing.isPresent_eq_false hsource hv] at hpresent
  · rintro ⟨rfl, hodd⟩
    exact .roots hsource hv hpresent hodd

theorem jsdocEscapes_iff_of_odd {source : Value}
    (hsource : Value.lookup? "source".toList table = some source)
    (hpresent : source.isPresent = true) (hodd : ∀ es, source ≠ .map es) :
    JsdocEscapes vars disk base table e ↔ e = .noMember := by
  constructor
  · intro hescapes
    cases hescapes with
    | source _ _ _ => rfl
    | roots hsource' _ _ _ =>
        exact absurd (Option.some.inj (hsource.symm.trans hsource')) (hodd _)
    | defaults hnothing _ =>
        obtain ⟨es, rfl, -⟩ := hnothing _ hsource hpresent
        exact absurd rfl (hodd es)
  · rintro rfl
    exact .source hsource hpresent hodd

theorem meets_ofJsdoc [Parsers] (h : IsThere disk file) :
    (ofJsdoc vars (.still disk) file).Meets () fun r _ => ∀ e, e.Escapes r ↔
      FileEscapes disk file (JsdocEscapes vars disk (directoryOf disk file)) e := by
  unfold ofJsdoc
  refine meets_readTable_bind h fun table => ?_
  have houtcome := includeOutcome_jsdocInclude table
  apply Op.meets_see_bind
  generalize jsdocInclude table = included at houtcome
  cases houtcome with
  | odd hsource hpresent hodd =>
      refine Op.meets_fail fun e => ?_
      rw [jsdocEscapes_iff_of_odd hsource hpresent hodd]
      exact Failure.escapes_error_iff id
  | nothing hnothing habsent =>
      refine Op.meets_ofExcept_bind (fun why h => nomatch h) fun v hv => ?_
      obtain rfl := Except.ok.inj hv
      rw [if_neg (by simp [habsent])]
      exact Op.meets_ofExcept fun e => by rw [hnothing.jsdocEscapes_iff, escapes_defaults_iff]
  | roots hsource hv' hpresent =>
      refine Op.meets_ofExcept_bind (fun why h => nomatch h) fun v hv => ?_
      obtain rfl := Except.ok.inj hv
      rw [if_pos hpresent]
      refine Op.meets_ofExcept fun e => ?_
      rw [jsdocEscapes_iff_of_roots hsource hv' hpresent,
        (tableOutcome_ofTable disk.cwdPath (directoryOf disk file) _).escapes_iff,
        lookup?_rootsKey]
      simp

end Settings

end DocRefs
