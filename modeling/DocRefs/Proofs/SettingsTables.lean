import Mathlib
import DocRefs.Settings.Load

/-!
# Settings from a table

A failure escapes when it is not reported as one of the configuration. Of a table only the source
roots decide whether settings can be made of it: they are refused, or they are odd in a way that
escapes, or they are listed. Defaults fail only on a variable of digits that is no number.
-/

namespace DocRefs

/-- Whether a failure is reported as one of the configuration. -/
def Failure.IsConfiguration : Failure → Prop
  | .configuration _ _ => True
  | _ => False

/-- An answer is this failure, and it is not reported as one of the configuration. -/
def Failure.Escapes {α : Type} (e : Failure) (r : Except Failure α) : Prop :=
  r = .error e ∧ ¬e.IsConfiguration

namespace Failure

variable {α : Type} {e : Failure}

@[simp] theorem not_escapes_ok (a : α) : ¬e.Escapes (.ok a : Except Failure α) := by
  simp [Escapes]

@[simp] theorem not_escapes_configuration (problem : ConfigProblem) (file : Option Path) :
    ¬e.Escapes (.error (.configuration problem file) : Except Failure α) := by
  rintro ⟨h, hnot⟩
  obtain rfl := Except.error.inj h
  exact hnot trivial

/-- A failure that is none of the configuration escapes as itself. -/
theorem escapes_error_iff {e' : Failure} (h : ¬e'.IsConfiguration) :
    e.Escapes (.error e' : Except Failure α) ↔ e = e' := by
  constructor
  · rintro ⟨heq, -⟩
    exact (Except.error.inj heq).symm
  · rintro rfl
    exact ⟨rfl, h⟩

end Failure

/-! ## Numbers from the environment -/

namespace Environment

variable {vars : Variables} {e : Failure}

/-- A variable holds digits only and is still no number: there are too many, or one of them is no
decimal digit. -/
def BadNumber (vars : Variables) (name : String) : Prop :=
  ∃ value, value? vars name = some value ∧ value ≠ [] ∧ (∀ c ∈ value, Text.isDigit c = true) ∧
    (digitLimit < value.length ∨ Text.decimal? value = none)

/-- One of the two numbers of the environment is bad. -/
def BadNumbers (vars : Variables) : Prop :=
  BadNumber vars "TYPEREF_LOG_MAX_BYTES" ∨ BadNumber vars "TYPEREF_LOG_BACKUPS"

theorem number_eq_error_iff {name : String} {default : Nat} :
    number vars name default = .error e ↔ e = .badValue ∧ BadNumber vars name := by
  unfold number BadNumber
  cases value? vars name with
  | none => simp
  | some value =>
      by_cases hdigits : value ≠ [] ∧ ∀ c ∈ value, Text.isDigit c = true
      · have hread : (value.isEmpty || !value.all Text.isDigit) = false := by
          simpa [List.isEmpty_iff] using hdigits
        simp only [Option.getD_some, hread, Bool.false_eq_true, if_false, Option.some.injEq,
          exists_eq_left']
        rw [and_iff_right hdigits.1, and_iff_right hdigits.2]
        split
        next hlong =>
          simp only [Except.error.injEq, hlong, true_or, and_true]
          exact eq_comm
        next hshort =>
          simp only [hshort, false_or]
          cases Text.decimal? value with
          | none =>
              simp only [Option.elim_none, Except.error.injEq, and_true]
              exact eq_comm
          | some n => simp
      · have hdefault : (value.isEmpty || !value.all Text.isDigit) = true := by
          by_contra hnot
          exact hdigits (by simpa [List.isEmpty_iff] using hnot)
        simp only [Option.getD_some, hdefault, if_true, reduceCtorEq, false_iff, not_and]
        rintro - ⟨other, heq, hne, hall, -⟩
        obtain rfl := Option.some.inj heq
        exact hdigits ⟨hne, hall⟩

theorem ofVariables_eq_error_iff :
    ofVariables vars = .error e ↔ e = .badValue ∧ BadNumbers vars := by
  have hgood : ∀ {name : String} {default n : Nat}, number vars name default = .ok n →
      ¬BadNumber vars name := by
    intro name default n hn hbad
    have hfails : number vars name default = .error .badValue :=
      number_eq_error_iff.mpr ⟨rfl, hbad⟩
    simp [hn] at hfails
  unfold ofVariables BadNumbers
  cases hmax : number vars "TYPEREF_LOG_MAX_BYTES" defaultMaxBytes with
  | error why =>
      obtain ⟨rfl, hbad⟩ := number_eq_error_iff.mp hmax
      simp [Bind.bind, Except.bind, hbad, eq_comm]
  | ok maxBytes =>
      cases hbackups : number vars "TYPEREF_LOG_BACKUPS" defaultBackups with
      | error why =>
          obtain ⟨rfl, hbad⟩ := number_eq_error_iff.mp hbackups
          simp [Bind.bind, Except.bind, hbad, eq_comm]
      | ok backups =>
          simp [Bind.bind, Except.bind, Pure.pure, Except.pure, hgood hmax, hgood hbackups]

end Environment

/-! ## Settings from a table -/

namespace Value

theorem beq_text_iff {v : Value} {t : Text} : (v == .text t) = true ↔ v = .text t := by
  cases v with
  | text s =>
      change (s == t) = true ↔ _
      rw [beq_iff_eq, Value.text.injEq]
  | _ => simp [BEq.beq, beq]

/-- A key is the same as a text exactly when it is that text. -/
theorem sameKey_text (v : Value) (t : Text) : sameKey v (.text t) = (v == .text t) := by
  cases v with
  | real x => cases x <;> rfl
  | _ => rfl

theorem lookup?_nil (key : Text) : lookup? key [] = none := rfl

theorem lookup?_insert (key : Text) (v : Value) (entries : List (Value × Value)) :
    lookup? key (insert (.text key) v entries) = some v := by
  unfold lookup?
  induction entries with
  | nil => simp [insert, beq_text_iff]
  | cons e entries ih =>
      obtain ⟨k, w⟩ := e
      rw [insert, sameKey_text]
      split
      next hsame => simp [hsame]
      next hdiff => simpa [hdiff] using ih

theorem lookup?_insert_of_ne {key other : Text} (h : other ≠ key) (v : Value)
    (entries : List (Value × Value)) :
    lookup? other (insert (.text key) v entries) = lookup? other entries := by
  have hkey : (text key == text other) = false := by
    rw [Bool.eq_false_iff, ne_eq, beq_text_iff, text.injEq]
    exact h.symm
  unfold lookup?
  induction entries with
  | nil => simp [insert, hkey]
  | cons e entries ih =>
      obtain ⟨k, w⟩ := e
      rw [insert, sameKey_text]
      split
      next hsame =>
        obtain rfl := beq_text_iff.mp hsame
        simp [hkey]
      next hdiff =>
        rw [List.find?_cons, List.find?_cons]
        split
        · rfl
        · exact ih

/-- The keys of a table after an insertion. -/
theorem fst_mem_insert {key v : Value} {entries : List (Value × Value)} {e : Value × Value}
    (h : e ∈ insert key v entries) : e.1 = key ∨ ∃ e' ∈ entries, e.1 = e'.1 := by
  induction entries with
  | nil =>
      obtain rfl : e = (key, v) := by simpa [insert] using h
      exact .inl rfl
  | cons first entries ih =>
      rw [insert] at h
      split at h
      · rcases List.mem_cons.mp h with rfl | h
        · exact .inr ⟨first, by simp, rfl⟩
        · exact .inr ⟨e, by simp [h], rfl⟩
      · rcases List.mem_cons.mp h with rfl | h
        · exact .inr ⟨_, List.mem_cons_self, rfl⟩
        · refine (ih h).imp_right ?_
          rintro ⟨e', he', heq⟩
          exact ⟨e', by simp [he'], heq⟩

/-- Dropping entries of other keys changes nothing under a key. -/
theorem lookup?_filter {key : Text} {keep : Value × Value → Bool}
    (h : ∀ e : Value × Value, e.1 = .text key → keep e = true) (entries : List (Value × Value)) :
    lookup? key (entries.filter keep) = lookup? key entries := by
  unfold lookup?
  induction entries with
  | nil => rfl
  | cons e entries ih =>
      rw [List.filter_cons]
      by_cases hkey : (e.1 == text key) = true
      · rw [if_pos (h e (beq_text_iff.mp hkey))]
        simp [hkey]
      · split
        · simpa [hkey] using ih
        · simpa [hkey] using ih

end Value

namespace Settings

variable {cwd : Path} {base : Route} {table : List (Value × Value)} {e : Failure}

/-- Texts are taken from values one by one, and the first one that is no text is a failure. -/
theorem mapM_text (f : Text → Text) (vs : List Value) :
    (∃ ts : List Text, vs = ts.map .text ∧ (vs.mapM fun r =>
      r.text?.elim (.error .wrongKind) fun t => .ok (f t) : Except Failure (List Text)) =
        .ok (ts.map f)) ∨
    (∃ v ∈ vs, v.text? = none) ∧ (vs.mapM fun r =>
      r.text?.elim (.error .wrongKind) fun t => .ok (f t) : Except Failure (List Text)) =
        .error .wrongKind := by
  induction vs with
  | nil => exact .inl ⟨[], rfl, rfl⟩
  | cons v vs ih =>
      rw [List.mapM_cons]
      cases htext : v.text? with
      | none => exact .inr ⟨⟨v, by simp, htext⟩, by simp [Bind.bind, Except.bind]⟩
      | some t =>
          have hv : v = .text t := by
            cases v <;> simp [Value.text?] at htext
            rw [htext]
          rcases ih with ⟨ts, rfl, hts⟩ | ⟨⟨w, hw, hnone⟩, hfails⟩
          · refine .inl ⟨t :: ts, by simp [hv], ?_⟩
            simp [hts, Bind.bind, Except.bind, Pure.pure, Except.pure]
          · refine .inr ⟨⟨w, by simp [hw], hnone⟩, ?_⟩
            simp [hfails, Bind.bind, Except.bind]

/-- Source roots that nothing can be made of, though they are not refused: none at all, or a list
with a member that is no text. -/
inductive OddRoots : Value → Prop
  | null : OddRoots .null
  | member {vs : List Value} {v : Value} (hv : v ∈ vs) (h : v.text? = none) : OddRoots (.list vs)

theorem not_oddRoots_texts (ts : List Text) : ¬OddRoots (.texts ts) := by
  intro h
  cases h with
  | member hv h =>
      obtain ⟨t, -, rfl⟩ := List.mem_map.mp hv
      simp [Value.text?] at h

/-- What settings from a table come to, by what the table has for the source roots. -/
inductive TableOutcome : Option Value → Except Failure Settings → Prop
  | absent {s : Settings} (h : s.roots = []) : TableOutcome none (.ok s)
  | one {t : Text} {s : Settings} (h : s.roots ≠ []) : TableOutcome (some (.text t)) (.ok s)
  | listed {vs : List Value} {s : Settings} (htexts : ¬OddRoots (.list vs))
      (h : s.roots = [] ↔ vs = []) : TableOutcome (some (.list vs)) (.ok s)
  | odd {v : Value} (h : OddRoots v) : TableOutcome (some v) (.error .wrongKind)
  | refused {v : Value} {problem : ConfigProblem} (hodd : ¬OddRoots v)
      (hlist : ∀ vs, v ≠ .list vs) :
      TableOutcome (some v) (.error (.configuration problem none))

/-- The entries of a table that settings know. -/
def known (table : List (Value × Value)) : List (Value × Value) :=
  table.filter fun e => e.1.text?.any keys.contains

theorem lookup?_known {key : Text} (hkey : key ∈ keys) (table : List (Value × Value)) :
    Value.lookup? key (known table) = Value.lookup? key table := by
  refine Value.lookup?_filter (fun e he => ?_) table
  rw [he]
  simpa [Value.text?] using hkey

theorem key_of_mem_known {entry : Value × Value} (h : entry ∈ known table) :
    entry.1.text?.any keys.contains = true :=
  (List.mem_filter.mp h).2

theorem key_of_mem_insert {v : Value} {entry : Value × Value}
    (h : entry ∈ Value.insert (.text rootsKey) v (known table)) :
    entry.1.text?.any keys.contains = true := by
  rcases Value.fst_mem_insert h with heq | ⟨entry', hentry', heq⟩
  · rw [heq]
    rfl
  · rw [heq]
    exact key_of_mem_known hentry'

/-- No key is unknown when all are known, in the form that settings from a table ask for it. -/
theorem any_unknown_eq_false {fields : List (Value × Value)}
    (hkeys : ∀ e ∈ fields, e.1.text?.any keys.contains = true) :
    fields.any (fun e => !(e.1.text?.any keys.contains)) = false := by
  simpa using hkeys

/-- Settings with these roots, and what a table has for the rest. -/
def withRoots (roots : List Path) (table : List (Value × Value)) : Settings where
  roots := roots
  extensions := (Value.lookup? extensionsKey table).getD (.texts defaultExtensions)
  exclude := (Value.lookup? excludeKey table).getD (.texts defaultExclude)
  encoding := (Value.lookup? encodingKey table).getD (.text "utf-8".toList)

/-- Settings from a table of known keys, when its source roots can be listed. -/
theorem ofFields_eq (cwd : Path) {fields : List (Value × Value)}
    (hkeys : ∀ e ∈ fields, e.1.text?.any keys.contains = true) {roots : List Path}
    (hroots : rootPaths ((Value.lookup? rootsKey fields).getD (.list [])) = .ok roots) :
    ofFields cwd fields = .ok (withRoots (roots.map (Path.normalize cwd)) fields) := by
  unfold ofFields
  rw [any_unknown_eq_false hkeys, hroots]
  rfl

theorem rootPaths_texts (ts : List Text) : rootPaths (.texts ts) = .ok ts := by
  rcases mapM_text id (ts.map .text) with ⟨us, heq, hus⟩ | ⟨⟨v, hv, hnone⟩, -⟩
  · have hsame : ts = us := List.map_injective_iff.mpr (fun _ _ => Value.text.inj) heq
    rw [List.map_id, ← hsame] at hus
    exact hus
  · obtain ⟨t, -, rfl⟩ := List.mem_map.mp hv
    simp [Value.text?] at hnone

/-- Roots that are listed replace those of the table. -/
theorem ofFields_insert (cwd : Path) (table : List (Value × Value)) (roots : List Path) :
    ofFields cwd (Value.insert (.text rootsKey) (.texts roots) (known table)) =
      .ok (withRoots (roots.map (Path.normalize cwd)) table) := by
  have hothers : ∀ key ∈ keys, key ≠ rootsKey → Value.lookup? key
      (Value.insert (.text rootsKey) (.texts roots) (known table)) = Value.lookup? key table := by
    intro key hkey hne
    rw [Value.lookup?_insert_of_ne hne, lookup?_known hkey]
  have hroots : rootPaths ((Value.lookup? rootsKey
      (Value.insert (.text rootsKey) (.texts roots) (known table))).getD (.list [])) =
      .ok roots := by
    rw [Value.lookup?_insert]
    exact rootPaths_texts roots
  rw [ofFields_eq cwd (fun e he => key_of_mem_insert he) hroots, withRoots, withRoots,
    hothers extensionsKey (by decide) (by decide), hothers excludeKey (by decide) (by decide),
    hothers encodingKey (by decide) (by decide)]

/-- Roots that are null pass the check of the table and fail when they are listed. -/
theorem ofFields_known_of_null (h : Value.lookup? rootsKey table = some .null) :
    ofFields cwd (known table) = .error .wrongKind := by
  unfold ofFields
  rw [any_unknown_eq_false fun e he => key_of_mem_known he, lookup?_known (by decide), h]
  rfl

theorem tableOutcome_ofTable (cwd : Path) (base : Route) (table : List (Value × Value)) :
    TableOutcome (Value.lookup? rootsKey table) (ofTable cwd base table) := by
  have hknown : table.filter (fun e => e.1.text?.any keys.contains) = known table := rfl
  unfold ofTable
  dsimp only
  rw [hknown, lookup?_known (by decide)]
  cases hv : Value.lookup? rootsKey table with
  | none =>
      have hnone : rootPaths ((Value.lookup? rootsKey (known table)).getD (.list [])) = .ok [] := by
        rw [lookup?_known (by decide), hv]
        rfl
      rw [ofFields_eq cwd (fun e he => key_of_mem_known he) hnone]
      exact .absent rfl
  | some v =>
      cases v with
      | null =>
          rw [ofFields_known_of_null hv]
          exact .odd .null
      | text t =>
          simp only [rootsFrom, Bind.bind, Except.bind]
          rw [ofFields_insert]
          exact .one (by simp [withRoots])
      | list vs =>
          simp only [rootsFrom, Bind.bind, Except.bind]
          rcases mapM_text (fun t => (base.child t).toPath) vs with
            ⟨ts, rfl, hts⟩ | ⟨⟨v, hv, hnone⟩, hfails⟩
          · simp only [hts, ofFields_insert]
            exact .listed (not_oddRoots_texts ts) (by simp [withRoots])
          · rw [hfails]
            exact .odd (.member hv hnone)
      | _ => exact .refused (by rintro ⟨⟩) (by simp)

/-- The roots of a table that has nothing else. -/
theorem lookup?_rootsKey (v : Value) : Value.lookup? rootsKey [(.text rootsKey, v)] = some v := by
  simp [Value.lookup?, Value.beq_text_iff]

namespace TableOutcome

variable {v? : Option Value} {r : Except Failure Settings} {s : Settings}

theorem escapes_iff (h : TableOutcome v? r) :
    e.Escapes r ↔ e = .wrongKind ∧ ∃ v, v? = some v ∧ OddRoots v := by
  cases h with
  | absent _ => simp
  | one _ => simpa using fun _ h => nomatch h
  | listed htexts _ => simpa using fun _ => htexts
  | odd h => simpa [h] using Failure.escapes_error_iff id
  | refused hodd _ => simpa using fun _ => hodd

theorem roots_eq_nil_iff (h : TableOutcome v? (.ok s)) :
    s.roots = [] ↔ v? = none ∨ v? = some (.list []) := by
  cases h with
  | absent h => simpa using h
  | one h => simpa using h
  | listed _ h => simpa using h

/-- Settings fail only when some roots are listed. -/
theorem not_nil_of_error {why : Failure} (h : TableOutcome v? (.error why)) :
    ¬(v? = none ∨ v? = some (.list [])) := by
  cases h with
  | odd h =>
      cases h with
      | null => simp
      | member hv _ =>
          rintro (heq | heq)
          · simp at heq
          · obtain rfl := Value.list.inj (Option.some.inj heq)
            simp at hv
  | refused _ hlist => simpa using hlist []

theorem exists_of_texts {ts : List Text} (h : TableOutcome (some (.texts ts)) r) :
    ∃ s, r = .ok s := by
  generalize hvs : Value.texts ts = v at h
  cases h with
  | one h => exact ⟨_, rfl⟩
  | listed _ h => exact ⟨_, rfl⟩
  | odd h => exact absurd (hvs ▸ h) (not_oddRoots_texts ts)
  | refused _ hlist => exact absurd hvs.symm (hlist _)

end TableOutcome

/-! ## Defaults -/

variable {vars : Variables} {disk : Disk} {project file : Route}

/-- Looking for an entry fails only when its path, or a name in it, is too long. -/
theorem leadsTo_eq_error_iff {test : Entry → Bool} {p : Path} : leadsTo test disk p = .error e ↔
    e = .disk .nameTooLong ∧ disk.entry p = .error .nameTooLong := by
  unfold leadsTo
  cases disk.entry p with
  | ok entry => simp
  | error why => cases why <;> simp [eq_comm]

/-- Escapes of the defaults of a directory. -/
inductive DefaultsEscapes (vars : Variables) (disk : Disk) (project : Route) : Failure → Prop
  | number (h : Environment.BadNumbers vars) : DefaultsEscapes vars disk project .badValue
  /-- Without roots from the environment the directory `src` is looked for. -/
  | directory {env : Environment} (henv : Environment.ofVariables vars = .ok env)
      (hroots : env.sourceRoots = [])
      (h : disk.entry (project.child ['s', 'r', 'c']).toPath = .error .nameTooLong) :
      DefaultsEscapes vars disk project (.disk .nameTooLong)

theorem defaultsEscapes_iff_of_error {why : Failure}
    (henv : Environment.ofVariables vars = .error why) :
    DefaultsEscapes vars disk project e ↔ why = e := by
  obtain ⟨rfl, hbad⟩ := Environment.ofVariables_eq_error_iff.mp henv
  constructor
  · intro h
    cases h with
    | number _ => rfl
    | directory henv' _ _ => cases henv.symm.trans henv'
  · rintro rfl
    exact .number hbad

theorem defaultsEscapes_iff_of_ok {env : Environment}
    (henv : Environment.ofVariables vars = .ok env) :
    DefaultsEscapes vars disk project e ↔ env.sourceRoots = [] ∧ e = .disk .nameTooLong ∧
      disk.entry (project.child ['s', 'r', 'c']).toPath = .error .nameTooLong := by
  constructor
  · intro h
    cases h with
    | number hbad => cases henv.symm.trans (Environment.ofVariables_eq_error_iff.mpr ⟨rfl, hbad⟩)
    | directory henv' hroots h =>
        obtain rfl := Except.ok.inj (henv.symm.trans henv')
        exact ⟨hroots, rfl, h⟩
  · rintro ⟨hroots, rfl, h⟩
    exact .directory henv hroots h

/-- Only a bad number, or a path that is too long, keeps the defaults from being found. -/
theorem defaults_eq_error_iff :
    defaults vars disk project = .error e ↔ DefaultsEscapes vars disk project e := by
  unfold defaults
  cases henv : Environment.ofVariables vars with
  | error why => simp [defaultsEscapes_iff_of_error henv, Bind.bind, Except.bind]
  | ok env =>
      have hlooked : leadsTo Entry.isDir disk (project.child ['s', 'r', 'c']).toPath =
          .error e ↔ _ := leadsTo_eq_error_iff
      rw [defaultsEscapes_iff_of_ok henv, ← hlooked]
      simp only [Bind.bind, Except.bind]
      split
      next hlisted =>
        have houtcome := tableOutcome_ofTable disk.cwdPath project
          [(.text rootsKey, .texts env.sourceRoots)]
        rw [lookup?_rootsKey] at houtcome
        obtain ⟨s, hs⟩ := houtcome.exists_of_texts
        have hne : env.sourceRoots ≠ [] := by simpa [List.isEmpty_iff] using hlisted
        simp [hs, hne]
      next hunlisted =>
        have hnil : env.sourceRoots = [] := by simpa [List.isEmpty_iff] using hunlisted
        rw [and_iff_right hnil]
        cases leadsTo Entry.isDir disk (project.child ['s', 'r', 'c']).toPath <;>
          simp [Pure.pure, Except.pure]

theorem escapes_defaults_iff :
    e.Escapes (defaults vars disk project) ↔ DefaultsEscapes vars disk project e := by
  rw [Failure.Escapes, defaults_eq_error_iff, and_iff_left_iff_imp]
  intro h
  cases h with
  | number _ => exact id
  | directory _ _ _ => exact id

end Settings

end DocRefs
