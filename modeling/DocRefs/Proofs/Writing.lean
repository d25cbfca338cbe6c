import Mathlib
import DocRefs.Proofs.Places

/-!
# Writing texts one after the other

Writing a result is a list of jobs, each a path and the text to go there. The jobs done so far
decide what every file holds: the text of the last job that leads to it, or what it held before. A
job that fails leaves all files as they are, unless its text cannot be encoded: then its file has
already been emptied.
-/

namespace DocRefs

/-- Whether a failure shows only after the file to be written was opened and emptied. -/
def Failure.isOfEncoding : Failure → Bool
  | .unencodable => true
  | .unknownEncoding => true
  | _ => false

theorem Encoding.isOfEncoding_of_objection? {encoding : Value} {e : Failure}
    (h : objection? encoding = some e) : e.isOfEncoding = false := by
  unfold objection? at h
  split at h
  · simp at h
  · split at h
    · obtain rfl := Option.some.inj h
      rfl
    · simp at h
  · obtain rfl := Option.some.inj h
    rfl

theorem Encoding.isOfEncoding_of_ofValue {encoding : Value} {e : Failure}
    (hobjection : objection? encoding = none) (h : ofValue encoding = .error e) :
    e.isOfEncoding = true := by
  cases encoding with
  | null => simp [ofValue] at h
  | text name =>
      unfold ofValue at h
      dsimp only at h
      split at h
      · simp at h
      · obtain rfl := Except.error.inj h
        rfl
  | _ => simp [objection?] at hobjection

namespace Batch

variable {disk d d' : Disk} {encoding : Value} {jobs : List (Path × Text)} {job : Path × Text}
  {place : List Text} {content : Bytes}

/-- What writing a text to a path can do: it is refused before the file is opened, it leaves the
file empty because the text cannot be encoded, or it puts the whole text there. -/
theorem writeText_cases (encoding : Value) (p : Path) (t : Text) (d : Disk) :
    (∃ e, d.writeText encoding p t = (some e, d) ∧ e.isOfEncoding = false) ∨
      ∃ place, d.locate p = .ok place ∧
        ((∃ e d', d.writeText encoding p t = (some e, d') ∧ e.isOfEncoding = true ∧
            written? encoding t = none ∧ d.Put place [] d') ∨
          ∃ content d', d.writeText encoding p t = (none, d') ∧
            written? encoding t = some content ∧ d.Put place content d') := by
  unfold Disk.writeText
  cases hobjection : Encoding.objection? encoding with
  | some e => exact .inl ⟨e, rfl, Encoding.isOfEncoding_of_objection? hobjection⟩
  | none =>
      rcases d.write_cases p with ⟨why, hwrite⟩ | ⟨place, hplace, hwrite⟩
      · exact .inl ⟨.disk why, by simp only [hwrite], rfl⟩
      · refine .inr ⟨place, hplace, ?_⟩
        -- The file is emptied when it is opened, and only then is the text encoded.
        obtain ⟨emptied, hempty, hspoiled⟩ := hwrite []
        simp only [hempty]
        cases hvalue : Encoding.ofValue encoding with
        | error e =>
            exact .inl ⟨e, emptied, rfl, Encoding.isOfEncoding_of_ofValue hobjection hvalue,
              written?_of_error hvalue t, hspoiled⟩
        | ok enc =>
            rw [written?_of_ofValue hvalue]
            cases hencode : enc.encode t with
            | none => exact .inl ⟨.unencodable, emptied, by simp only [hencode], rfl, rfl, hspoiled⟩
            | some content =>
                obtain ⟨full, hfull, hput⟩ := hwrite content
                exact .inr ⟨content, full, by simp only [hencode, hfull], rfl, hput⟩

/-- Writing one text: it goes whole to the place where its path leads, or nothing but directories is
made, or the file there is emptied because its text cannot be encoded. -/
theorem meets_writeTarget (encoding : Value) (target : Path) (t : Text) (d : Disk) :
    (writeTarget encoding target t).Meets d fun r d' =>
      (∀ p, r = .ok p → p = (Route.ofPath target).toPath ∧
        ∃ place content, d'.locate (Route.ofPath target).toPath = .ok place ∧
          written? encoding t = some content ∧ d.Put place content d') ∧
      ∀ e, r = .error e → (e.isOfEncoding = false ∧ d.Widened d') ∨
        (e.isOfEncoding = true ∧ written? encoding t = none ∧
          ∃ place, d'.locate (Route.ofPath target).toPath = .ok place ∧ d.Put place [] d') := by
  intro log
  have hwidened := Disk.widened_makeDirs (Route.ofPath target).parent.steps.length d
    (Route.ofPath target).parent
  unfold writeTarget Disk.makePath
  dsimp only
  split
  next why d₁ hmake =>
    rw [hmake] at hwidened
    refine ⟨fun p hp => by simp at hp, fun e he => .inl ?_⟩
    obtain rfl := Except.error.inj he
    exact ⟨rfl, hwidened⟩
  next d₁ hmake =>
    rw [hmake] at hwidened
    rcases writeText_cases encoding (Route.ofPath target).toPath t d₁ with
      ⟨e, hwrite, he⟩ | ⟨place, hplace, ⟨e, d₂, hwrite, he, hnone, hput⟩ |
        ⟨content, d₂, hwrite, hcontent, hput⟩⟩
    · simp only [hwrite]
      refine ⟨fun p hp => by simp at hp, fun e' he' => .inl ?_⟩
      obtain rfl := Except.error.inj he'
      exact ⟨he, hwidened⟩
    · simp only [hwrite]
      refine ⟨fun p hp => by simp at hp, fun e' he' => .inr ?_⟩
      obtain rfl := Except.error.inj he'
      exact ⟨he, hnone, place, hput.grew.locate_eq hplace, hwidened.put hput⟩
    · simp only [hwrite]
      refine ⟨fun p hp => ?_, fun e he => by simp at he⟩
      exact ⟨(Except.ok.inj hp).symm, place, content, hput.grew.locate_eq hplace, hcontent,
        hwidened.put hput⟩

/-! ## Many texts -/

/-- What the jobs of a list put at a place, where the last one wins. -/
def lastAt (d : Disk) (encoding : Value) (jobs : List (Path × Text)) (place : List Text) :
    Option Bytes :=
  jobs.reverse.findSome? fun job =>
    if d.locate job.1 = .ok place then written? encoding job.2 else none

/-- Every job leads somewhere and can be encoded. -/
def Placed (d : Disk) (encoding : Value) (jobs : List (Path × Text)) : Prop :=
  ∀ job ∈ jobs, ∃ place content, d.locate job.1 = .ok place ∧ written? encoding job.2 = some content

theorem Placed.grew (h : Placed d encoding jobs) (hgrew : d.Grew d') : Placed d' encoding jobs := by
  intro job hjob
  obtain ⟨place, content, hplace, hcontent⟩ := h job hjob
  exact ⟨place, content, hgrew.locate_eq hplace, hcontent⟩

/-- Jobs that led somewhere lead there still, so they put the same things there. -/
theorem Placed.lastAt_eq (h : Placed d encoding jobs) (hgrew : d.Grew d') :
    lastAt d' encoding jobs = lastAt d encoding jobs := by
  funext place
  unfold lastAt
  rw [← List.head?_filterMap, ← List.head?_filterMap]
  refine congrArg List.head? (List.filterMap_congr fun job hjob => ?_)
  obtain ⟨q, content, hq, -⟩ := h job (List.mem_reverse.mp hjob)
  rw [hq, hgrew.locate_eq hq]

theorem lastAt_append (hplace : d.locate job.1 = .ok place)
    (hcontent : written? encoding job.2 = some content) (jobs : List (Path × Text))
    (other : List Text) :
    lastAt d encoding (jobs ++ [job]) other =
      if place = other then some content else lastAt d encoding jobs other := by
  rw [lastAt, List.reverse_append, List.reverse_singleton, List.singleton_append,
    List.findSome?_cons, hplace, hcontent]
  by_cases hother : place = other
  · simp [hother]
  · rw [if_neg (fun heq => hother (Except.ok.inj heq)), if_neg hother]
    rfl

/-- The jobs are done: every file holds the text of the last job that leads to it, or what it held
before. -/
structure Stored (disk : Disk) (encoding : Value) (jobs : List (Path × Text)) (d : Disk) :
    Prop where
  grew : disk.Grew d
  placed : Placed d encoding jobs
  content : ∀ place, d.root.content? place =
    (lastAt d encoding jobs place).or (disk.root.content? place)

/-- The jobs in front of one are done, and the file where that one leads is empty. -/
structure Spoiled (disk : Disk) (encoding : Value) (done : List (Path × Text))
    (job : Path × Text) (d : Disk) : Prop where
  unwritable : written? encoding job.2 = none
  content : ∃ place, d.locate job.1 = .ok place ∧ ∀ other, d.root.content? other =
    if place = other then some []
    else (lastAt d encoding done other).or (disk.root.content? other)

theorem stored_nil (disk : Disk) (encoding : Value) : Stored disk encoding [] disk :=
  ⟨.refl disk, by simp [Placed], fun _ => rfl⟩

namespace Stored

theorem widened (h : Stored disk encoding jobs d) (hwidened : d.Widened d') :
    Stored disk encoding jobs d' where
  grew := h.grew.trans hwidened.grew
  placed := h.placed.grew hwidened.grew
  content := fun place => by
    rw [hwidened.content, h.content, h.placed.lastAt_eq hwidened.grew]

theorem put (h : Stored disk encoding jobs d) (hput : d.Put place content d')
    (hplace : d'.locate job.1 = .ok place) (hcontent : written? encoding job.2 = some content) :
    Stored disk encoding (jobs ++ [job]) d' where
  grew := h.grew.trans hput.grew
  placed := by
    intro job' hjob'
    rcases List.mem_append.mp hjob' with hjob' | hjob'
    · exact h.placed.grew hput.grew job' hjob'
    · obtain rfl := List.mem_singleton.mp hjob'
      exact ⟨place, content, hplace, hcontent⟩
  content := fun other => by
    rw [hput.content, lastAt_append hplace hcontent, h.placed.lastAt_eq hput.grew, h.content]
    split <;> rfl

theorem spoiled (h : Stored disk encoding jobs d) (hput : d.Put place [] d')
    (hplace : d'.locate job.1 = .ok place) (hjob : written? encoding job.2 = none) :
    Spoiled disk encoding jobs job d' where
  unwritable := hjob
  content := ⟨place, hplace, fun other => by
    rw [hput.content, h.placed.lastAt_eq hput.grew, h.content]⟩

end Stored

/-- The jobs of writing a result, in order. -/
def writeJobs (settings : Settings) (result : BatchResult) (out : Option Path) :
    List (Path × Text) :=
  ((targets settings.roots result out).mergeSort fun a b => Text.le a.1 b.1).map fun e =>
    ((Route.ofPath e.2).toPath, (result.outputs.get? e.1).getD [])

/-- Targets are sorted by the paths that they are for. -/
theorem mergeSort_targets (paths : List Path) (target : Path → Path) :
    ((paths.map fun p => (p, target p)).mergeSort fun a b => Text.le a.1 b.1) =
      (Text.sort paths).map fun p => (p, target p) := by
  symm
  apply List.map_mergeSort
  intro a _ b _
  rfl

/-- What a list of jobs has left when it ended at `job` with the failure `e`. -/
def Stopped (disk : Disk) (encoding : Value) (done : List (Path × Text)) (job : Path × Text)
    (e : Failure) (d : Disk) : Prop :=
  (e.isOfEncoding = false ∧ Stored disk encoding done d) ∨
    (e.isOfEncoding = true ∧ Spoiled disk encoding done job d)

/-- One more job is done, or it is the one that stops the list. -/
theorem Stored.writeTarget (h : Stored disk encoding jobs d) (target : Path) (t : Text) :
    (writeTarget encoding target t).Meets d fun r d' =>
      (∀ p, r = .ok p → p = (Route.ofPath target).toPath ∧
        Stored disk encoding (jobs ++ [((Route.ofPath target).toPath, t)]) d') ∧
      ∀ e, r = .error e → Stopped disk encoding jobs ((Route.ofPath target).toPath, t) e d' := by
  refine (meets_writeTarget encoding target t d).mono fun r d' hr => ?_
  refine ⟨fun p hp => ?_, fun e he => ?_⟩
  · obtain ⟨rfl, place, content, hplace, hcontent, hput⟩ := hr.1 p hp
    exact ⟨rfl, h.put hput hplace hcontent⟩
  · rcases hr.2 e he with ⟨hkind, hwidened⟩ | ⟨hkind, hjob, place, hplace, hput⟩
    · exact .inl ⟨hkind, h.widened hwidened⟩
    · exact .inr ⟨hkind, h.spoiled hput hplace hjob⟩

/-- Writing a result does all of its jobs, or stops at one of them. -/
theorem meets_write (settings : Settings) (result : BatchResult) (out : Option Path) (disk : Disk) :
    (write settings result out).Meets disk fun r d =>
      (∀ written, r = .ok written → written = (writeJobs settings result out).map (·.1) ∧
        Stored disk settings.encoding (writeJobs settings result out) d) ∧
      ∀ e, r = .error e → ∃ done job rest, writeJobs settings result out = done ++ job :: rest ∧
        Stopped disk settings.encoding done job e d := by
  let toJob : Path × Path → Path × Text := fun e =>
    ((Route.ofPath e.2).toPath, (result.outputs.get? e.1).getD [])
  let ordered := (targets settings.roots result out).mergeSort fun a b => Text.le a.1 b.1
  have hcollect : (Op.collect (fun e => writeTarget settings.encoding e.2
      ((result.outputs.get? e.1).getD [])) ordered).Meets disk fun r d =>
        (∀ written, r = .ok written → written = ordered.map (fun e => (toJob e).1) ∧
          Stored disk settings.encoding (ordered.map toJob) d) ∧
        ∀ e, r = .error e → ∃ done job rest, ordered = done ++ job :: rest ∧
          Stopped disk settings.encoding (done.map toJob) (toJob job) e d := by
    -- A job finds those in front of it stored, and leaves them stored also when it fails.
    apply Op.meets_collect (fun done => Stored disk settings.encoding (done.map toJob))
      (fun done e => Stopped disk settings.encoding (done.map toJob) (toJob e))
    · intro done e d hd
      rw [List.map_append, List.map_singleton]
      exact hd.writeTarget e.2 _
    · exact stored_nil disk settings.encoding
  unfold write
  refine hcollect.bind ?_ ?_
  · intro e d hd
    refine ⟨fun written hw => by simp at hw, fun e' he' => ?_⟩
    obtain rfl := Except.error.inj he'
    obtain ⟨done, job, rest, hsplit, hstopped⟩ := hd.2 e rfl
    refine ⟨done.map toJob, toJob job, rest.map toJob, ?_, hstopped⟩
    have hjobs : writeJobs settings result out = ordered.map toJob := rfl
    rw [hjobs, hsplit, List.map_append, List.map_cons]
  · intro written d hd
    obtain ⟨rfl, hstored⟩ := hd.1 written rfl
    apply Op.meets_log_bind
    refine Op.meets_pure ⟨fun written' hw => ?_, fun e he => by simp at he⟩
    obtain rfl := Except.ok.inj hw
    rw [writeJobs, List.map_map]
    exact ⟨rfl, hstored⟩

/-! ## Files after a write that fails -/

theorem exists_of_lastAt (h : lastAt d encoding jobs place = some content) :
    ∃ job ∈ jobs, d.locate job.1 = .ok place ∧ written? encoding job.2 = some content := by
  obtain ⟨job, hjob, hcontent⟩ := List.exists_of_findSome?_eq_some h
  split at hcontent
  next hplace => exact ⟨job, List.mem_reverse.mp hjob, hplace, hcontent⟩
  next => simp at hcontent

/-- Where no job leads, a file holds what it held before. -/
theorem Stored.content_eq (h : Stored disk encoding jobs d)
    (hplace : ∀ job ∈ jobs, d.locate job.1 ≠ .ok place) :
    d.root.content? place = disk.root.content? place := by
  have hnone : lastAt d encoding jobs place = none := by
    by_contra hlast
    obtain ⟨content, hlast⟩ := Option.ne_none_iff_exists'.mp hlast
    obtain ⟨job, hjob, hlocate, -⟩ := exists_of_lastAt hlast
    exact hplace job hjob hlocate
  rw [h.content, hnone, Option.none_or]

/-- Something is put where a job leads. -/
theorem lastAt_ne_none (h : Placed d encoding jobs) (hjob : job ∈ jobs)
    (hplace : d.locate job.1 = .ok place) : lastAt d encoding jobs place ≠ none := by
  intro hnone
  obtain ⟨-, content, -, hcontent⟩ := h job hjob
  have hhere := List.findSome?_eq_none_iff.mp hnone job (List.mem_reverse.mpr hjob)
  rw [if_pos hplace, hcontent] at hhere
  simp at hhere

/-- What a text was written as stands for this text. -/
theorem exists_decode_of_written? {t : Text} (h : written? encoding t = some content) :
    ∃ e, Encoding.ofValue encoding = .ok e ∧ e.decode content = some t := by
  unfold written? at h
  cases hvalue : Encoding.ofValue encoding with
  | error why => simp [hvalue, Except.toOption] at h
  | ok e =>
      rw [hvalue] at h
      exact ⟨e, rfl, Encoding.decode_encode h⟩

/-- The file at a place holds what it held before, or the whole text of a job that leads to it. -/
def Intact (disk : Disk) (encoding : Value) (jobs : List (Path × Text)) (d : Disk)
    (place : List Text) : Prop :=
  ∃ content, d.root.content? place = some content ∧
    (disk.root.content? place = some content ∨
      ∃ job ∈ jobs, d.locate job.1 = .ok place ∧ written? encoding job.2 = some content)

/-- What the jobs done put at a place, or what was there before, is intact. -/
theorem intact_of_lastAt {done : List (Path × Text)} {old : Bytes} (hdone : done ⊆ jobs)
    (hold : disk.root.content? place = some old)
    (h : d.root.content? place = (lastAt d encoding done place).or (disk.root.content? place)) :
    Intact disk encoding jobs d place := by
  cases hlast : lastAt d encoding done place with
  | none =>
      rw [hlast, hold] at h
      exact ⟨old, h, .inl hold⟩
  | some content =>
      rw [hlast] at h
      obtain ⟨job, hjob, hplace, hcontent⟩ := exists_of_lastAt hlast
      exact ⟨content, h, .inr ⟨job, hdone hjob, hplace, hcontent⟩⟩

/-- Where the job in question leads its file is empty, and every other file is intact. -/
theorem Spoiled.intact_or {done : List (Path × Text)} {old : Bytes}
    (h : Spoiled disk encoding done job d) (hdone : done ⊆ jobs)
    (hold : disk.root.content? place = some old) :
    (d.locate job.1 = .ok place ∧ d.root.content? place = some []) ∨
      (d.locate job.1 ≠ .ok place ∧ Intact disk encoding jobs d place) := by
  obtain ⟨spoiled, hspoiled, hcontent⟩ := h.content
  by_cases heq : spoiled = place
  · subst heq
    exact .inl ⟨hspoiled, by rw [hcontent, if_pos rfl]⟩
  · refine .inr ⟨fun hplace => heq ?_, intact_of_lastAt hdone hold ?_⟩
    · exact Except.ok.inj (hspoiled.symm.trans hplace)
    · rw [hcontent, if_neg heq]

theorem intact_iff_of_empty {old : Bytes} (hold : disk.root.content? place = some old)
    (h : d.root.content? place = some []) :
    Intact disk encoding jobs d place ↔
      old = [] ∨ ∃ job ∈ jobs, d.locate job.1 = .ok place ∧ written? encoding job.2 = some [] := by
  simp [Intact, h, hold]

/-- When writing a result fails, the failure is met at one job. A file that was there is damaged
exactly when the failure is one of encoding the text of this job, the job leads to the file, the
file was not empty, and no job has the empty text for it; a damaged file is left empty. -/
theorem failed_write_damages_iff (settings : Settings) (result : BatchResult) (out : Option Path)
    (disk : Disk) {e : Failure} (h : ((write settings result out).run disk).answer = .error e) :
    let d := ((write settings result out).run disk).state
    let jobs := writeJobs settings result out
    ∃ done job rest, jobs = done ++ job :: rest ∧
      (e.isOfEncoding = true → written? settings.encoding job.2 = none) ∧
      ∀ place old, disk.root.content? place = some old →
        (¬Intact disk settings.encoding jobs d place ↔
          e.isOfEncoding = true ∧ d.locate job.1 = .ok place ∧ old ≠ [] ∧
            ∀ other ∈ jobs, d.locate other.1 = .ok place →
              written? settings.encoding other.2 ≠ some []) ∧
        (¬Intact disk settings.encoding jobs d place → d.root.content? place = some []) := by
  intro d jobs
  obtain ⟨done, job, rest, hjobs, hstopped⟩ : ∃ done job rest, jobs = done ++ job :: rest ∧
      Stopped disk settings.encoding done job e d :=
    (meets_write settings result out disk []).2 e h
  have hdone : done ⊆ jobs := by
    intro other hother
    rw [hjobs]
    exact List.mem_append_left _ hother
  refine ⟨done, job, rest, hjobs, ?_, fun place old hold => ?_⟩
  · intro hkind
    rcases hstopped with ⟨hother, -⟩ | ⟨-, hspoiled⟩
    · simp [hkind] at hother
    · exact hspoiled.unwritable
  rcases hstopped with ⟨hkind, hstored⟩ | ⟨hkind, hspoiled⟩
  · have hintact : Intact disk settings.encoding jobs d place :=
      intact_of_lastAt hdone hold (hstored.content place)
    simp [hintact, hkind]
  · rcases hspoiled.intact_or hdone hold with ⟨hplace, hempty⟩ | ⟨hplace, hintact⟩
    · refine ⟨?_, fun _ => hempty⟩
      rw [intact_iff_of_empty hold hempty]
      simp [hkind, hplace]
    · exact ⟨iff_of_false (not_not.mpr hintact) fun hboth => hplace hboth.2.1,
        fun hnot => absurd hintact hnot⟩

/-! ## A file left empty

The type is qualified with an id that comes from the name of the file, which the encoding cannot
write. -/

def cyrillicName : Text := "ж.js".toList

def cyrillicPath : Path := "/p/".toList ++ cyrillicName

def cyrillicText : Text := "/** @module\n @typedef \x7bobject\x7d T\n @type \x7bT\x7d */".toList

def cyrillicDisk : Disk :=
  ⟨.sub ['p'] (.file cyrillicName (Encoding.encodeUtf8 cyrillicText) .empty) .empty, [['p']]⟩

def narrowSettings : Settings :=
  { Settings.ofRoots ['/', 'p'] [['/', 'p']] with encoding := .text "latin-1".toList }

def cyrillicResult : BatchResult where
  sources := [(cyrillicPath, cyrillicText)]
  outputs := [(cyrillicPath,
    "/** @module\n @typedef \x7bobject\x7d T\n @type \x7bmodule:ж~T\x7d */".toList)]
  modules := [(['ж'], ⟨[cyrillicPath], [['T']]⟩)]
  statistics := ⟨1, 1, 1, 0, 1⟩

set_option maxRecDepth 100000 in
theorem cyrillic_run :
    ((run (.still cyrillicDisk) narrowSettings none).run ()).answer = .ok cyrillicResult := by
  decide +kernel

set_option maxRecDepth 100000 in
theorem cyrillic_write :
    ((write narrowSettings cyrillicResult none).run cyrillicDisk).answer =
      .error .unencodable := by
  decide +kernel

set_option maxRecDepth 100000 in
theorem cyrillic_write_damages :
    let place := [['p'], cyrillicName]
    let d := ((write narrowSettings cyrillicResult none).run cyrillicDisk).state
    ((run (.still cyrillicDisk) narrowSettings none).run ()).answer = .ok cyrillicResult ∧
      cyrillicDisk.root.content? place = some (Encoding.encodeUtf8 cyrillicText) ∧
      d.root.content? place = some [] ∧
      ¬Intact cyrillicDisk narrowSettings.encoding (writeJobs narrowSettings cyrillicResult none)
        d place := by
  intro place d
  obtain ⟨done, job, rest, hjobs, -, hfiles⟩ :=
    failed_write_damages_iff narrowSettings cyrillicResult none cyrillicDisk cyrillic_write
  have hone : writeJobs narrowSettings cyrillicResult none =
      [(cyrillicPath, (cyrillicResult.outputs.get? cyrillicPath).getD [])] := by decide +kernel
  obtain ⟨rfl, rfl, rfl⟩ : done = [] ∧
      (cyrillicPath, (cyrillicResult.outputs.get? cyrillicPath).getD []) = job ∧ rest = [] := by
    rw [hone] at hjobs
    cases done with
    | nil => simpa using hjobs
    | cons other done => simp at hjobs
  have hold : cyrillicDisk.root.content? place = some (Encoding.encodeUtf8 cyrillicText) := by
    decide +kernel
  obtain ⟨hiff, hempty⟩ := hfiles place _ hold
  have hdamaged := hiff.mpr (by decide +kernel)
  exact ⟨cyrillic_run, hold, hempty hdamaged, hdamaged⟩

end Batch

end DocRefs
