import Mathlib
import DocRefs.Proofs.OrderIndependence
import DocRefs.Proofs.Overwriting

/-!
# Runs over all sources, and writing in place

A run without a list of files runs over the sources that the disk has under the roots. Writing its
result in place changes the files whose texts were changed, and a text without a carriage return is
read as it was written. So a listed file is afterwards read as its output, and any other path as
before, or as the output of the listed file that it leads to.
-/

namespace DocRefs

theorem Op.meets_within_bind {σ τ α β : Type} {m : Op σ α} {s : σ} {t : τ} {f : α × σ → Op τ β}
    {mid : Except Failure α → σ → Prop} {post : Except Failure β → τ → Prop} (hm : m.Meets s mid)
    (herror : ∀ e s', mid (.error e) s' → post (.error e) t)
    (hok : ∀ a s', mid (.ok a) s' → (f (a, s')).Meets t post) :
    (m.within s >>= f).Meets t post := by
  intro log
  have hmid := hm log
  rw [bind_apply, within]
  rcases hrun : m log s with ⟨answer, s', log'⟩
  rw [hrun] at hmid
  cases answer with
  | error e => exact herror e s' hmid
  | ok a => exact hok a s' hmid log'

namespace Batch

variable {scope : Scope} {disk disk' : Disk} {settings : Settings} {paths : List Path}

/-- What is reported does not depend on what was logged before. -/
theorem Ready.report_eq (h : Ready scope disk paths) {s : Session}
    (hs : Keeps scope disk ⟨s.phase, filesMet scope disk paths, linksMade scope disk paths,
      wordsMade scope disk s.index paths⟩ s) :
    ⟨OrderedMap.ofPairs (paths.map fun p => (p, sourceOf scope disk p)),
      OrderedMap.ofPairs (paths.map fun p => (p, outputOf scope disk s.index p)), s.modules,
      s.statistics⟩ = reportOf scope disk paths := by
  have hindex : s.index = (endSession scope disk paths).index := hs.index_eq h.keeps rfl
  have hmodules : s.modules = (endSession scope disk paths).modules := hs.modules_eq h.keeps rfl
  have hstatistics : s.statistics = (endSession scope disk paths).statistics := by
    have hlength := (hs.cache_perm h.keeps rfl).length_eq
    have hlinked := hs.linked.trans h.keeps.linked.symm
    have hqualified : s.qualifiedIdentifiers =
        (endSession scope disk paths).qualifiedIdentifiers := by
      rw [hs.qualified, hindex]
      exact h.keeps.qualified.symm
    rw [Session.statistics, Session.statistics, hlength, hindex, hlinked, hqualified]
  rw [reportOf, hmodules, hstatistics, hindex]

/-- A run over all sources succeeds exactly when they can be found and staged. -/
theorem run_sources_eq_ok_iff (hscope : Scope.ofSettings disk.cwdPath settings = .ok scope)
    (r : BatchResult) :
    ((run (.still disk) settings none).run ()).answer = .ok r ↔
      ∃ files, sourcesOn disk settings = .ok files ∧
        Ready scope disk (files.map scope.normalize) ∧
        r = reportOf scope disk (files.map scope.normalize) := by
  have hmeets : (run (.still disk) settings none).Meets () fun answer _ => answer = .ok r ↔
      ∃ files, sourcesOn disk settings = .ok files ∧
        Ready scope disk (files.map scope.normalize) ∧
        r = reportOf scope disk (files.map scope.normalize) := by
    unfold run
    refine (meets_discover disk settings).bind ?_ ?_
    · intro e _ he
      simp [← he]
    · intro files _ hfiles
      have hnormal : ∀ p ∈ files.map scope.normalize, Path.IsNormal p :=
        isNormal_of_mem_normalized hscope
      apply Op.meets_see_bind
      rw [hscope]
      refine Op.meets_within_bind (meets_phases hnormal) ?_ ?_
      · intro e s hs
        have hnot : ¬∀ p ∈ files.map scope.normalize, Stageable scope disk p := by
          intro hstageable
          simpa using (hs.1 hstageable).2
        refine iff_of_false (by simp) ?_
        rintro ⟨files', hfiles', hready, -⟩
        obtain rfl := Except.ok.inj (hfiles.trans hfiles')
        exact hnot hready.stageable
      · intro texts s hs
        apply Op.meets_log_bind
        apply Op.meets_pure
        have hstageable : ∀ p ∈ files.map scope.normalize, Stageable scope disk p := by
          by_contra hnot
          obtain ⟨e, he⟩ := hs.2 hnot
          simp at he
        have hready : Ready scope disk (files.map scope.normalize) := ⟨hnormal, hstageable⟩
        obtain ⟨hkeeps, htexts⟩ := hs.1 hstageable
        obtain rfl := Except.ok.inj htexts
        rw [hready.report_eq hkeeps]
        constructor
        · intro heq
          exact ⟨files, hfiles.symm, hready, (Except.ok.inj heq).symm⟩
        · rintro ⟨files', hfiles', -, rfl⟩
          obtain rfl := Except.ok.inj (hfiles.trans hfiles')
          rfl
  exact hmeets []

/-- A run that succeeds, over given files or over all sources, was ready for the paths that it
reports. -/
theorem exists_ready_of_run {files? : Option (List Path)} {r : BatchResult}
    (hrun : ((run (.still disk) settings files?).run ()).answer = .ok r) :
    ∃ scope paths, Scope.ofSettings disk.cwdPath settings = .ok scope ∧ Ready scope disk paths ∧
      r = reportOf scope disk paths := by
  cases files? with
  | some files =>
      obtain ⟨scope, hscope, -, -⟩ := (run_eq_ok_iff disk settings files r).mp hrun
      exact ⟨scope, _, hscope, ready_of_run hscope hrun⟩
  | none =>
      cases hscope : Scope.ofSettings disk.cwdPath settings with
      | ok scope =>
          obtain ⟨files, -, hready, hr⟩ := (run_sources_eq_ok_iff hscope r).mp hrun
          exact ⟨scope, _, rfl, hready, hr⟩
      | error e =>
          have hfails : (run (.still disk) settings none).Meets () fun answer _ =>
              answer ≠ .ok r := by
            unfold run
            refine (meets_discover disk settings).bind ?_ ?_
            · intro e' _ _
              simp
            · intro files _ _
              apply Op.meets_see_bind
              rw [hscope]
              exact fun _ => by simp [Op.ofExcept, Op.fail, Op.bind_apply]
          exact absurd hrun (hfails [])

theorem mem_keys_outputs {p : Path} :
    p ∈ OrderedMap.keys (reportOf scope disk paths).outputs ↔ p ∈ paths := by
  have hget := OrderedMap.get?_ofPairs paths
    (outputOf scope disk (endSession scope disk paths).index) p
  rw [reportOf]
  constructor
  · intro hp
    by_contra hnot
    rw [if_neg hnot, OrderedMap.get?_eq_none_iff] at hget
    exact hget hp
  · intro hp
    rw [if_pos hp] at hget
    exact OrderedMap.mem_keys_of_get? hget

/-- The paths that change are the listed ones whose output is not their source. -/
theorem mem_changed_reportOf {p : Path} :
    p ∈ (reportOf scope disk paths).changed ↔ p ∈ paths ∧
      outputOf scope disk (endSession scope disk paths).index p ≠ sourceOf scope disk p := by
  rw [BatchResult.mem_changed (OrderedMap.nodup_keys_ofPairs _)]
  by_cases hp : p ∈ paths
  · simp [get?_outputs_reportOf hp, get?_sources_reportOf hp, hp, eq_comm]
  · have hnone : (reportOf scope disk paths).outputs.get? p = none :=
      OrderedMap.get?_eq_none_iff.mpr (mt mem_keys_outputs.mp hp)
    simp [hnone, hp]

/-! ## Reading what was written in place -/

theorem read_congr {p q : Path} (h : disk.locate p = disk.locate q) :
    disk.read p = disk.read q := by
  unfold Disk.read Disk.entry
  rw [h]

theorem readText_congr {p q : Path} (h : disk.read (Route.ofPath p).toPath =
    disk'.read (Route.ofPath q).toPath) (encoding : Value) :
    disk.readText encoding p = disk'.readText encoding q := by
  unfold Disk.readText
  rw [h]

/-- A text without a carriage return is read as it was written. -/
theorem readText_of_written? {encoding : Value} {p : Path} {t : Text} {content : Bytes}
    (hencoding : Encoding.objection? encoding = none)
    (hread : disk.read (Route.ofPath p).toPath = .ok content)
    (hcontent : written? encoding t = some content) (ht : '\r' ∉ t) :
    disk.readText encoding p = .ok t := by
  unfold written? at hcontent
  cases hvalue : Encoding.ofValue encoding with
  | error e => simp [hvalue, Except.toOption] at hcontent
  | ok e =>
      simp only [hvalue, Except.toOption, Option.bind_some] at hcontent
      unfold Disk.readText
      simp only [hencoding, hread, hvalue, Bind.bind, Except.bind, Encoding.decode_encode hcontent,
        foldNewlines_of_notMem ht]
      rfl

theorem objection?_of_readText {encoding : Value} {p : Path} {t : Text}
    (h : disk.readText encoding p = .ok t) : Encoding.objection? encoding = none := by
  unfold Disk.readText at h
  split at h
  · simp at h
  next hnone => exact hnone

theorem cr_notMem_of_readText {encoding : Value} {p : Path} {t : Text}
    (h : disk.readText encoding p = .ok t) : '\r' ∉ t := by
  unfold Disk.readText at h
  split at h
  · simp at h
  · split at h
    · simp at h
    · cases hvalue : Encoding.ofValue encoding with
      | error e => simp [hvalue, Bind.bind, Except.bind] at h
      | ok e =>
          simp only [hvalue, Bind.bind, Except.bind] at h
          split at h
          · simp [throw, throwThe, MonadExceptOf.throw] at h
          · rw [← Except.ok.inj h]
            exact cr_notMem_foldNewlines _

theorem Ready.readText_eq (h : Ready scope disk paths) {p : Path} (hp : p ∈ paths) :
    disk.readText scope.encoding p = .ok (sourceOf scope disk p) := by
  obtain ⟨t, ht⟩ := (h.stageable p hp).1
  rw [sourceOf, ht]
  rfl

/-- The disk after the listed files were overwritten with what `output` gives for them: they are
read as their outputs, and any other path as before or as the output of a listed file, whose source
it was read as. -/
structure Rewrote (scope : Scope) (disk : Disk) (paths : List Path) (output : Path → Text)
    (disk' : Disk) : Prop where
  overwritten : ∃ content, disk.Overwritten content disk'
  listed : ∀ p ∈ paths, disk'.readText scope.encoding p = .ok (output p)
  other : ∀ p, Path.IsNormal p →
    disk'.readText scope.encoding p = disk.readText scope.encoding p ∨
      ∃ q ∈ paths, disk.readText scope.encoding p = .ok (sourceOf scope disk q) ∧
        disk'.readText scope.encoding p = .ok (output q)

theorem encoding_of_scope (hscope : Scope.ofSettings disk.cwdPath settings = .ok scope) :
    scope.encoding = settings.encoding := by
  obtain ⟨extensions, -, rfl⟩ := exists_of_scope hscope
  rfl

/-- A listed file is at a place of the disk. -/
theorem Ready.exists_place (h : Ready scope disk paths) {p : Path} (hp : p ∈ paths) :
    ∃ place old, disk.locate p = .ok place ∧ disk.root.find? place = some (.file old) := by
  obtain ⟨t, ht⟩ := (h.stageable p hp).1
  exact Disk.isFile_eq_true_iff.mp ((h.normal p hp).isFile_of_readText ht)

/-- The content at a place is what some path that leads there is written as. -/
theorem exists_of_contentAt {encoding : Value} {text : Path → Text} {place : List Text}
    {content : Bytes} (h : contentAt disk encoding text paths place = some content) :
    ∃ p ∈ paths, disk.locate p = .ok place ∧ written? encoding (text p) = some content := by
  obtain ⟨p, hp, hcontent⟩ := List.exists_of_findSome?_eq_some h
  split at hcontent
  next hplace => exact ⟨p, List.mem_reverse.mp hp, hplace, hcontent⟩
  next => simp at hcontent

/-- Where nothing is put, none of the paths leads. -/
theorem contentAt_ne_none {encoding : Value} {text : Path → Text} {place : List Text} {p : Path}
    (hp : p ∈ paths) (hplace : disk.locate p = .ok place)
    (hcontent : ∃ content, written? encoding (text p) = some content) :
    contentAt disk encoding text paths place ≠ none := by
  intro hnone
  have hp' := List.findSome?_eq_none_iff.mp hnone p (List.mem_reverse.mpr hp)
  obtain ⟨content, hcontent⟩ := hcontent
  rw [if_pos hplace, hcontent] at hp'
  simp at hp'

/-- After listed files were overwritten, a path leads to none of them and is read as before, or it
leads to one and is read as the output of that file. -/
theorem Ready.readText_cases (h : Ready scope disk paths) {output : Path → Text}
    {changed : List Path} (hlisted : ∀ p ∈ changed, p ∈ paths)
    (hwritten : ∀ p ∈ changed, ∃ content, written? scope.encoding (output p) = some content)
    (hreturn : ∀ p ∈ changed, '\r' ∉ output p)
    (hoverwritten : disk.Overwritten (contentAt disk scope.encoding output changed) disk')
    {p : Path} (hp : Path.IsNormal p) :
    (disk'.readText scope.encoding p = disk.readText scope.encoding p ∧ p ∉ changed) ∨
      ∃ q ∈ changed, disk.locate p = disk.locate q ∧
        disk'.readText scope.encoding p = .ok (output q) := by
  have hroute := hp.toPath_ofPath
  rcases hoverwritten.read_cases p with ⟨why, hold, hnew⟩ | ⟨place, old, hplace, hold, hnew⟩
  · refine .inl ⟨readText_congr (by rw [hroute, hold, hnew]) _, fun hmem => ?_⟩
    have hread := h.readText_eq (hlisted p hmem)
    unfold Disk.readText at hread
    rw [objection?_of_readText (h.readText_eq (hlisted p hmem)), hroute, hold] at hread
    simp at hread
  · cases hcontent : contentAt disk scope.encoding output changed place with
    | none =>
        rw [hcontent, Option.getD_none] at hnew
        refine .inl ⟨readText_congr (by rw [hroute, hold, hnew]) _, fun hmem => ?_⟩
        exact contentAt_ne_none hmem hplace (hwritten p hmem) hcontent
    | some content =>
        obtain ⟨q, hq, hqplace, hqcontent⟩ := exists_of_contentAt hcontent
        rw [hcontent, Option.getD_some] at hnew
        refine .inr ⟨q, hq, hplace.trans hqplace.symm, ?_⟩
        exact readText_of_written? (objection?_of_readText (h.readText_eq (hlisted q hq)))
          (by rw [hroute, hnew]) hqcontent (hreturn q hq)

/-- Overwriting the listed files that change, at places of their own. -/
theorem Ready.rewrote (h : Ready scope disk paths) {output : Path → Text} {changed : List Path}
    (hchanged : ∀ p, p ∈ changed ↔ p ∈ paths ∧ output p ≠ sourceOf scope disk p)
    (hwritten : ∀ p ∈ changed, ∃ content, written? scope.encoding (output p) = some content)
    (hreturn : ∀ p ∈ paths, '\r' ∉ output p)
    (hapart : ∀ p ∈ paths, ∀ q ∈ paths, disk.locate p = disk.locate q → p = q)
    (hoverwritten : disk.Overwritten (contentAt disk scope.encoding output changed) disk') :
    Rewrote scope disk paths output disk' := by
  have hlisted : ∀ p ∈ changed, p ∈ paths := fun p hp => ((hchanged p).mp hp).1
  have hcases := fun p (hp : Path.IsNormal p) => h.readText_cases hlisted hwritten
    (fun q hq => hreturn q (hlisted q hq)) hoverwritten hp
  refine ⟨⟨_, hoverwritten⟩, fun p hp => ?_, fun p hp => ?_⟩
  · rcases hcases p (h.normal p hp) with ⟨hsame, hnot⟩ | ⟨q, hq, hplace, hread⟩
    · have houtput : output p = sourceOf scope disk p := by
        by_contra hne
        exact hnot ((hchanged p).mpr ⟨hp, hne⟩)
      rw [hsame, houtput, h.readText_eq hp]
    · obtain rfl := hapart p hp q (hlisted q hq) hplace
      exact hread
  · rcases hcases p hp with ⟨hsame, -⟩ | ⟨q, hq, hplace, hread⟩
    · exact .inl hsame
    · refine .inr ⟨q, hlisted q hq, ?_, hread⟩
      rw [← h.readText_eq (hlisted q hq)]
      apply readText_congr
      rw [hp.toPath_ofPath, (h.normal q (hlisted q hq)).toPath_ofPath]
      exact read_congr hplace

/-- Only the texts of the paths count for what is put at a place. -/
theorem contentAt_congr {encoding : Value} {text text' : Path → Text}
    (h : ∀ p ∈ paths, text p = text' p) :
    contentAt disk encoding text paths = contentAt disk encoding text' paths := by
  funext place
  unfold contentAt
  induction paths with
  | nil => rfl
  | cons p rest ih =>
      rw [List.reverse_cons, List.findSome?_append, List.findSome?_append,
        ih fun q hq => h q (List.mem_cons_of_mem _ hq), List.findSome?_singleton,
        List.findSome?_singleton, h p List.mem_cons_self]

/-- Writing the report of a run in place overwrites the files that change with their outputs. -/
theorem Ready.overwritten_of_write (h : Ready scope disk paths)
    (hscope : Scope.ofSettings disk.cwdPath settings = .ok scope) {written : List Path}
    (hwrite : ((write settings (reportOf scope disk paths) none).run disk).answer = .ok written) :
    ∃ changed, (∀ p, p ∈ changed ↔ p ∈ (reportOf scope disk paths).changed) ∧
      (∀ p ∈ changed, ∃ content, written? scope.encoding
        (outputOf scope disk (endSession scope disk paths).index p) = some content) ∧
      disk.Overwritten (contentAt disk scope.encoding
          (outputOf scope disk (endSession scope disk paths).index) changed)
        ((write settings (reportOf scope disk paths) none).run disk).state := by
  let r := reportOf scope disk paths
  let ordered := (targets settings.roots r none).mergeSort fun a b => Text.le a.1 b.1
  have hordered : ∀ p, p ∈ ordered.map (·.1) ↔ p ∈ r.changed := by
    intro p
    simp [ordered, targets]
  have htarget : ∀ e ∈ ordered, e.1 ∈ paths ∧ e.2 = e.1 := by
    intro e he
    obtain ⟨p, hp, rfl⟩ := List.mem_map.mp (List.mem_mergeSort.mp he)
    exact ⟨(mem_changed_reportOf.mp hp).1, rfl⟩
  have htext : ∀ e ∈ ordered, (r.outputs.get? e.1).getD [] =
      outputOf scope disk (endSession scope disk paths).index e.1 := by
    intro e he
    rw [get?_outputs_reportOf (htarget e he).1, Option.getD_some]
  -- A file that is written was read, so there is nothing against the encoding.
  have hencoding : ordered ≠ [] → Encoding.objection? settings.encoding = none := by
    intro hne
    obtain ⟨e, he⟩ := List.exists_mem_of_ne_nil _ hne
    rw [← encoding_of_scope hscope]
    exact objection?_of_readText (h.readText_eq (htarget e he).1)
  have hwrites : (write settings r none).Answers disk _ _ _ :=
    (answers_writeTargets (fun p => (r.outputs.get? p).getD []) hencoding
      (fun e he => (htarget e he).2) (fun e he => h.normal e.1 (htarget e he).1)
      fun e he => h.exists_place (htarget e he).1).andThen fun _ _ hs =>
        Op.meets_log_bind (Op.answers_pure hs)
  obtain ⟨hgood, hbad⟩ := hwrites []
  have hwritten : ∀ e ∈ ordered, ∃ content,
      written? settings.encoding ((r.outputs.get? e.1).getD []) = some content := by
    by_contra hnot
    obtain ⟨e, he⟩ := hbad hnot
    exact absurd (hwrite.symm.trans he) (by simp)
  have hoverwritten := (hgood hwritten).2
  rw [← encoding_of_scope hscope] at hoverwritten hwritten
  refine ⟨ordered.map (·.1), hordered, fun p hp => ?_, ?_⟩
  · obtain ⟨e, he, rfl⟩ := List.mem_map.mp hp
    rw [← htext e he]
    exact hwritten e he
  · rw [contentAt_congr fun p hp => ?_] at hoverwritten
    · exact hoverwritten
    · obtain ⟨e, he, rfl⟩ := List.mem_map.mp hp
      exact htext e he

/-- Written in place with no carriage returns, listed files at places of their own are read as their
outputs. -/
theorem Ready.rewrote_of_write (h : Ready scope disk paths)
    (hscope : Scope.ofSettings disk.cwdPath settings = .ok scope) {written : List Path}
    (hwrite : ((write settings (reportOf scope disk paths) none).run disk).answer = .ok written)
    (hreturn : ∀ p ∈ paths, '\r' ∉ outputOf scope disk (endSession scope disk paths).index p)
    (hapart : ∀ p ∈ paths, ∀ q ∈ paths, disk.locate p = disk.locate q → p = q) :
    Rewrote scope disk paths (outputOf scope disk (endSession scope disk paths).index)
      ((write settings (reportOf scope disk paths) none).run disk).state := by
  obtain ⟨changed, hchanged, hwritten, hoverwritten⟩ := h.overwritten_of_write hscope hwrite
  exact h.rewrote (fun p => (hchanged p).trans mem_changed_reportOf) hwritten hreturn hapart
    hoverwritten

end Batch

end DocRefs
