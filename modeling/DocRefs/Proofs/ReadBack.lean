import Mathlib
import DocRefs.Proofs.InPlace
import DocRefs.Proofs.LineEndings
import DocRefs.Proofs.ModuleReport

/-!
# Reading back what was written in place

A result that is written in place is found on the disk: every path of the result is read as its
output, the ones that changed because their text was encoded and decoded again, the others because
their files are as before. Two spellings of one file would get in the way, so the paths have one
slash at the front; and a carriage return would be read as a line feed.
-/

namespace DocRefs

namespace Path

/-- A normal path with one slash at the front leads to the names that it is made of. -/
theorem IsNormal.eq_rooted_one {p : Path} (hp : IsNormal p) (hslash : ¬['/', '/'] <+: p)
    {disk : Disk} {place : List Text} (hplace : disk.locate p = .ok place) :
    p = rooted 1 place := by
  obtain ⟨n, steps, rfl | rfl, hsteps, rfl⟩ := hp
  · obtain ⟨-, hfollow⟩ := (Disk.locate_rooted_eq_ok_iff (.inl rfl) hsteps).mp hplace
    rw [Disk.eq_append_of_follow hsteps hfollow, List.nil_append]
  · exact absurd (List.prefix_append _ _) hslash

end Path

namespace Batch

variable {disk : Disk} {settings : Settings} {r : BatchResult}

theorem nodup_changed (hnodup : (OrderedMap.keys r.outputs).Nodup) : r.changed.Nodup :=
  hnodup.sublist (List.filter_sublist.map _)

/-- The paths that changed are listed. -/
theorem mem_paths_of_mem_changed {scope : Scope} {paths : List Path} {p : Path}
    (hp : p ∈ (reportOf scope disk paths).changed) : p ∈ paths :=
  (mem_changed_reportOf.mp hp).1

/-- **Reading back.** When a run is written in place, no output holds a carriage return and all
paths have one slash at the front: the paths returned are those that changed, in strictly increasing
order; every path of the result is then read as its output; and a file at none of the changed paths
holds the bytes it held before. -/
theorem write_reads_back {files? : Option (List Path)} {written : List Path}
    (hrun : ((run (.still disk) settings files?).run ()).answer = .ok r)
    (hreturn : ∀ p t, r.outputs.get? p = some t → '\r' ∉ t)
    (hslash : ∀ p ∈ OrderedMap.keys r.outputs, ¬['/', '/'] <+: p)
    (hwrite : ((write settings r none).run disk).answer = .ok written) :
    let d := ((write settings r none).run disk).state
    (Text.Ascending written ∧ ∀ p, p ∈ written ↔ p ∈ r.changed) ∧
      (∀ p t, r.outputs.get? p = some t → d.readText settings.encoding p = .ok t) ∧
      ∀ place, Path.rooted 1 place ∉ r.changed →
        d.root.content? place = disk.root.content? place := by
  intro d
  obtain ⟨scope, paths, hscope, hready, rfl⟩ := exists_ready_of_run hrun
  let index := (endSession scope disk paths).index
  have hget : ∀ p ∈ paths, (reportOf scope disk paths).outputs.get? p =
      some (outputOf scope disk index p) := fun p hp => by
    simp only [reportOf, OrderedMap.get?_ofPairs, if_pos hp, index]
  have hrooted : ∀ p ∈ paths, ∀ {on : Disk} {place}, on.locate p = .ok place →
      p = Path.rooted 1 place := fun p hp _ _ =>
    (hready.normal p hp).eq_rooted_one (hslash p (mem_keys_outputs.mpr hp))
  obtain ⟨hwritten, hstored⟩ :=
    (meets_write settings (reportOf scope disk paths) none disk []).1 written hwrite
  rw [writeJobs_none] at hwritten hstored
  refine ⟨?_, fun p t ht => ?_, fun place hplace => ?_⟩
  · have hsorted : written = Text.sort (reportOf scope disk paths).changed := by
      rw [hwritten, List.map_map]
      refine (List.map_congr_left fun p hp => ?_).trans (List.map_id _)
      have hlisted := mem_paths_of_mem_changed (List.mem_mergeSort.mp hp)
      exact (hready.normal p hlisted).toPath_ofPath
    rw [hsorted]
    exact ⟨Text.ascending_sort (nodup_changed (OrderedMap.nodup_keys_ofPairs _)),
      fun p => List.mem_mergeSort⟩
  · have houtputs : ∀ q ∈ paths, '\r' ∉ outputOf scope disk index q := fun q hq =>
      hreturn q _ (hget q hq)
    have hapart : ∀ p ∈ paths, ∀ q ∈ paths, disk.locate p = disk.locate q → p = q := by
      intro p hp q hq hsame
      obtain ⟨place, -, hplace, -⟩ := hready.exists_place hp
      rw [hrooted p hp hplace, hrooted q hq (hsame.symm.trans hplace)]
    have hrewrote := hready.rewrote_of_write hscope hwrite houtputs hapart
    have hp : p ∈ paths := mem_keys_outputs.mp (OrderedMap.mem_keys_of_get? ht)
    rw [hget p hp] at ht
    rw [← encoding_of_scope hscope, ← Option.some.inj ht]
    exact hrewrote.listed p hp
  · refine hstored.content_eq fun job hjob hlocate => ?_
    obtain ⟨p, hp, rfl⟩ := List.mem_map.mp hjob
    have hchanged := List.mem_mergeSort.mp hp
    have hlisted := mem_paths_of_mem_changed hchanged
    dsimp only at hlocate
    rw [(hready.normal p hlisted).toPath_ofPath] at hlocate
    rw [hrooted p hlisted hlocate] at hchanged
    exact hplace hchanged

/-! ## Two texts that begin with a byte-order mark -/

/-- A text to be qualified and one to be left alone, both with a mark behind the one of the
encoding. -/
def markedDisk : Disk :=
  let file (name t : String) (rest : Dir) : Dir :=
    .file name.toList ([0xEF, 0xBB, 0xBF] ++ Encoding.encodeUtf8 ('\uFEFF' :: t.toList)) rest
  ⟨.sub ['p'] (file "a.js" "/** @module m\n @typedef \x7bobject\x7d T\n @type \x7bT\x7d */"
    (file "b.js" "é" .empty)) .empty, [['p']]⟩

/-- Settings that name the encoding with a mark. -/
def markedSettings : Settings :=
  { Settings.ofRoots markedDisk.cwdPath [['/', 'p']] with encoding := .text "utf-8-sig".toList }

def markedResult : BatchResult where
  sources := [("/p/a.js".toList,
      '\uFEFF' :: "/** @module m\n @typedef \x7bobject\x7d T\n @type \x7bT\x7d */".toList),
    ("/p/b.js".toList, '\uFEFF' :: "é".toList)]
  outputs := [("/p/a.js".toList,
      '\uFEFF' :: "/** @module m\n @typedef \x7bobject\x7d T\n @type \x7bmodule:m~T\x7d */".toList),
    ("/p/b.js".toList, '\uFEFF' :: "é".toList)]
  modules := [(['m'], ⟨["/p/a.js".toList], [['T']]⟩)]
  statistics := ⟨2, 2, 1, 0, 1⟩

set_option maxRecDepth 100000 in
theorem marked_run :
    ((run (.still markedDisk) markedSettings (some ["a.js".toList, "b.js".toList])).run ()).answer =
      .ok markedResult := by
  decide +kernel

set_option maxRecDepth 100000 in
theorem marked_write :
    ((write markedSettings markedResult none).run markedDisk).answer = .ok ["/p/a.js".toList] := by
  decide +kernel

set_option maxRecDepth 100000 in
/-- The mark of the encoding is taken off and put on, and the one of the text stays. -/
theorem marked_reads_back :
    let d := ((write markedSettings markedResult none).run markedDisk).state
    ((run (.still markedDisk) markedSettings (some ["a.js".toList, "b.js".toList])).run ()).answer =
        .ok markedResult ∧
      ((write markedSettings markedResult none).run markedDisk).answer =
        .ok ["/p/a.js".toList] ∧
      (∀ p t, markedResult.outputs.get? p = some t →
        d.readText markedSettings.encoding p = .ok t) ∧
      d.root.content? [['p'], "b.js".toList] =
        some ([0xEF, 0xBB, 0xBF] ++ Encoding.encodeUtf8 "\uFEFFé".toList) := by
  intro d
  have hreturn : ∀ e ∈ markedResult.outputs, '\r' ∉ e.2 := by decide +kernel
  obtain ⟨-, hread, hkept⟩ := write_reads_back marked_run
    (fun p t ht => hreturn (p, t) (OrderedMap.mem_of_get? ht)) (by decide +kernel) marked_write
  refine ⟨marked_run, marked_write, hread, ?_⟩
  rw [hkept _ (by decide +kernel)]
  decide +kernel

end Batch

end DocRefs
