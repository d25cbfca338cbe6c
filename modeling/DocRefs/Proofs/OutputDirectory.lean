import Mathlib
import DocRefs.Proofs.InPlace
import DocRefs.Proofs.PathParts
import DocRefs.Proofs.Writing

/-!
# Writing under a directory

Under a directory every text goes to its path below the first source root that holds it. As long as
these paths are relative, all files written lie beneath the directory, and two texts go to one file
exactly when their paths below their roots are the same; the text of the path that comes last in
order is then the one that stays.
-/

namespace DocRefs

/-- A place strictly below the one where a path leads. -/
def Disk.Beneath (d : Disk) (out : Path) (place : List Text) : Prop :=
  ∃ base names, d.locate (Route.ofPath out).toPath = .ok base ∧ names ≠ [] ∧ place = base ++ names

namespace Path

/-- Absolute and collapsed, and not the root. -/
def IsNamed (p : Path) : Prop :=
  ∃ n steps, (∀ s ∈ steps, IsName s) ∧ steps ≠ [] ∧ p = rooted n steps

/-- The pieces behind a slash are the last pieces of the whole. -/
theorem splitOn_suffix {front : Path} (h : front = [] ∨ front.getLast? = some '/') (rest : Path) :
    Text.splitOn '/' rest <:+ Text.splitOn '/' (front ++ rest) := by
  rcases h with rfl | hlast
  · exact List.suffix_rfl
  · obtain ⟨init, rfl⟩ := List.getLast?_eq_some_iff.mp hlast
    rw [List.append_assoc, List.singleton_append, Text.splitOn_append_sep]
    exact List.suffix_append _ _

/-- A text whose first piece is empty is empty or begins with a slash. -/
theorem splitOn_head_ne_nil {p : Path} (hp : p ≠ []) (h : isAbsolute p = false) {ss : List Text} :
    Text.splitOn '/' p ≠ [] :: ss := by
  obtain ⟨c, t, rfl⟩ := List.exists_cons_of_ne_nil hp
  have hc : c ≠ '/' := by
    rintro rfl
    simp [isAbsolute] at h
  rw [Text.splitOn, if_neg hc]
  cases Text.splitOn '/' t <;> simp

/-- Of the pieces of a path, the last ones are names unless they begin with an empty one. -/
theorem isName_of_suffix {n : Nat} {steps : List Text} (hsteps : ∀ s ∈ steps, IsName s)
    (hne : steps ≠ []) {rest : Path} (hrelative : isAbsolute rest = false)
    (h : Text.splitOn '/' rest <:+ Text.splitOn '/' (rooted n steps)) :
    ∀ s ∈ Text.splitOn '/' rest, IsName s := by
  rw [splitOn_rooted hsteps, if_neg hne] at h
  obtain ⟨front, hfront⟩ := h
  rcases List.append_eq_append_iff.mp hfront with ⟨empties, hempty, hsplit⟩ | ⟨names, -, hsplit⟩
  · cases empties with
    | nil =>
        intro s hs
        rw [hsplit] at hs
        exact hsteps s hs
    | cons first empties =>
        have hfirst : first ∈ List.replicate n [] := by
          rw [hempty]
          simp
        obtain rfl := List.eq_of_mem_replicate hfirst
        have hrest : rest = [] := by
          by_contra hrest
          exact splitOn_head_ne_nil hrest hrelative hsplit
        subst hrest
        simp [Text.splitOn, hne] at hsplit
  · intro s hs
    rw [hsplit] at hsteps
    exact hsteps s (List.mem_append_right _ hs)

end Path

namespace Batch

variable {roots : List Path} {out p q : Path} {d : Disk} {place : List Text}

theorem splitOn_outputPath (roots : List Path) (p : Path) :
    Text.splitOn '/' (outputPath roots p) <:+ Text.splitOn '/' p := by
  unfold outputPath
  cases hbelow : FileIdentity.belowRoots? roots p with
  | some rest =>
      obtain ⟨root, -, hrest⟩ := List.exists_of_findSome?_eq_some hbelow
      have hp := Text.after?_eq_some_iff.mp hrest
      rw [Option.getD_some, hp]
      exact Path.splitOn_suffix (.inr (Path.getLast?_rootWithSlash root)) rest
  | none =>
      have hsuffix := Path.splitOn_suffix (Path.splitLast_fst_cases p) (Path.splitLast p).2
      rwa [Path.splitLast_append] at hsuffix

theorem isName_outputPath (hp : Path.IsNamed p)
    (hrelative : Path.isAbsolute (outputPath roots p) = false) :
    ∀ s ∈ Text.splitOn '/' (outputPath roots p), Path.IsName s := by
  obtain ⟨n, steps, hsteps, hne, rfl⟩ := hp
  exact Path.isName_of_suffix hsteps hne hrelative (splitOn_outputPath roots _)

/-- Where the text of a path is written under a directory. -/
def targetPath (roots : List Path) (out p : Path) : Path :=
  (Route.ofPath (Path.join out (outputPath roots p))).toPath

/-- A target is the path below the source root, seen from where the directory is. -/
theorem exists_base (hp : Path.IsNamed p)
    (hrelative : Path.isAbsolute (outputPath roots p) = false)
    (h : d.locate (targetPath roots out p) = .ok place) :
    ∃ base, d.locate (Route.ofPath out).toPath = .ok base ∧
      place = base ++ Text.splitOn '/' (outputPath roots p) := by
  have hnames := isName_outputPath hp hrelative
  have hsteps : (Route.ofPath (outputPath roots p)).steps =
      Text.splitOn '/' (outputPath roots p) :=
    List.filter_eq_self.mpr fun s hs => by simp [(hnames s hs).ne_nil, (hnames s hs).ne_here]
  have hslashes : (Route.ofPath (outputPath roots p)).slashes = 0 :=
    Path.rootSlashes_of_relative hrelative
  rw [targetPath, Route.ofPath_join, Route.child, Route.append, if_pos hslashes, hsteps] at h
  exact Disk.exists_base_of_locate (Route.isClean_ofPath out) hnames (Text.splitOn_ne_nil _ _) h

/-- A listed file is not the root. -/
theorem Ready.isNamed {scope : Scope} {disk : Disk} {paths : List Path}
    (h : Ready scope disk paths) (hp : p ∈ paths) : Path.IsNamed p := by
  obtain ⟨place, old, hplace, hold⟩ := h.exists_place hp
  obtain ⟨n, steps, hn, hsteps, rfl⟩ := h.normal p hp
  refine ⟨n, steps, hsteps, ?_, rfl⟩
  rintro rfl
  obtain ⟨-, hfollow⟩ := (Disk.locate_rooted_eq_ok_iff hn hsteps).mp hplace
  obtain rfl := Except.ok.inj hfollow
  simp [Dir.find?] at hold

/-- Jobs for paths in order: at a place where some of them lead, the last one of these decides. -/
theorem exists_last {encoding : Value} {job : Path → Path × Text} {paths : List Path}
    (hsorted : paths.Pairwise fun a b => Text.le a b = true)
    (hplaced : Placed d encoding (paths.map job)) (hp : p ∈ paths)
    (hplace : d.locate (job p).1 = .ok place) :
    ∃ q ∈ paths, d.locate (job q).1 = .ok place ∧
      (∀ other ∈ paths, d.locate (job other).1 = .ok place → Text.le other q = true) ∧
      ∃ content, written? encoding (job q).2 = some content ∧
        lastAt d encoding (paths.map job) place = some content := by
  -- The last job wins, so the list is taken apart from its end.
  induction paths using List.reverseRecOn with
  | nil => simp at hp
  | append_singleton front last ih =>
      rw [List.map_append, List.map_singleton] at hplaced ⊢
      obtain ⟨hfront, -, hlast⟩ := List.pairwise_append.mp hsorted
      obtain ⟨where', content, hwhere, hcontent⟩ := hplaced (job last) (by simp)
      rw [lastAt_append hwhere hcontent]
      by_cases heq : where' = place
      · subst heq
        refine ⟨last, by simp, hwhere, fun other hother _ => ?_, content, hcontent, if_pos rfl⟩
        rcases List.mem_append.mp hother with hother | hother
        · exact hlast other hother last (by simp)
        · rw [List.mem_singleton.mp hother]
          exact Text.le_refl last
      · have hne : d.locate (job last).1 ≠ .ok place := fun h =>
          heq (Except.ok.inj (hwhere.symm.trans h))
        have hmem : ∀ {other : Path}, other ∈ front ++ [last] →
            d.locate (job other).1 = .ok place → other ∈ front := by
          intro other hother hplace
          rcases List.mem_append.mp hother with hother | hother
          · exact hother
          · rw [List.mem_singleton.mp hother] at hplace
            exact absurd hplace hne
        obtain ⟨q, hq, hqplace, hqlast, hqcontent⟩ := ih hfront
          (fun job' hjob' => hplaced job' (List.mem_append_left _ hjob')) (hmem hp hplace)
        refine ⟨q, List.mem_append_left _ hq, hqplace, fun other hother hplace =>
          hqlast other (hmem hother hplace) hplace, ?_⟩
        rw [if_neg heq]
        exact hqcontent

/-- The jobs of writing a result under a directory. -/
theorem writeJobs_some (settings : Settings) (r : BatchResult) (out : Path) :
    writeJobs settings r (some out) = (Text.sort (OrderedMap.keys r.outputs)).map fun p =>
      (targetPath settings.roots out p, (r.outputs.get? p).getD []) := by
  rw [writeJobs, targets, mergeSort_targets, List.map_map]
  rfl

/-- A path is the first root that holds it and its path below. -/
theorem eq_append_outputPath {root : Path}
    (h : (roots.find? fun root => (Path.below? root p).isSome) = some root) :
    p = Path.rootWithSlash root ++ outputPath roots p := by
  induction roots with
  | nil => simp at h
  | cons first roots ih =>
      rw [List.find?_cons] at h
      rw [outputPath, FileIdentity.belowRoots?, List.findSome?_cons]
      cases hbelow : Path.below? first p with
      | none =>
          rw [hbelow] at h
          exact ih h
      | some rest =>
          obtain rfl : first = root := by simpa [hbelow] using h
          exact Text.after?_eq_some_iff.mp hbelow

/-- The texts of a list of paths were written under a directory, each at its path below the source
roots. -/
structure Mirrored (roots : List Path) (encoding : Value) (keys : List Path) (text : Path → Text)
    (out : Path) (disk d : Disk) : Prop where
  named : ∀ p ∈ keys, Path.IsNamed p
  relative : ∀ p ∈ keys, Path.isAbsolute (outputPath roots p) = false
  stored : Stored disk encoding ((Text.sort keys).map fun p => (targetPath roots out p, text p)) d

namespace Mirrored

variable {encoding : Value} {keys : List Path} {text : Path → Text} {disk : Disk}

theorem mem_sort : p ∈ Text.sort keys ↔ p ∈ keys := List.mem_mergeSort

/-- A target is at the path below the source roots, seen from where the directory is. -/
theorem locate_target (h : Mirrored roots encoding keys text out disk d) (hp : p ∈ keys) :
    ∃ base, d.locate (Route.ofPath out).toPath = .ok base ∧
      d.locate (targetPath roots out p) =
        .ok (base ++ Text.splitOn '/' (outputPath roots p)) := by
  obtain ⟨place, -, hplace, -⟩ := h.stored.placed _ (List.mem_map_of_mem (mem_sort.mpr hp))
  obtain ⟨base, hbase, rfl⟩ := exists_base (h.named p hp) (h.relative p hp) hplace
  exact ⟨base, hbase, hplace⟩

theorem beneath (h : Mirrored roots encoding keys text out disk d) (hp : p ∈ keys) :
    ∃ place, d.locate (targetPath roots out p) = .ok place ∧ d.Beneath out place := by
  obtain ⟨base, hbase, hplace⟩ := h.locate_target hp
  exact ⟨_, hplace, base, _, hbase, Text.splitOn_ne_nil _ _, rfl⟩

theorem locate_eq_iff (h : Mirrored roots encoding keys text out disk d) (hp : p ∈ keys)
    (hq : q ∈ keys) : d.locate (targetPath roots out p) = d.locate (targetPath roots out q) ↔
      outputPath roots p = outputPath roots q := by
  obtain ⟨base, hbase, hplace⟩ := h.locate_target hp
  obtain ⟨base', hbase', hplace'⟩ := h.locate_target hq
  obtain rfl := Except.ok.inj (hbase.symm.trans hbase')
  rw [hplace, hplace']
  constructor
  · intro heq
    exact Text.splitOn_injective '/' (List.append_cancel_left (Except.ok.inj heq))
  · intro heq
    rw [heq]

theorem content_eq (h : Mirrored roots encoding keys text out disk d)
    (hplace : ¬d.Beneath out place) : d.root.content? place = disk.root.content? place := by
  refine h.stored.content_eq fun job hjob hlocate => ?_
  obtain ⟨p, hp, rfl⟩ := List.mem_map.mp hjob
  obtain ⟨place', hlocate', hbeneath⟩ := h.beneath (mem_sort.mp hp)
  obtain rfl := Except.ok.inj (hlocate.symm.trans hlocate')
  exact hplace hbeneath

/-- A target holds the text of the last of the paths that lead to it. -/
theorem holds (h : Mirrored roots encoding keys text out disk d) (hp : p ∈ keys) :
    ∃ q ∈ keys, outputPath roots q = outputPath roots p ∧
      (∀ other ∈ keys, outputPath roots other = outputPath roots p → Text.le other q = true) ∧
      ∃ enc content, Encoding.ofValue encoding = .ok enc ∧
        d.read (targetPath roots out p) = .ok content ∧ enc.decode content = some (text q) := by
  obtain ⟨place, hplace, -⟩ := h.beneath hp
  obtain ⟨q, hq, hqplace, hqlast, content, hwritten, hcontent⟩ :=
    exists_last (Text.pairwise_sort keys) h.stored.placed (mem_sort.mpr hp) hplace
  rw [mem_sort] at hq
  refine ⟨q, hq, (h.locate_eq_iff hq hp).mp (hqplace.trans hplace.symm), ?_, ?_⟩
  · intro other hother heq
    apply hqlast other (mem_sort.mpr hother)
    exact ((h.locate_eq_iff hother hp).mpr heq).trans hplace
  · obtain ⟨enc, henc, hdecode⟩ := exists_decode_of_written? hwritten
    refine ⟨enc, content, henc, (Disk.read_eq_ok_iff hplace).mpr ?_, hdecode⟩
    rw [h.stored.content, hcontent]
    rfl

end Mirrored

/-- **Writing under a directory.** When a result is written under a directory and all paths below
source roots are relative: every target lies beneath the directory; two targets are one file exactly
when the paths below the source roots are the same, which never happens to two paths with the same
first root; no file outside the directory changes; and a target holds the text of the last of the
paths that lead to it. -/
theorem write_mirrors {disk₀ disk : Disk} {settings : Settings} {files? : Option (List Path)}
    {r : BatchResult} {out : Path} {written : List Path}
    (hrun : ((run (.still disk₀) settings files?).run ()).answer = .ok r)
    (hrelative : ∀ p ∈ OrderedMap.keys r.outputs,
      Path.isAbsolute (outputPath settings.roots p) = false)
    (hwrite : ((write settings r (some out)).run disk).answer = .ok written) :
    let d := ((write settings r (some out)).run disk).state
    let keys := OrderedMap.keys r.outputs
    let relative := outputPath settings.roots
    let target := targetPath settings.roots out
    (∀ p ∈ keys, ∃ place, d.locate (target p) = .ok place ∧ d.Beneath out place) ∧
    (∀ p ∈ keys, ∀ q ∈ keys, d.locate (target p) = d.locate (target q) ↔
      relative p = relative q) ∧
    (∀ p q root, (settings.roots.find? fun root => (Path.below? root p).isSome) = some root →
      (settings.roots.find? fun root => (Path.below? root q).isSome) = some root →
      relative p = relative q → p = q) ∧
    (∀ place, ¬d.Beneath out place → d.root.content? place = disk.root.content? place) ∧
    ∀ p ∈ keys, ∃ q ∈ keys, relative q = relative p ∧
      (∀ other ∈ keys, relative other = relative p → Text.le other q = true) ∧
      ∃ enc content, Encoding.ofValue settings.encoding = .ok enc ∧
        d.read (target p) = .ok content ∧ enc.decode content = r.outputs.get? q := by
  intro d keys relative target
  have h : Mirrored settings.roots settings.encoding keys (fun p => (r.outputs.get? p).getD [])
      out disk d := by
    refine ⟨fun p hp => ?_, hrelative, ?_⟩
    · obtain ⟨scope, paths, -, hready, rfl⟩ := exists_ready_of_run hrun
      exact hready.isNamed (mem_keys_outputs.mp hp)
    · rw [← writeJobs_some]
      exact ((meets_write settings r (some out) disk []).1 written hwrite).2
  refine ⟨fun p => h.beneath, fun p hp q hq => h.locate_eq_iff hp hq, fun p q root hp hq heq => ?_,
    fun place => h.content_eq, fun p hp => ?_⟩
  · rw [eq_append_outputPath hp, eq_append_outputPath hq]
    exact congrArg _ heq
  · obtain ⟨q, hq, hsame, hlast, enc, content, henc, hread, hdecode⟩ := h.holds hp
    obtain ⟨t, ht⟩ := OrderedMap.exists_get?_of_mem_keys hq
    refine ⟨q, hq, hsame, hlast, enc, content, henc, hread, ?_⟩
    rw [hdecode, ht]
    rfl

/-! ## Two roots with a file of the same name -/

def overlaidTexts : OrderedMap Path Text :=
  [("/p/a/x.js".toList, "/** one */".toList), ("/p/b/x.js".toList, "/** two */".toList)]

def overlaidDisk : Disk :=
  let file (t : String) : Dir := .file "x.js".toList (Encoding.encodeUtf8 t.toList) .empty
  ⟨.sub ['p'] (.sub ['a'] (file "/** one */") (.sub ['b'] (file "/** two */") .empty)) .empty,
    [['p']]⟩

def overlaidSettings : Settings := .ofRoots ['/', 'p'] ["/p/a".toList, "/p/b".toList]

def overlaidResult : BatchResult := ⟨overlaidTexts, overlaidTexts, [], ⟨2, 1, 0, 0, 0⟩⟩

/-- Both texts, written under one directory. -/
def overlaidWrite : Op Disk (List Path) :=
  write overlaidSettings overlaidResult (some "/p/o".toList)

set_option maxRecDepth 100000 in
theorem overlaid_run :
    ((run (.still overlaidDisk) overlaidSettings (some ["a/x.js".toList, "b/x.js".toList])).run
      ()).answer = .ok overlaidResult := by
  decide +kernel

theorem overlaid_ordered :
    ((targets overlaidSettings.roots overlaidResult (some "/p/o".toList)).mergeSort fun a b =>
      Text.le a.1 b.1) = targets overlaidSettings.roots overlaidResult (some "/p/o".toList) :=
  List.mergeSort_of_pairwise (by decide +kernel)

set_option maxRecDepth 100000 in
theorem overlaid_write :
    (overlaidWrite.run overlaidDisk).answer = .ok ["/p/o/x.js".toList, "/p/o/x.js".toList] := by
  unfold overlaidWrite write
  rw [overlaid_ordered]
  decide +kernel

theorem overlaid_write_mirrors :
    let d := (overlaidWrite.run overlaidDisk).state
    let relative := outputPath overlaidSettings.roots
    (∀ p ∈ OrderedMap.keys overlaidTexts, Path.isAbsolute (relative p) = false) ∧
      (∀ place, ¬d.Beneath "/p/o".toList place →
        d.root.content? place = overlaidDisk.root.content? place) ∧
      ∀ p ∈ OrderedMap.keys overlaidTexts, ∃ q ∈ OrderedMap.keys overlaidTexts,
        relative q = relative p ∧ ∃ (enc : Encoding) (content : Bytes),
          d.read (targetPath overlaidSettings.roots "/p/o".toList p) = .ok content ∧
          enc.decode content = OrderedMap.get? q overlaidTexts := by
  intro d relative
  have hrelative : ∀ p ∈ OrderedMap.keys overlaidTexts, Path.isAbsolute (relative p) = false := by
    decide +kernel
  obtain ⟨-, -, -, houtside, hholds⟩ := write_mirrors overlaid_run hrelative overlaid_write
  refine ⟨hrelative, houtside, fun p hp => ?_⟩
  obtain ⟨q, hq, hsame, -, enc, content, -, hread, hdecode⟩ := hholds p hp
  exact ⟨q, hq, hsame, enc, content, hread, hdecode⟩

set_option maxRecDepth 100000 in
/-- Of two paths that lead to one target, the first loses its text. -/
theorem overlaid_write_loses :
    let a := "/p/a/x.js".toList
    let b := "/p/b/x.js".toList
    let target := targetPath overlaidSettings.roots "/p/o".toList
    ((run (.still overlaidDisk) overlaidSettings (some ["a/x.js".toList, "b/x.js".toList])).run
        ()).answer = .ok overlaidResult ∧
      (overlaidWrite.run overlaidDisk).answer = .ok [target a, target b] ∧
      a ∈ OrderedMap.keys overlaidResult.outputs ∧ b ∈ OrderedMap.keys overlaidResult.outputs ∧
      a ≠ b ∧ target a = target b ∧
      (overlaidWrite.run overlaidDisk).state.readText overlaidSettings.encoding (target a) =
        .ok "/** two */".toList ∧
      overlaidResult.outputs.get? a = some "/** one */".toList := by
  refine ⟨overlaid_run, ?_, by decide +kernel, by decide +kernel, by decide +kernel,
    by decide +kernel, ?_, by decide +kernel⟩
  · rw [overlaid_write]
    decide +kernel
  · unfold overlaidWrite write
    rw [overlaid_ordered]
    decide +kernel

end Batch

end DocRefs
