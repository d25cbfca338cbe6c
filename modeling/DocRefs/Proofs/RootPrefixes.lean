import Mathlib
import DocRefs.Proofs.OutputDirectory
import DocRefs.Proofs.SourceRoots

/-!
# Module ids and output paths

Both are what remains of a path behind a source root. The id is taken from the path without its
extension, below the roots that a run has collapsed again; the output path from the whole path,
below the roots of the settings. They agree on the root, because roots are collapsed already and no
extension reaches across a slash, and so the id with the extension is the output path.
-/

namespace DocRefs

namespace Path

/-- What is below a root keeps the extension of the path. -/
theorem below?_eq_map_stem (root p : Path) :
    below? root p = (below? root (stem p)).map (· ++ extension p) := by
  have hlast := getLast?_rootWithSlash root
  cases hstem : below? root (stem p) with
  | none =>
      rw [below?_eq_none_iff, isPrefix_stem_iff hlast] at hstem
      exact below?_eq_none_iff.mpr hstem
  | some rest =>
      have hfront : stem p = rootWithSlash root ++ rest := Text.after?_eq_some_iff.mp hstem
      have hp : p = rootWithSlash root ++ (rest ++ extension p) := by
        rw [← List.append_assoc, ← hfront, stem_append_extension]
      exact Text.after?_eq_some_iff.mpr hp

end Path

namespace FileIdentity

variable {roots front back : List Path} {root p : Path}

theorem belowRoots?_eq_map_stem (roots : List Path) (p : Path) :
    belowRoots? roots p = (belowRoots? roots (Path.stem p)).map (· ++ Path.extension p) := by
  rw [belowRoots?, belowRoots?, List.map_findSome?]
  congr 1
  funext root
  exact Path.below?_eq_map_stem root p

/-- The first root that a path lies below decides what is below the roots. -/
theorem belowRoots?_append_cons (hfront : ∀ first ∈ front, ¬Path.rootWithSlash first <+: p)
    {rest : Path} (hp : p = Path.rootWithSlash root ++ rest) :
    belowRoots? (front ++ root :: back) p = some rest := by
  have hnone : front.findSome? (fun first => Path.below? first p) = none :=
    List.findSome?_eq_none_iff.mpr fun first hfirst =>
      Path.below?_eq_none_iff.mpr (hfront first hfirst)
  have hroot : Path.below? root p = some rest := Text.after?_eq_some_iff.mpr hp
  rw [belowRoots?, List.findSome?_append, hnone, Option.none_or, List.findSome?_cons, hroot]

theorem exists_derivedId_iff :
    (∃ id, derivedId roots p = .ok id) ↔ ∃ root ∈ roots, Path.rootWithSlash root <+: p := by
  have hnone : belowRoots? roots (Path.stem p) = none ↔ _ := belowRoots?_stem_eq_none_iff
  unfold derivedId
  cases hbelow : belowRoots? roots (Path.stem p) with
  | none => simpa using hnone.mp hbelow
  | some id => simpa [hbelow] using hnone

end FileIdentity

namespace Batch

variable {disk : Disk} {settings : Settings} {scope : Scope}

/-- **Ids and output paths agree.** A module id can be derived for a path exactly when the path
begins with a root and its slash. For the first such root, the path is the root with its slash, the
id and the extension, and the path under an output directory is the id and the extension. Without
such a root there is no id, and the path under an output directory is the last step. -/
theorem derivedId_outputPath {fields : List (Value × Value)}
    (hconfig : Settings.ofFields disk.cwdPath fields = .ok settings)
    (hscope : Scope.ofSettings disk.cwdPath settings = .ok scope) (p : Path) :
    ((∃ id, FileIdentity.derivedId scope.roots p = .ok id) ↔
        ∃ root ∈ settings.roots, Path.rootWithSlash root <+: p) ∧
      (∀ front root back, settings.roots = front ++ root :: back →
        (∀ first ∈ front, ¬Path.rootWithSlash first <+: p) → Path.rootWithSlash root <+: p →
        ∃ id, FileIdentity.derivedId scope.roots p = .ok id ∧
          Path.rootWithSlash root ++ id ++ Path.extension p = p ∧
          outputPath settings.roots p = id ++ Path.extension p) ∧
      ((∀ root ∈ settings.roots, ¬Path.rootWithSlash root <+: p) →
        FileIdentity.derivedId scope.roots p = .error (.outsideRoots p settings.roots) ∧
          outputPath settings.roots p = Path.basename p) := by
  rw [roots_of_scope hscope (isNormal_of_mem_roots rfl hconfig)]
  refine ⟨FileIdentity.exists_derivedId_iff, ?_, fun hbelow => ?_⟩
  · rintro front root back hroots hfront hprefix
    have hlast := Path.getLast?_rootWithSlash
    obtain ⟨id, hid⟩ := (Path.isPrefix_stem_iff (hlast root)).mpr hprefix
    have hstem : FileIdentity.belowRoots? settings.roots (Path.stem p) = some id := by
      rw [hroots]
      refine FileIdentity.belowRoots?_append_cons (fun first hfirst => ?_) hid.symm
      rw [Path.isPrefix_stem_iff (hlast first)]
      exact hfront first hfirst
    refine ⟨id, by rw [FileIdentity.derivedId, hstem], ?_, ?_⟩
    · rw [hid, Path.stem_append_extension]
    · rw [outputPath, FileIdentity.belowRoots?_eq_map_stem, hstem]
      rfl
  · have hstem := FileIdentity.belowRoots?_stem_eq_none_iff.mpr hbelow
    refine ⟨by rw [FileIdentity.derivedId, hstem], ?_⟩
    rw [outputPath, FileIdentity.belowRoots?_eq_map_stem, hstem]
    rfl

/-- Settings whose second root holds the first one. -/
def nestedSettings : Settings := .ofRoots sampleDisk.cwdPath ["lib/./x/..".toList, "/".toList]

set_option maxRecDepth 100000 in
/-- A file below both roots takes its id and its output path from the first one, and a relative path
is below neither. -/
theorem nested_derivedId_outputPath :
    let roots := nestedSettings.roots
    let script := "/p/lib/a.d.ts".toList
    let bare := "lib/a.d.ts".toList
    ∃ scope, Scope.ofSettings sampleDisk.cwdPath nestedSettings = .ok scope ∧
      roots = ["/p/lib".toList, "/".toList] ∧
      (∃ id, FileIdentity.derivedId scope.roots script = .ok id ∧
        "/p/lib/".toList ++ id ++ ".ts".toList = script ∧
        outputPath roots script = id ++ ".ts".toList) ∧
      FileIdentity.derivedId scope.roots bare = .error (.outsideRoots bare roots) ∧
      outputPath roots bare = "a.d.ts".toList := by
  intro roots script bare
  have hconfig : Settings.ofFields sampleDisk.cwdPath
      [(.text Settings.rootsKey, .texts ["lib/./x/..".toList, "/".toList])] =
        .ok nestedSettings := rfl
  have hroots : roots = ["/p/lib".toList, "/".toList] := by decide +kernel
  refine ⟨_, rfl, hroots, ?_, ?_⟩
  · obtain ⟨-, hplaced, -⟩ := derivedId_outputPath hconfig rfl script
    exact hplaced [] "/p/lib".toList ["/".toList] hroots (by simp) (by decide +kernel)
  · obtain ⟨-, -, hunplaced⟩ := derivedId_outputPath hconfig rfl bare
    exact hunplaced (by decide +kernel)

end Batch

end DocRefs
