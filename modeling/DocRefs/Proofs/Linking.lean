import Mathlib
import DocRefs.Batch.Run
import DocRefs.Proofs.Snapshot

/-!
# The first phase on a still disk

What linking makes of a text is a function of the disk, and so is whether it succeeds. Staging files
one after the other succeeds exactly when each of them can be staged, and afterwards the session
knows the listed files and the files that they import.
-/

namespace DocRefs

section Disk

variable (scope : Scope) (disk : Disk)

/-- What an import reference becomes, if anything. -/
def linkOf (importer : Path) (ref : ImportRef) : Option Text :=
  ref.substitute? ((moduleOf scope disk importer ref.specifier).toOption.getD [])

/-- The text with the import references in its comments linked. -/
def linkedText (importer : Path) (t : Text) : Text :=
  mapComments (linkedComment (linkOf scope disk importer)) t

/-- Whether every import in the comments of a text can be resolved. -/
def Linkable (importer : Path) (t : Text) : Prop :=
  ∀ r ∈ commentRefs t, ∃ id, moduleOf scope disk importer r.2.specifier = .ok id

/-- The replacements that link a text. -/
def linksOf (importer : Path) (t : Text) : List Replacement :=
  (commentRefs t).filterMap fun r =>
    (linkOf scope disk importer r.2).map (Replacement.mk (r.1 + r.2.start) (r.1 + r.2.stop))

/-- The files that the imports in the comments of a text make known. -/
def importsOf (importer : Path) (t : Text) : Set Path :=
  { p | ∃ r ∈ commentRefs t, p ∈ importedFiles scope disk importer r.2.specifier }

/-- The source of a listed file. -/
def sourceOf (p : Path) : Text := (disk.readText scope.encoding p).toOption.getD []

/-- Whether a listed file can be read, has an identity, and imports only what can be resolved. -/
def Stageable (p : Path) : Prop :=
  (∃ t, disk.readText scope.encoding p = .ok t) ∧
    (∃ info, identityOf scope disk p = .ok info) ∧ Linkable scope disk p (sourceOf scope disk p)

/-- A listed file after the first phase. -/
def stagedOf (p : Path) : Batch.Staged :=
  ⟨p, sourceOf scope disk p, linkedText scope disk p (sourceOf scope disk p)⟩

/-- The files met when the listed files have been staged. -/
def filesMet (paths : List Path) : Set Path :=
  { p | ∃ q ∈ paths, p = q ∨ p ∈ importsOf scope disk q (sourceOf scope disk q) }

/-- The number of references replaced when the listed files have been staged. -/
def linksMade (paths : List Path) : Nat :=
  (paths.map fun p => (linksOf scope disk p (sourceOf scope disk p)).length).sum

end Disk

variable {scope : Scope} {disk : Disk} {l : Ledger} {s : Session}

theorem colon_notMem_of_mem_commentRefs {t : Text} {r : Nat × ImportRef} (hr : r ∈ commentRefs t) :
    ':' ∉ r.2.specifier := by
  intro hmem
  exact ImportRef.isNameChar_ne ((shaped_of_mem_commentRefs hr).specifier_chars _ hmem) rfl rfl

/-- What the references `refs` of a file make known. -/
theorem importsOf_append (importer : Path) (done : List (Nat × ImportRef)) (r : Nat × ImportRef) :
    { p | ∃ r' ∈ done ++ [r], p ∈ importedFiles scope disk importer r'.2.specifier } =
      { p | ∃ r' ∈ done, p ∈ importedFiles scope disk importer r'.2.specifier } ∪
        importedFiles scope disk importer r.2.specifier := by
  ext p
  simp [or_and_right, exists_or]

namespace Session

theorem answers_resolve (hs : Keeps scope disk l s) (filename : Path) {specifier : Text}
    (hcolon : ':' ∉ specifier) :
    (resolve scope (.still disk) filename specifier).Answers s
      (∃ id, moduleOf scope disk (scope.normalize filename) specifier = .ok id)
      ((moduleOf scope disk (scope.normalize filename) specifier).toOption.getD [])
      (Keeps scope disk
        (l.learn (importedFiles scope disk (scope.normalize filename) specifier))) := by
  refine (meets_resolve hs filename hcolon).answers fun id hid => ?_
  rw [hid]
  rfl

theorem answers_substitution? (hs : Keeps scope disk l s) (filename : Path) (base : Nat)
    {ref : ImportRef} (hcolon : ':' ∉ ref.specifier) :
    (substitution? scope (.still disk) filename base ref).Answers s
      (∃ id, moduleOf scope disk (scope.normalize filename) ref.specifier = .ok id)
      ((linkOf scope disk (scope.normalize filename) ref).map
        (Replacement.mk (base + ref.start) (base + ref.stop)))
      (Keeps scope disk
        (l.learn (importedFiles scope disk (scope.normalize filename) ref.specifier))) :=
  (answers_resolve hs filename hcolon).map fun id =>
    (ref.substitute? id).map (Replacement.mk (base + ref.start) (base + ref.stop))

theorem answers_substitutions (hs : Keeps scope disk l s) (filename : Path) (t : Text) :
    (Op.collect (fun r : Nat × ImportRef =>
        substitution? scope (.still disk) filename r.1 r.2) (commentRefs t)).Answers s
      (Linkable scope disk (scope.normalize filename) t)
      ((commentRefs t).map fun r => (linkOf scope disk (scope.normalize filename) r.2).map
        (Replacement.mk (r.1 + r.2.start) (r.1 + r.2.stop)))
      (Keeps scope disk (l.learn (importsOf scope disk (scope.normalize filename) t))) := by
  refine Op.answers_collect (fun done : List (Nat × ImportRef) =>
    Keeps scope disk (l.learn { p | ∃ r ∈ done,
      p ∈ importedFiles scope disk (scope.normalize filename) r.2.specifier })) ?_ ?_
  · intro done r hr s' hs'
    rw [importsOf_append, ← Ledger.learn_learn]
    exact answers_substitution? hs' filename r.1 (colon_notMem_of_mem_commentRefs hr)
  · rw [Ledger.learn_of_subset (by simp)]
    exact hs

/-- Linking a text: it succeeds when every import can be resolved, and replaces the references in
the comments by what the disk says. -/
theorem answers_linkImports (hs : Keeps scope disk l s) (filename : Path) (t : Text) :
    (linkImports scope (.still disk) filename t).Answers s
      (Linkable scope disk (scope.normalize filename) t)
      (linkedText scope disk (scope.normalize filename) t)
      (Keeps scope disk ((l.learn (importsOf scope disk (scope.normalize filename) t)).link
        (linksOf scope disk (scope.normalize filename) t).length)) := by
  unfold linkImports
  refine (answers_substitutions hs filename t).andThen fun s' _ hs' => ?_
  have hlinks : ((commentRefs t).map fun r =>
      (linkOf scope disk (scope.normalize filename) r.2).map
        (Replacement.mk (r.1 + r.2.start) (r.1 + r.2.stop))).filterMap id =
      linksOf scope disk (scope.normalize filename) t := by
    rw [List.filterMap_map]
    rfl
  have hsplice : Replacement.splice t (linksOf scope disk (scope.normalize filename) t) =
      linkedText scope disk (scope.normalize filename) t := splice_commentRefs _ t
  rw [hlinks, ← hsplice]
  dsimp only
  split
  next hnil =>
    rw [List.isEmpty_iff.mp hnil, Replacement.splice_nil]
    exact Op.answers_pure hs'
  next =>
    apply Op.meets_modify_bind
    apply Op.meets_log_bind
    exact Op.answers_pure { hs' with linked := congrArg (· + _) hs'.linked }

/-- Taking a file in while that is allowed, with the source that is on the disk. -/
theorem answers_takeIn (hs : Keeps scope disk l s) (hphase : l.phase = .ingest) (filename : Path)
    {t : Text} (ht : countedText scope disk (scope.normalize filename) = .ok t) :
    (takeIn scope (.still disk) filename t).Answers s
      ((∃ info, identityOf scope disk (scope.normalize filename) = .ok info) ∧
        Linkable scope disk (scope.normalize filename) t)
      (linkedText scope disk (scope.normalize filename) t)
      (Keeps scope disk (((l.learn {scope.normalize filename}).learn
        (importsOf scope disk (scope.normalize filename) t)).link
          (linksOf scope disk (scope.normalize filename) t).length)) := by
  have hrequire : (requireIngest (some filename)).Answers s True () fun s' => s' = s := by
    apply Op.meets_get_bind
    rw [if_pos (hs.phase.trans hphase)]
    exact Op.answers_pure rfl
  refine Op.Answers.congr (hrequire.bind fun s' _ hs' => ?_) (and_iff_right trivial)
  subst hs'
  refine (meets_identity hs filename ?_).bindAnswers fun info s' _ hs' => ?_
  · intro u hu
    rwa [← Option.some.inj hu]
  · exact answers_linkImports hs' filename t

end Session

theorem filesMet_append (paths : List Path) (p : Path) :
    filesMet scope disk (paths ++ [p]) = (filesMet scope disk paths ∪ {p}) ∪
      importsOf scope disk p (sourceOf scope disk p) := by
  ext q
  simp only [filesMet, List.mem_append, List.mem_singleton, or_and_right, exists_or,
    exists_eq_left, Set.mem_union, Set.mem_ofPred_eq, Set.mem_singleton_iff, or_assoc]

theorem linksMade_append (paths : List Path) (p : Path) :
    linksMade scope disk (paths ++ [p]) =
      linksMade scope disk paths + (linksOf scope disk p (sourceOf scope disk p)).length := by
  simp [linksMade]

/-- A readable file counts with the text read. -/
theorem countedText_of_readText {p : Path} (hp : Path.IsNormal p) {t : Text}
    (ht : disk.readText scope.encoding p = .ok t) : countedText scope disk p = .ok t := by
  rw [countedText, if_pos (hp.isFile_of_readText ht), ht]

namespace Batch

/-- The ledger when the listed files have been staged. -/
def ledgerOf (scope : Scope) (disk : Disk) (paths : List Path) : Ledger :=
  ⟨.ingest, filesMet scope disk paths, linksMade scope disk paths, 0⟩

theorem answers_stage {done : List Path} (hs : Keeps scope disk (ledgerOf scope disk done) s)
    {p : Path} (hp : Path.IsNormal p) :
    (stage scope (.still disk) p).Answers s (Stageable scope disk p) (stagedOf scope disk p)
      (Keeps scope disk (ledgerOf scope disk (done ++ [p]))) := by
  have hnormal : scope.normalize p = p := hp.normalize_eq scope.cwd
  unfold stage
  apply Op.meets_see_bind
  have hread : (Op.ofExcept (disk.readText scope.encoding p) : Op Session Text).Meets s
      fun r s' => r = disk.readText scope.encoding p ∧ ∀ t, r = .ok t → s' = s :=
    Op.meets_ofExcept ⟨rfl, fun _ _ => rfl⟩
  refine hread.bindAnswers fun t s' ht hs' => ?_
  subst hs'
  have hsource : sourceOf scope disk p = t := by
    rw [sourceOf, ht]
    rfl
  have hcounted : countedText scope disk (scope.normalize p) = .ok t := by
    rw [hnormal]
    exact countedText_of_readText hp ht
  have htake := Session.answers_takeIn hs rfl p hcounted
  rw [hnormal] at htake
  rw [stagedOf, hsource]
  refine (htake.map (Staged.mk p t)).mono fun s' hs' => ?_
  rw [ledgerOf, filesMet_append, linksMade_append, hsource]
  exact hs'

/-- Staging files one after the other. -/
theorem answers_stages {paths : List Path} (hpaths : ∀ p ∈ paths, Path.IsNormal p) :
    (Op.collect (stage scope (.still disk)) paths).Answers .fresh
      (∀ p ∈ paths, Stageable scope disk p) (paths.map (stagedOf scope disk))
      (Keeps scope disk (ledgerOf scope disk paths)) := by
  refine Op.answers_collect (fun done => Keeps scope disk (ledgerOf scope disk done)) ?_ ?_
  · intro done p hp s hs
    exact answers_stage hs (hpaths p hp)
  · have hempty : filesMet scope disk [] = ∅ := by
      ext q
      simp [filesMet]
    rw [ledgerOf, hempty]
    exact keeps_fresh scope disk

end Batch

end DocRefs
