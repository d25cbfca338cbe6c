import Mathlib
import DocRefs.Proofs.Index
import DocRefs.Proofs.Operations
import DocRefs.Proofs.Paths
import DocRefs.Proofs.Rewriting

/-!
# What a disk says

On a disk that stays as it is, the identity of a file and the module of an import are functions of
the disk. A session keeps to the disk when everything that it has cached or remembered agrees with
these functions; looking up identities and resolving imports gives their values, and only adds to
the set of files known.
-/

namespace DocRefs

section Disk

variable (scope : Scope) (disk : Disk)

/-- The text of a file for scanning: a file that is missing or cannot be decoded counts as empty. -/
def countedText (p : Path) : Except Failure Text :=
  if disk.isFile p then
    match disk.readText scope.encoding p with
    | .ok t => .ok t
    | .error .undecodable => .ok []
    | .error e => .error e
  else .ok []

/-- The identity of a file. -/
def identityOf (p : Path) : Except Failure FileIdentity :=
  match countedText scope disk p with
  | .ok t => FileIdentity.ofText scope.roots p t
  | .error e => .error e

/-- The path that a relative specifier leads to. -/
def targetOf (importer : Path) (specifier : Text) : Except Failure Path :=
  match target? disk (preferredBy importer scope.extensions)
    (Session.candidate importer specifier) with
  | .ok found? => .ok (found?.getD (Session.candidate importer specifier))
  | .error e => .error e

/-- The identity of the file that a relative specifier leads to. -/
def importedIdentity (importer : Path) (specifier : Text) : Except Failure FileIdentity :=
  match targetOf scope disk importer specifier with
  | .ok p => identityOf scope disk (scope.normalize p)
  | .error e => .error e

/-- The module id of an import. -/
def moduleOf (importer : Path) (specifier : Text) : Except Failure Text :=
  if Specifier.isRelative specifier then
    (importedIdentity scope disk importer specifier).map FileIdentity.moduleId
  else .ok specifier

/-- The files that an import makes known. -/
def importedFiles (importer : Path) (specifier : Text) : Set Path :=
  { p | Specifier.isRelative specifier ∧
    ∃ q, targetOf scope disk importer specifier = .ok q ∧ p = scope.normalize q }

/-- What a session is known to hold besides what the disk says. -/
structure Ledger where
  phase : Phase
  /-- The files met. -/
  known : Set Path
  linked : Nat
  qualified : Nat

/-- The ledger when more files have been met. -/
def Ledger.learn (l : Ledger) (files : Set Path) : Ledger := { l with known := l.known ∪ files }

/-- The ledger when more references have been replaced. -/
def Ledger.link (l : Ledger) (n : Nat) : Ledger := { l with linked := l.linked + n }

/-- The session holds what the ledger says, and of files and imports nothing but what the disk
says. -/
structure Keeps (l : Ledger) (s : Session) : Prop where
  phase : s.phase = l.phase
  linked : s.linkedReferences = l.linked
  qualified : s.qualifiedIdentifiers = l.qualified
  nodup : (OrderedMap.keys s.cache).Nodup
  known : ∀ p, p ∈ OrderedMap.keys s.cache ↔ p ∈ l.known
  cached : ∀ p info, s.cache.get? p = some info → identityOf scope disk p = .ok info
  indexed : s.index.Indexes (s.cache.map (·.2))
  -- Specifiers of references hold no colon, so their keys can be told apart.
  memo : ∀ importer specifier p, ':' ∉ specifier →
    s.memo.get? (Session.memoKey importer specifier) = some p →
    targetOf scope disk importer specifier = .ok p

theorem keeps_fresh : Keeps scope disk ⟨.ingest, ∅, 0, 0⟩ .fresh where
  phase := rfl
  linked := rfl
  qualified := rfl
  nodup := List.nodup_nil
  known := by simp [Session.fresh, OrderedMap.keys]
  cached := by simp [Session.fresh]
  indexed := TypeIndex.indexes_empty
  memo := by simp [Session.fresh]

end Disk

variable {scope : Scope} {disk : Disk} {l : Ledger} {s : Session}

theorem Ledger.learn_learn (files more : Set Path) :
    (l.learn files).learn more = l.learn (files ∪ more) := by
  rw [Ledger.learn, Ledger.learn, Ledger.learn, Set.union_assoc]

theorem Ledger.learn_of_subset {files : Set Path} (h : files ⊆ l.known) : l.learn files = l := by
  rw [Ledger.learn, Set.union_eq_self_of_subset_right h]

/-- The session when a file has been met. -/
def Session.record (s : Session) (p : Path) (info : FileIdentity) : Session :=
  { s with
    index := s.index.record info.moduleId info.typeNames
    cache := s.cache.put p info }

/-- The session when an import has been resolved to a path. -/
def Session.remember (s : Session) (importer : Path) (specifier : Text) (p : Path) : Session :=
  { s with memo := s.memo.put (memoKey importer specifier) p }

@[simp]
theorem Session.record_cache (p : Path) (info : FileIdentity) :
    (s.record p info).cache = s.cache.put p info := rfl

@[simp]
theorem Session.record_index (p : Path) (info : FileIdentity) :
    (s.record p info).index = s.index.record info.moduleId info.typeNames := rfl

@[simp]
theorem Session.record_phase (p : Path) (info : FileIdentity) :
    (s.record p info).phase = s.phase := rfl

@[simp]
theorem Session.remember_memo (importer : Path) (specifier : Text) (p : Path) :
    (s.remember importer specifier p).memo = s.memo.put (memoKey importer specifier) p := rfl

/-- A file that was not met yet and whose identity is what the disk says may be recorded. -/
theorem Keeps.record (hs : Keeps scope disk l s) {p : Path} {info : FileIdentity}
    (hnew : s.cache.get? p = none) (hinfo : identityOf scope disk p = .ok info) :
    Keeps scope disk (l.learn {p}) (s.record p info) := by
  have hnot := OrderedMap.get?_eq_none_iff.mp hnew
  refine { hs with nodup := ?_, known := ?_, cached := ?_, indexed := ?_ }
  · exact OrderedMap.nodup_keys_put hs.nodup p info
  · intro q
    simp [OrderedMap.keys_put, hnot, hs.known, Ledger.learn, or_comm]
  · intro q info' hq
    rw [Session.record_cache, OrderedMap.get?_put] at hq
    split at hq
    next heq =>
      obtain rfl := Option.some.inj hq
      rwa [← heq]
    next => exact hs.cached q info' hq
  · simp only [Session.record_cache, Session.record_index, OrderedMap.put_of_notMem hnot,
      List.map_append]
    exact hs.indexed.record info

/-- Keys of specifiers without a colon tell the importer and the specifier. -/
theorem Session.memoKey_inj {importer importer' specifier specifier' : Text}
    (h : ':' ∉ specifier) (h' : ':' ∉ specifier')
    (heq : memoKey importer specifier = memoKey importer' specifier') :
    importer = importer' ∧ specifier = specifier' := by
  -- The specifier is what stands behind the last colon of a key.
  have htake : ∀ {front u : Text}, ':' ∉ u →
      (memoKey front u).reverse.takeWhile (· ≠ ':') = u.reverse := by
    intro front u hu
    have hreverse : (memoKey front u).reverse = u.reverse ++ ':' :: ':' :: front.reverse := by
      simp [memoKey]
    rw [hreverse, List.takeWhile_append_of_pos]
    · simp
    · intro c hc
      simp only [ne_eq, decide_not, Bool.not_eq_eq_eq_not, Bool.not_true, decide_eq_false_iff_not]
      rintro rfl
      exact hu (List.mem_reverse.mp hc)
  have hspecifier : specifier = specifier' := by
    apply List.reverse_injective
    rw [← htake h, ← htake h', heq]
  subst hspecifier
  have hfront := List.append_cancel_right heq
  exact ⟨List.append_cancel_right hfront, rfl⟩

/-- The path of an import may be remembered. -/
theorem Keeps.remember (hs : Keeps scope disk l s) {importer : Path} {specifier : Text} {p : Path}
    (hcolon : ':' ∉ specifier) (htarget : targetOf scope disk importer specifier = .ok p) :
    Keeps scope disk l (s.remember importer specifier p) := by
  refine { hs with memo := ?_ }
  intro importer' specifier' q hcolon' hq
  rw [Session.remember_memo, OrderedMap.get?_put] at hq
  split at hq
  next heq =>
    obtain ⟨rfl, rfl⟩ := Session.memoKey_inj hcolon hcolon' heq
    obtain rfl := Option.some.inj hq
    exact htarget
  next => exact hs.memo importer' specifier' q hcolon' hq

namespace Session

theorem meets_sourceText (p : Path) :
    (sourceText scope (.still disk) p).Meets s fun r s' =>
      r = countedText scope disk p ∧ s' = s := by
  unfold sourceText countedText
  apply Op.meets_see_bind
  split
  · cases disk.readText scope.encoding p with
    | ok t => exact Op.meets_pure ⟨rfl, rfl⟩
    | error e =>
        by_cases he : e = .undecodable
        · subst he
          exact Op.meets_log_bind (Op.meets_pure ⟨rfl, rfl⟩)
        · cases e <;> first | exact absurd rfl he | exact Op.meets_fail ⟨rfl, rfl⟩
  · exact Op.meets_log_bind (Op.meets_pure ⟨rfl, rfl⟩)

theorem meets_identity_of_cached {view : View} {filename : Path} {info : FileIdentity}
    (hcached : s.cache.get? (scope.normalize filename) = some info) (source : Option Text) :
    (identity scope view filename source).Meets s fun r s' => r = .ok info ∧ s' = s := by
  unfold identity
  apply Op.meets_get_bind
  rw [hcached]
  exact Op.meets_pure ⟨rfl, rfl⟩

/-- A file that was not met yet is recorded, with the identity that the disk says. A source that is
given has to be the one on the disk. -/
theorem meets_identity_of_new {filename : Path} {source : Option Text}
    (hnew : s.cache.get? (scope.normalize filename) = none)
    (hsource : ∀ t, source = some t →
      countedText scope disk (scope.normalize filename) = .ok t) :
    (identity scope (.still disk) filename source).Meets s fun r s' =>
      r = identityOf scope disk (scope.normalize filename) ∧
        (∀ info, r = .ok info → s' = s.record (scope.normalize filename) info) ∧
          ∀ e, r = .error e → s' = s := by
  unfold identity
  apply Op.meets_get_bind
  rw [hnew]
  have htext : (source.elim (sourceText scope (.still disk) (scope.normalize filename)) pure).Meets
      s fun r s' => r = countedText scope disk (scope.normalize filename) ∧ s' = s := by
    cases source with
    | none => exact meets_sourceText _
    | some t => exact Op.meets_pure ⟨(hsource t rfl).symm, rfl⟩
  refine htext.bind ?_ ?_
  · intro e s' hmid
    rcases hmid with ⟨he, rfl⟩
    exact ⟨by rw [identityOf, ← he], fun _ h => by simp at h, fun _ _ => rfl⟩
  · intro t s' hmid
    rcases hmid with ⟨ht, rfl⟩
    have hidentity : identityOf scope disk (scope.normalize filename) =
        FileIdentity.ofText scope.roots (scope.normalize filename) t := by
      rw [identityOf, ← ht]
    rw [hidentity]
    refine Op.meets_ofExcept_bind ?_ ?_
    · intro e he
      exact ⟨he.symm, fun _ h => by simp at h, fun _ _ => rfl⟩
    · intro info hinfo
      apply Op.meets_modify_bind
      apply Op.meets_log_bind
      apply Op.meets_pure
      refine ⟨hinfo.symm, ?_, fun _ h => by simp at h⟩
      intro info' heq
      obtain rfl := Except.ok.inj heq
      rfl

/-- The identity of a file is what the disk says, whether it is computed or was cached. -/
theorem meets_identity (hs : Keeps scope disk l s) (filename : Path) {source : Option Text}
    (hsource : ∀ t, source = some t →
      countedText scope disk (scope.normalize filename) = .ok t) :
    (identity scope (.still disk) filename source).Meets s fun r s' =>
      r = identityOf scope disk (scope.normalize filename) ∧
        ∀ info, r = .ok info → Keeps scope disk (l.learn {scope.normalize filename}) s' := by
  cases hcached : s.cache.get? (scope.normalize filename) with
  | some info =>
      refine (meets_identity_of_cached hcached source).mono ?_
      intro r s' h
      rcases h with ⟨rfl, rfl⟩
      refine ⟨(hs.cached _ info hcached).symm, fun _ _ => ?_⟩
      have hknown := (hs.known _).mp (OrderedMap.mem_keys_of_get? hcached)
      rwa [Ledger.learn_of_subset (Set.singleton_subset_iff.mpr hknown)]
  | none =>
      refine (meets_identity_of_new hcached hsource).mono ?_
      intro r s' h
      rcases h with ⟨hr, hrecord, -⟩
      refine ⟨hr, fun info hinfo => ?_⟩
      rw [hrecord info hinfo]
      exact hs.record hcached (hr.symm.trans hinfo)

theorem meets_resolvePath_of_memo {view : View} {filename : Path} {specifier : Text} {p : Path}
    (hrelative : Specifier.isRelative specifier = true)
    (hmemo : s.memo.get? (memoKey (scope.normalize filename) specifier) = some p) :
    (resolvePath scope view filename specifier).Meets s fun r s' =>
      r = .ok (some p) ∧ s' = s := by
  unfold resolvePath
  rw [if_pos hrelative]
  apply Op.meets_get_bind
  rw [hmemo]
  exact Op.meets_pure ⟨rfl, rfl⟩

/-- An import that was not resolved yet is looked for on the disk, and the path is remembered. -/
theorem meets_resolvePath_of_new {filename : Path} {specifier : Text}
    (hrelative : Specifier.isRelative specifier = true)
    (hnew : s.memo.get? (memoKey (scope.normalize filename) specifier) = none) :
    (resolvePath scope (.still disk) filename specifier).Meets s fun r s' =>
      r = (targetOf scope disk (scope.normalize filename) specifier).map some ∧
        (∀ p, r = .ok (some p) → s' = s.remember (scope.normalize filename) specifier p) ∧
          ∀ e, r = .error e → s' = s := by
  unfold resolvePath
  rw [if_pos hrelative]
  apply Op.meets_get_bind
  rw [hnew]
  apply Op.meets_see_bind
  refine Op.meets_ofExcept_bind ?_ ?_
  · intro e he
    rw [targetOf, he]
    exact ⟨rfl, fun _ h => by simp at h, fun _ _ => rfl⟩
  · intro found? hfound
    have htarget : targetOf scope disk (scope.normalize filename) specifier =
        .ok (found?.getD (candidate (scope.normalize filename) specifier)) := by
      rw [targetOf, hfound]
    rw [htarget]
    have hpost : ∀ p, (.ok (some (found?.getD (candidate (scope.normalize filename) specifier))) :
        Except Failure (Option Path)) = .ok (some p) →
        s.remember (scope.normalize filename) specifier
          (found?.getD (candidate (scope.normalize filename) specifier)) =
        s.remember (scope.normalize filename) specifier p := by
      intro p hp
      rw [Option.some.inj (Except.ok.inj hp)]
    -- Whether a file was found makes a difference for the log alone.
    dsimp only
    split
    · apply Op.meets_log_bind
      apply Op.meets_modify_bind
      exact Op.meets_log_bind (Op.meets_pure ⟨rfl, hpost, fun _ h => by simp at h⟩)
    · apply Op.meets_modify_bind
      exact Op.meets_log_bind (Op.meets_pure ⟨rfl, hpost, fun _ h => by simp at h⟩)

/-- Resolving a relative specifier gives the path that the disk says, also when it was
remembered. -/
theorem meets_resolvePath (hs : Keeps scope disk l s) (filename : Path) {specifier : Text}
    (hrelative : Specifier.isRelative specifier = true) (hcolon : ':' ∉ specifier) :
    (resolvePath scope (.still disk) filename specifier).Meets s fun r s' =>
      r = (targetOf scope disk (scope.normalize filename) specifier).map some ∧
        ∀ p, r = .ok p → Keeps scope disk l s' := by
  cases hmemo : s.memo.get? (memoKey (scope.normalize filename) specifier) with
  | some p =>
      refine (meets_resolvePath_of_memo hrelative hmemo).mono ?_
      intro r s' h
      rcases h with ⟨rfl, rfl⟩
      rw [hs.memo _ _ p hcolon hmemo]
      exact ⟨rfl, fun _ _ => hs⟩
  | none =>
      refine (meets_resolvePath_of_new hrelative hmemo).mono ?_
      intro r s' h
      rcases h with ⟨hr, hremember, -⟩
      refine ⟨hr, fun p? hp => ?_⟩
      cases htarget : targetOf scope disk (scope.normalize filename) specifier with
      | error e =>
          rw [hr, htarget] at hp
          simp [Except.map] at hp
      | ok p =>
          rw [htarget] at hr
          rw [hremember p hr]
          exact hs.remember hcolon htarget

theorem meets_resolve_of_relative (hs : Keeps scope disk l s) (filename : Path) {specifier : Text}
    (hrelative : Specifier.isRelative specifier = true) (hcolon : ':' ∉ specifier) :
    (resolve scope (.still disk) filename specifier).Meets s fun r s' =>
      r = moduleOf scope disk (scope.normalize filename) specifier ∧ ∀ id, r = .ok id →
        Keeps scope disk (l.learn (importedFiles scope disk (scope.normalize filename) specifier))
          s' := by
  have hpath := meets_resolvePath hs filename hrelative hcolon
  rw [moduleOf, if_pos hrelative, importedIdentity]
  unfold resolve
  cases htarget : targetOf scope disk (scope.normalize filename) specifier with
  | error e =>
      rw [htarget] at hpath
      refine hpath.bind ?_ ?_
      · intro e' s' h
        obtain rfl : e' = e := Except.error.inj h.1
        exact ⟨rfl, fun _ hok => by simp at hok⟩
      · intro p? s' h
        exact absurd h.1 (by simp [Except.map])
  | ok p =>
      have hfiles : importedFiles scope disk (scope.normalize filename) specifier =
          {scope.normalize p} := by
        ext q
        simp [importedFiles, hrelative, htarget]
      rw [htarget] at hpath
      rw [hfiles]
      refine hpath.bind ?_ ?_
      · intro e s' h
        exact absurd h.1 (by simp [Except.map])
      · intro p? s' h
        obtain rfl : p? = some p := Except.ok.inj h.1
        refine (meets_identity (h.2 _ rfl) p fun _ hsome => by simp at hsome).bind ?_ ?_
        · intro e s'' h'
          dsimp only
          rw [← h'.1]
          exact ⟨rfl, fun _ hok => by simp at hok⟩
        · intro info s'' h'
          apply Op.meets_pure
          dsimp only
          rw [← h'.1]
          exact ⟨rfl, fun _ _ => h'.2 info rfl⟩

/-- Resolving an import gives the module that the disk says. -/
theorem meets_resolve (hs : Keeps scope disk l s) (filename : Path) {specifier : Text}
    (hcolon : ':' ∉ specifier) :
    (resolve scope (.still disk) filename specifier).Meets s fun r s' =>
      r = moduleOf scope disk (scope.normalize filename) specifier ∧ ∀ id, r = .ok id →
        Keeps scope disk (l.learn (importedFiles scope disk (scope.normalize filename) specifier))
          s' := by
  by_cases hrelative : Specifier.isRelative specifier = true
  · exact meets_resolve_of_relative hs filename hrelative hcolon
  · have hfiles : importedFiles scope disk (scope.normalize filename) specifier = ∅ := by
      ext q
      simp [importedFiles, hrelative]
    have hnone : resolvePath scope (.still disk) filename specifier = pure none := by
      rw [resolvePath, if_neg hrelative]
    unfold resolve
    rw [moduleOf, if_neg hrelative, hfiles, Ledger.learn_of_subset (Set.empty_subset _), hnone]
    exact Op.meets_pure ⟨rfl, fun _ _ => hs⟩

end Session

end DocRefs
