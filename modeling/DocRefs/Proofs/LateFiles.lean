import Mathlib
import DocRefs.Proofs.Runs

/-!
# Files met while comments are qualified

Once comments are qualified no text can be taken in, but linking a text still resolves its imports,
and a resolved import reads the file it leads to. A text whose imports lead to a file not met before
adds that file to the session, and nothing else does; as long as no such text is linked, the files
and the index stay as they are and a comment is always qualified the same way.
-/

namespace DocRefs

namespace Session

section Disk

variable (scope : Scope) (disk : Disk)

/-- The path that a session finds for a relative specifier: the path that it remembers, or the one
on the disk. -/
def pathIn (s : Session) (importer : Path) (specifier : Text) : Except Failure Path :=
  match s.memo.get? (memoKey importer specifier) with
  | some p => .ok p
  | none => targetOf scope disk importer specifier

/-- An import leads to no file, or to one that was met. -/
def Knows (s : Session) (importer : Path) (specifier : Text) : Prop :=
  Specifier.isRelative specifier = true →
    ∃ p, s.pathIn scope disk importer specifier = .ok p ∧
      scope.normalize p ∈ OrderedMap.keys s.cache

/-- An import leads to a file that was not met and that has an identity. -/
def Discovers (s : Session) (importer : Path) (specifier : Text) : Prop :=
  Specifier.isRelative specifier = true ∧
    ∃ p info, s.pathIn scope disk importer specifier = .ok p ∧
      scope.normalize p ∉ OrderedMap.keys s.cache ∧
      identityOf scope disk (scope.normalize p) = .ok info

/-- One of the references discovers a file, and those before it are known, so that linking gets
there. -/
def Reaches (s : Session) (importer : Path) : List (Nat × ImportRef) → Prop
  | [] => False
  | r :: refs =>
      s.Discovers scope disk importer r.2.specifier ∨
        s.Knows scope disk importer r.2.specifier ∧ s.Reaches importer refs

/-- The second session differs from the first in nothing that the imports of one file depend on. -/
structure SameFor (importer : Path) (s s' : Session) : Prop where
  phase : s'.phase = s.phase
  cache : s'.cache = s.cache
  index : s'.index = s.index
  pathIn : ∀ specifier,
    s'.pathIn scope disk importer specifier = s.pathIn scope disk importer specifier

/-- What resolving an import can do. -/
inductive Resolved (s : Session) (importer : Path) (specifier : Text) {α : Type} :
    Except Failure α → Session → Prop
  | known {a : α} {s' : Session} (hknows : s.Knows scope disk importer specifier)
      (hsame : SameFor scope disk importer s s') : Resolved s importer specifier (.ok a) s'
  | discovered {a : α} {s' : Session} {p : Path} {info : FileIdentity}
      (hdiscovers : s.Discovers scope disk importer specifier)
      (hnew : p ∉ OrderedMap.keys s.cache) (hphase : s'.phase = s.phase)
      (hcache : s'.cache = s.cache ++ [(p, info)]) : Resolved s importer specifier (.ok a) s'
  | failed {e : Failure} {s' : Session} (hunknown : ¬s.Knows scope disk importer specifier)
      (hnone : ¬s.Discovers scope disk importer specifier)
      (hsame : SameFor scope disk importer s s') : Resolved s importer specifier (.error e) s'

end Disk

variable {scope : Scope} {disk : Disk} {importer : Path} {specifier : Text} {s s' : Session}

theorem SameFor.refl (s : Session) : SameFor scope disk importer s s :=
  ⟨rfl, rfl, rfl, fun _ => rfl⟩

theorem SameFor.knows_iff (h : SameFor scope disk importer s s') :
    s'.Knows scope disk importer specifier ↔ s.Knows scope disk importer specifier := by
  rw [Knows, Knows, h.pathIn, h.cache]

theorem SameFor.discovers_iff (h : SameFor scope disk importer s s') :
    s'.Discovers scope disk importer specifier ↔ s.Discovers scope disk importer specifier := by
  rw [Discovers, Discovers, h.pathIn, h.cache]

theorem SameFor.reaches_iff (h : SameFor scope disk importer s s') (refs : List (Nat × ImportRef)) :
    s'.Reaches scope disk importer refs ↔ s.Reaches scope disk importer refs := by
  induction refs with
  | nil => rfl
  | cons r refs ih => rw [Reaches, Reaches, h.discovers_iff, h.knows_iff, ih]

theorem Knows.not_discovers (h : s.Knows scope disk importer specifier) :
    ¬s.Discovers scope disk importer specifier := by
  intro hdiscovers
  rcases hdiscovers with ⟨hrelative, p, info, hp, hnew, -⟩
  obtain ⟨q, hq, hmem⟩ := h hrelative
  obtain rfl := Except.ok.inj (hp.symm.trans hq)
  exact hnew hmem

/-- Remembering the path that the disk gives changes no path. -/
theorem sameFor_remember {p : Path}
    (hnew : s.memo.get? (memoKey importer specifier) = none)
    (htarget : targetOf scope disk importer specifier = .ok p) :
    SameFor scope disk importer s (s.remember importer specifier p) := by
  refine ⟨rfl, rfl, rfl, fun other => ?_⟩
  unfold pathIn
  rw [remember_memo, OrderedMap.get?_put]
  by_cases hkey : memoKey importer specifier = memoKey importer other
  · obtain rfl : specifier = other := List.append_cancel_left hkey
    rw [if_pos rfl, hnew, htarget]
  · rw [if_neg hkey]

theorem meets_resolvePath_pathIn {filename : Path}
    (hrelative : Specifier.isRelative specifier = true) :
    (resolvePath scope (.still disk) filename specifier).Meets s fun r s' =>
      r = (s.pathIn scope disk (scope.normalize filename) specifier).map some ∧
        SameFor scope disk (scope.normalize filename) s s' := by
  unfold pathIn
  cases hmemo : s.memo.get? (memoKey (scope.normalize filename) specifier) with
  | some p =>
      refine (meets_resolvePath_of_memo hrelative hmemo).mono ?_
      intro r s' h
      rcases h with ⟨rfl, rfl⟩
      exact ⟨rfl, .refl s'⟩
  | none =>
      refine (meets_resolvePath_of_new hrelative hmemo).mono ?_
      intro r s' h
      rcases h with ⟨hr, hremember, hsame⟩
      refine ⟨hr, ?_⟩
      cases htarget : targetOf scope disk (scope.normalize filename) specifier with
      | error e =>
          rw [htarget] at hr
          rw [hsame e hr]
          exact .refl s
      | ok p =>
          rw [htarget] at hr
          rw [hremember p hr]
          exact sameFor_remember hmemo htarget

theorem knows_iff_of_pathIn {p : Path} (hrelative : Specifier.isRelative specifier = true)
    (hpath : s.pathIn scope disk importer specifier = .ok p) :
    s.Knows scope disk importer specifier ↔ scope.normalize p ∈ OrderedMap.keys s.cache := by
  constructor
  · intro hknows
    obtain ⟨q, hq, hmem⟩ := hknows hrelative
    obtain rfl := Except.ok.inj (hpath.symm.trans hq)
    exact hmem
  · intro hmem _
    exact ⟨p, hpath, hmem⟩

theorem discovers_iff_of_pathIn {p : Path} (hrelative : Specifier.isRelative specifier = true)
    (hpath : s.pathIn scope disk importer specifier = .ok p) :
    s.Discovers scope disk importer specifier ↔
      scope.normalize p ∉ OrderedMap.keys s.cache ∧
        ∃ info, identityOf scope disk (scope.normalize p) = .ok info := by
  constructor
  · intro h
    rcases h with ⟨-, q, info, hq, hnew, hinfo⟩
    obtain rfl := Except.ok.inj (hpath.symm.trans hq)
    exact ⟨hnew, info, hinfo⟩
  · intro h
    rcases h with ⟨hnew, info, hinfo⟩
    exact ⟨hrelative, p, info, hpath, hnew, hinfo⟩

/-- The second half of resolving an import, when its path has been found. -/
theorem meets_identity_resolved {p : Path} (hrelative : Specifier.isRelative specifier = true)
    (hpath : s.pathIn scope disk importer specifier = .ok p)
    (hsame : SameFor scope disk importer s s') :
    (identity scope (.still disk) p none >>= fun info => pure info.moduleId).Meets s'
      (Resolved scope disk s importer specifier) := by
  have hknows := knows_iff_of_pathIn hrelative hpath
  have hdiscovers := discovers_iff_of_pathIn hrelative hpath
  cases hcached : s'.cache.get? (scope.normalize p) with
  | some info =>
      have hmem := OrderedMap.mem_keys_of_get? hcached
      rw [hsame.cache] at hmem
      refine (meets_identity_of_cached hcached none).bind ?_ ?_
      · intro e s'' hmid
        rcases hmid with ⟨he, -⟩
        simp at he
      · intro info' s'' hmid
        rcases hmid with ⟨-, rfl⟩
        exact Op.meets_pure (.known (hknows.mpr hmem) hsame)
  | none =>
      have hnew : scope.normalize p ∉ OrderedMap.keys s.cache := by
        rw [← hsame.cache]
        exact OrderedMap.get?_eq_none_iff.mp hcached
      refine (meets_identity_of_new hcached fun _ h => by simp at h).bind ?_ ?_
      · intro e s'' hmid
        rcases hmid with ⟨he, -, herror⟩
        rw [herror e rfl]
        refine .failed (fun h => hnew (hknows.mp h)) (fun h => ?_) hsame
        obtain ⟨-, info, hinfo⟩ := hdiscovers.mp h
        simp [hinfo] at he
      · intro info s'' hmid
        rcases hmid with ⟨hinfo, hrecord, -⟩
        have hcache : s''.cache = s.cache ++ [(scope.normalize p, info)] := by
          rw [hrecord info rfl, record_cache, hsame.cache, OrderedMap.put_of_notMem hnew]
        have hphase : s''.phase = s.phase := by
          rw [hrecord info rfl, record_phase, hsame.phase]
        apply Op.meets_pure
        exact .discovered (hdiscovers.mpr ⟨hnew, info, hinfo.symm⟩) hnew hphase hcache

/-- Resolving an import reads a file exactly when the import discovers one. -/
theorem meets_resolved {filename : Path} :
    (resolve scope (.still disk) filename specifier).Meets s
      (Resolved scope disk s (scope.normalize filename) specifier) := by
  unfold resolve
  by_cases hrelative : Specifier.isRelative specifier = true
  · refine (meets_resolvePath_pathIn hrelative).bind ?_ ?_
    · intro e s' hmid
      rcases hmid with ⟨hr, hsame⟩
      have hpath : ∀ p, s.pathIn scope disk (scope.normalize filename) specifier ≠ .ok p := by
        intro p hp
        simp [hp, Except.map] at hr
      refine .failed ?_ ?_ hsame
      · intro hknows
        obtain ⟨p, hp, -⟩ := hknows hrelative
        exact hpath p hp
      · intro hdiscovers
        rcases hdiscovers with ⟨-, p, info, hp, -⟩
        exact hpath p hp
    · intro p? s' hmid
      rcases hmid with ⟨hr, hsame⟩
      cases hpath : s.pathIn scope disk (scope.normalize filename) specifier with
      | error e => simp [hpath, Except.map] at hr
      | ok p =>
          obtain rfl : p? = some p := by simpa [hpath, Except.map] using hr
          exact meets_identity_resolved hrelative hpath hsame
  · have hnone : resolvePath scope (.still disk) filename specifier = pure none := by
      rw [resolvePath, if_neg hrelative]
    rw [hnone]
    exact Op.meets_pure (.known (fun h => absurd h hrelative) (.refl s))

/-- From one session to the next the files met are kept; more are met exactly when `new` holds, and
otherwise the files and the index stay. -/
structure Advances (new : Prop) (s s' : Session) : Prop where
  phase : s'.phase = s.phase
  kept : s.cache <+: s'.cache
  met : new → ∃ p ∈ OrderedMap.keys s'.cache, p ∉ OrderedMap.keys s.cache
  closed : ¬new → s'.cache = s.cache ∧ s'.index = s.index

namespace Advances

variable {new new' : Prop} {s'' : Session}

theorem congr (h : Advances new s s') (hnew : new ↔ new') : Advances new' s s' := by
  rwa [← propext hnew]

theorem of_eq (hphase : s'.phase = s.phase) (hcache : s'.cache = s.cache)
    (hindex : s'.index = s.index) : Advances False s s' where
  phase := hphase
  kept := by rw [hcache]
  met := False.elim
  closed := fun _ => ⟨hcache, hindex⟩

theorem keys_subset (h : Advances new s s') :
    OrderedMap.keys s.cache ⊆ OrderedMap.keys s'.cache :=
  (h.kept.map _).subset

theorem trans (h : Advances new s s') (h' : Advances new' s' s'') :
    Advances (new ∨ new') s s'' where
  phase := h'.phase.trans h.phase
  kept := h.kept.trans h'.kept
  met := by
    intro heither
    rcases heither with hnew | hnew
    · obtain ⟨p, hp, hnot⟩ := h.met hnew
      exact ⟨p, h'.keys_subset hp, hnot⟩
    · obtain ⟨p, hp, hnot⟩ := h'.met hnew
      exact ⟨p, hp, fun hmem => hnot (h.keys_subset hmem)⟩
  closed := by
    intro hnone
    obtain ⟨hcache, hindex⟩ := h.closed fun hnew => hnone (.inl hnew)
    obtain ⟨hcache', hindex'⟩ := h'.closed fun hnew => hnone (.inr hnew)
    exact ⟨hcache'.trans hcache, hindex'.trans hindex⟩

/-- The files met stay the same exactly when no new one is met. -/
theorem keys_iff (h : Advances new s s') :
    (∀ p, p ∈ OrderedMap.keys s'.cache ↔ p ∈ OrderedMap.keys s.cache) ↔ ¬new := by
  constructor
  · intro hsame hnew
    obtain ⟨p, hp, hnot⟩ := h.met hnew
    exact hnot ((hsame p).mp hp)
  · intro hnone p
    rw [(h.closed hnone).1]

end Advances

theorem SameFor.advances (h : SameFor scope disk importer s s') : Advances False s s' :=
  .of_eq h.phase h.cache h.index

/-- An import that is discovered adds its file. -/
theorem advances_of_append {p : Path} {info : FileIdentity}
    (hnew : p ∉ OrderedMap.keys s.cache) (hphase : s'.phase = s.phase)
    (hcache : s'.cache = s.cache ++ [(p, info)]) : Advances True s s' where
  phase := hphase
  kept := ⟨[(p, info)], hcache.symm⟩
  met := fun _ => ⟨p, by simp [hcache, OrderedMap.keys], hnew⟩
  closed := fun hnot => absurd trivial hnot

theorem meets_substitution?_resolved (filename : Path) (base : Nat) (ref : ImportRef) :
    (substitution? scope (.still disk) filename base ref).Meets s
      (Resolved scope disk s (scope.normalize filename) ref.specifier) := by
  refine meets_resolved.bind ?_ ?_
  · intro e s' hresolved
    cases hresolved with
    | failed hunknown hnone hsame => exact .failed hunknown hnone hsame
  · intro id s' hresolved
    apply Op.meets_pure
    cases hresolved with
    | known hknows hsame => exact .known hknows hsame
    | discovered hdiscovers hnew hphase hcache =>
        exact .discovered hdiscovers hnew hphase hcache

/-- Going through references meets a new file exactly when they reach one. -/
theorem meets_substitutions_advances (filename : Path) (refs : List (Nat × ImportRef)) :
    (Op.collect (fun r => substitution? scope (.still disk) filename r.1 r.2) refs).Meets s
      fun _ s' => Advances (s.Reaches scope disk (scope.normalize filename) refs) s s' := by
  induction refs generalizing s with
  | nil => exact Op.meets_pure (.of_eq rfl rfl rfl)
  | cons r refs ih =>
      refine (meets_substitution?_resolved filename r.1 r.2).bind ?_ ?_
      · intro e s' hresolved
        cases hresolved with
        | failed hunknown hnone hsame =>
            exact hsame.advances.congr (by simp [Reaches, hnone, hunknown])
      · intro x s' hresolved
        have hrest : (Op.collect (fun r => substitution? scope (.still disk) filename r.1 r.2)
            refs >>= fun xs => pure (x :: xs)).Meets s' fun _ s'' =>
              Advances (s'.Reaches scope disk (scope.normalize filename) refs) s' s'' :=
          ih.bind (fun _ _ h => h) fun _ _ h => Op.meets_pure h
        refine hrest.mono fun _ s'' h => ?_
        -- After a known reference the others find the same paths and files; after a file has been
        -- discovered it does not matter what they find.
        cases hresolved with
        | known hknows hsame =>
            refine (hsame.advances.trans h).congr ?_
            rw [hsame.reaches_iff]
            simp [Reaches, hknows, hknows.not_discovers]
        | discovered hdiscovers hnew hphase hcache =>
            refine ((advances_of_append hnew hphase hcache).trans h).congr ?_
            simp [Reaches, hdiscovers]

theorem meets_linkImports_advances (filename : Path) (t : Text) :
    (linkImports scope (.still disk) filename t).Meets s fun _ s' =>
      Advances (s.Reaches scope disk (scope.normalize filename) (commentRefs t)) s s' := by
  unfold linkImports
  refine (meets_substitutions_advances filename (commentRefs t)).bind (fun _ _ h => h) ?_
  intro found s' h
  dsimp only
  split
  · exact Op.meets_pure h
  · apply Op.meets_modify_bind
    apply Op.meets_log_bind
    exact Op.meets_pure ⟨h.phase, h.kept, h.met, h.closed⟩

/-- No text is taken in while comments are qualified. -/
theorem meets_takeIn_qualify (hphase : s.phase = .qualify) (view : View) (filename : Path)
    (t : Text) :
    (takeIn scope view filename t).Meets s fun _ s' => s' = s := by
  have hrequire : (requireIngest (some filename)).Meets s fun r s' =>
      (∃ e, r = .error e) ∧ s' = s := by
    unfold requireIngest
    apply Op.meets_get_bind
    rw [if_neg (by simp [hphase])]
    exact Op.meets_fail ⟨⟨_, rfl⟩, rfl⟩
  unfold takeIn
  refine hrequire.bind (fun e s' h => h.2) ?_
  intro _ s' hmid
  rcases hmid with ⟨⟨e, he⟩, -⟩
  simp at he

/-- What qualifying a comment answers. -/
def qualifyAnswer (scope : Scope) (s : Session) (filename : Path) (comment : Text) :
    Except Failure Text :=
  match s.cached? scope filename with
  | none => .error (.unknownFile filename s.phase)
  | some info => .ok (qualifiedIn s.index info comment)

theorem meets_qualifyComment_qualify (hphase : s.phase = .qualify) (filename : Path)
    (comment : Text) :
    (qualifyComment scope filename comment).Meets s fun r s' =>
      r = qualifyAnswer scope s filename comment ∧ Advances False s s' := by
  unfold qualifyAnswer
  cases hcached : s.cached? scope filename with
  | none =>
      unfold qualifyComment
      apply Op.meets_get_bind
      rw [hcached]
      exact Op.meets_fail ⟨rfl, .of_eq rfl rfl rfl⟩
  | some info =>
      refine Op.Meets.mono (answers_qualifyComment hcached comment) ?_
      intro r s' h
      rcases h with ⟨hanswer, -⟩
      obtain ⟨hr, hs'⟩ := hanswer trivial
      subst hs'
      exact ⟨hr, .of_eq hphase.symm rfl rfl⟩

/-! ## Calls in any order -/

/-- A call of one of the passes, with the disk that it finds. -/
inductive Call
  | takeIn (disk : Disk) (filename : Path) (t : Text)
  | linkImports (disk : Disk) (filename : Path) (t : Text)
  | qualifyComment (filename : Path) (comment : Text)

/-- The operation that a call starts. -/
def Call.op (scope : Scope) : Call → Op Session Text
  | takeIn disk filename t => Session.takeIn scope (.still disk) filename t
  | linkImports disk filename t => Session.linkImports scope (.still disk) filename t
  | qualifyComment filename comment => Session.qualifyComment scope filename comment

/-- The call links a text that reaches a file not met before. -/
def Call.Ingests (scope : Scope) (s : Session) : Call → Prop
  | takeIn _ _ _ => False
  | linkImports disk filename t =>
      s.Reaches scope disk (scope.normalize filename) (commentRefs t)
  | qualifyComment _ _ => False

/-- The session after some calls, whether they fail or not. -/
def afterCalls (scope : Scope) : List Call → Log → Session → Session
  | [], _, s => s
  | call :: calls, log, s =>
      afterCalls scope calls (call.op scope log s).log (call.op scope log s).state

/-- One of the calls meets a file that was not met before. -/
def SomeIngests (scope : Scope) : List Call → Log → Session → Prop
  | [], _, _ => False
  | call :: calls, log, s =>
      call.Ingests scope s ∨
        SomeIngests scope calls (call.op scope log s).log (call.op scope log s).state

/-- What one call does while comments are qualified. -/
theorem Call.meets_op (hphase : s.phase = .qualify) (call : Call) :
    (call.op scope).Meets s fun _ s' => Advances (call.Ingests scope s) s s' := by
  cases call with
  | takeIn disk filename t =>
      refine (meets_takeIn_qualify hphase _ filename t).mono ?_
      rintro _ s' rfl
      exact .of_eq rfl rfl rfl
  | linkImports disk filename t => exact meets_linkImports_advances filename t
  | qualifyComment filename comment =>
      exact (meets_qualifyComment_qualify hphase filename comment).mono fun _ _ h => h.2

/-- What a sequence of calls does while comments are qualified. -/
theorem advances_afterCalls (hphase : s.phase = .qualify) (calls : List Call) (log : Log) :
    Advances (SomeIngests scope calls log s) s (afterCalls scope calls log s) := by
  induction calls generalizing s log with
  | nil => exact .of_eq rfl rfl rfl
  | cons call calls ih =>
      have hcall : Advances (call.Ingests scope s) s (call.op scope log s).state :=
        call.meets_op hphase log
      have hrest := ih (hcall.phase.trans hphase) (call.op scope log s).log
      exact hcall.trans hrest

theorem SomeIngests.append {front : List Call} {log : Log} (h : SomeIngests scope front log s)
    (rest : List Call) : SomeIngests scope (front ++ rest) log s := by
  induction front generalizing s log with
  | nil => exact h.elim
  | cons call front ih =>
      rcases h with hcall | hfront
      · exact .inl hcall
      · exact .inr (ih hfront)

/-- While comments are qualified, calls of the passes leave the files met as they are exactly when
no call links a text that reaches a file not met before. Then cache and index are the same after
each of the calls, and so is what qualifying a comment answers. -/
theorem files_stay_iff_none_ingests (hphase : s.phase = .qualify) (calls : List Call) (log : Log) :
    (afterCalls scope calls log s).phase = .qualify ∧
      ((∀ p, p ∈ OrderedMap.keys (afterCalls scope calls log s).cache ↔
          p ∈ OrderedMap.keys s.cache) ↔ ¬SomeIngests scope calls log s) ∧
      (¬SomeIngests scope calls log s → ∀ front, front <+: calls →
        (afterCalls scope front log s).cache = s.cache ∧
        (afterCalls scope front log s).index = s.index ∧
        ∀ filename comment before after,
          (qualifyComment scope filename comment after (afterCalls scope front log s)).answer =
            (qualifyComment scope filename comment before s).answer) := by
  have hcalls : Advances (SomeIngests scope calls log s) s (afterCalls scope calls log s) :=
    advances_afterCalls hphase calls log
  refine ⟨hcalls.phase.trans hphase, hcalls.keys_iff, ?_⟩
  intro hnone front hprefix
  rcases hprefix with ⟨rest, rfl⟩
  have hfront : Advances (SomeIngests scope front log s) s (afterCalls scope front log s) :=
    advances_afterCalls hphase front log
  obtain ⟨hcache, hindex⟩ := hfront.closed fun hsome => hnone (hsome.append rest)
  refine ⟨hcache, hindex, fun filename comment before after => ?_⟩
  have hphase' := hfront.phase.trans hphase
  rw [(meets_qualifyComment_qualify hphase filename comment before).1,
    (meets_qualifyComment_qualify hphase' filename comment after).1]
  unfold qualifyAnswer cached?
  rw [hcache, hindex, hfront.phase]

/-- A disk with one file, of the module `m`, which declares the type `T`. -/
def lateDisk : Disk :=
  ⟨.sub ['p'] (.file ['b', '.', 'j', 's']
    (Encoding.encodeUtf8 "/** @module m\n @typedef \x7bobject\x7d T */".toList) .empty) .empty,
    [['p']]⟩

def lateComment : Text := "/** @type \x7bT\x7d */".toList

/-- A session that has taken in another file of the module `m` and qualified one of its comments. -/
def lateStart : Session :=
  afterCalls Batch.sampleScope
    [.takeIn lateDisk Batch.samplePath "/** @module m */".toList,
      .qualifyComment Batch.samplePath lateComment] [] .fresh

/-- The file on the disk is imported by a text that comes late. -/
def lateCalls : List Call :=
  [.linkImports lateDisk Batch.samplePath "/** @type \x7bimport('./b').T\x7d */".toList]

set_option maxRecDepth 100000 in
/-- The late import brings its file in, and the same comment is then qualified in another way. -/
theorem late_import_ingests :
    lateStart.phase = .qualify ∧ SomeIngests Batch.sampleScope lateCalls [] lateStart ∧
      (qualifyComment Batch.sampleScope Batch.samplePath lateComment [] lateStart).answer =
        .ok lateComment ∧
      (qualifyComment Batch.sampleScope Batch.samplePath lateComment []
        (afterCalls Batch.sampleScope lateCalls [] lateStart)).answer =
        .ok "/** @type \x7bmodule:m~T\x7d */".toList := by
  have hphase : lateStart.phase = .qualify := by decide +kernel
  have hnew : "/p/b.js".toList ∈
      OrderedMap.keys (afterCalls Batch.sampleScope lateCalls [] lateStart).cache := by
    decide +kernel
  have hold : "/p/b.js".toList ∉ OrderedMap.keys lateStart.cache := by decide +kernel
  obtain ⟨-, hstay, -⟩ := files_stay_iff_none_ingests hphase lateCalls []
  refine ⟨hphase, ?_, by decide +kernel, by decide +kernel⟩
  by_contra hnone
  exact hold ((hstay.mpr hnone _).mp hnew)

end Session

end DocRefs
