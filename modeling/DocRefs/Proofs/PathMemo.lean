import Mathlib
import DocRefs.Proofs.PathParts
import DocRefs.Proofs.Requests

/-!
# Paths that a session remembers

A session keeps the path of an import under one text that is put together from the importer and the
specifier. An importer may hold any characters, but a specifier that the search for references
admits holds no colon, so the text still tells the two. On a disk that stays as it is, every path
remembered is therefore the one that the disk has for its import, whatever was asked before, and
remembering changes no answer.
-/

namespace DocRefs

/-- A specifier of the characters that the search for references admits. -/
def Specifier.IsAdmitted (specifier : Text) : Prop := ∀ c ∈ specifier, isNameChar c = true

theorem Specifier.IsAdmitted.colon_notMem {specifier : Text} (h : IsAdmitted specifier) :
    ':' ∉ specifier := fun hmem => ImportRef.isNameChar_ne (h _ hmem) rfl rfl

theorem isAdmitted_of_mem_commentRefs {t : Text} {r : Nat × ImportRef} (hr : r ∈ commentRefs t) :
    Specifier.IsAdmitted r.2.specifier := (shaped_of_mem_commentRefs hr).specifier_chars

/-- The path of an import on a disk; a bare specifier has none. -/
def pathOf (scope : Scope) (disk : Disk) (importer : Path) (specifier : Text) :
    Except Failure (Option Path) :=
  if Specifier.isRelative specifier then (targetOf scope disk importer specifier).map some
  else .ok none

namespace Session

/-- Every path that the session remembers is the one that the disk has for some import. -/
def Recalls (scope : Scope) (disk : Disk) (s : Session) : Prop :=
  ∀ key p, s.memo.get? key = some p → ∃ importer specifier, Specifier.IsAdmitted specifier ∧
    key = memoKey importer specifier ∧ targetOf scope disk importer specifier = .ok p

variable {scope : Scope} {disk : Disk} {s : Session} {importer filename : Path} {specifier : Text}

theorem recalls_of_memo_eq_nil (h : s.memo = []) : s.Recalls scope disk := by
  intro key p hp
  simp [h] at hp

theorem Recalls.targetOf {p : Path} (h : s.Recalls scope disk)
    (hadmitted : Specifier.IsAdmitted specifier)
    (hp : s.memo.get? (memoKey importer specifier) = some p) :
    targetOf scope disk importer specifier = .ok p := by
  obtain ⟨importer', specifier', hadmitted', hkey, htarget⟩ := h _ p hp
  obtain ⟨rfl, rfl⟩ := memoKey_inj hadmitted.colon_notMem hadmitted'.colon_notMem hkey
  exact htarget

theorem Recalls.remember {p : Path} (h : s.Recalls scope disk)
    (hadmitted : Specifier.IsAdmitted specifier)
    (htarget : DocRefs.targetOf scope disk importer specifier = .ok p) :
    (s.remember importer specifier p).Recalls scope disk := by
  intro key q hq
  rw [remember_memo, OrderedMap.get?_put] at hq
  split at hq
  next hkey =>
    obtain rfl := Option.some.inj hq
    exact ⟨importer, specifier, hadmitted, hkey.symm, htarget⟩
  next => exact h key q hq

/-! ## What operations remember -/

/-- The path that is answered is the one that the disk has, whether it was remembered or not. -/
theorem meets_resolvePath_recalls (hs : s.Recalls scope disk) (filename : Path)
    (hadmitted : Specifier.IsAdmitted specifier) :
    (resolvePath scope (.still disk) filename specifier).Meets s fun r s' =>
      r = pathOf scope disk (scope.normalize filename) specifier ∧ s'.Recalls scope disk := by
  unfold pathOf
  by_cases hrelative : Specifier.isRelative specifier = true
  · rw [if_pos hrelative]
    cases hmemo : s.memo.get? (memoKey (scope.normalize filename) specifier) with
    | some p =>
        refine (meets_resolvePath_of_memo hrelative hmemo).mono ?_
        rintro r s' ⟨rfl, rfl⟩
        rw [hs.targetOf hadmitted hmemo]
        exact ⟨rfl, hs⟩
    | none =>
        refine (meets_resolvePath_of_new hrelative hmemo).mono ?_
        rintro r s' ⟨rfl, hremember, hsame⟩
        refine ⟨rfl, ?_⟩
        cases htarget : DocRefs.targetOf scope disk (scope.normalize filename) specifier with
        | ok p =>
            rw [hremember p (by rw [htarget]; rfl)]
            exact hs.remember hadmitted htarget
        | error e =>
            rw [hsame e (by rw [htarget]; rfl)]
            exact hs
  · rw [resolvePath, if_neg hrelative, if_neg hrelative]
    exact Op.meets_pure ⟨rfl, hs⟩

theorem meets_identity_recalls {view : View} (hs : s.Recalls scope disk) (filename : Path)
    (source : Option Text) :
    (identity scope view filename source).Meets s fun _ s' => s'.Recalls scope disk := by
  refine (meets_identity_cases filename source).mono ?_
  rintro r s' (⟨rfl, -⟩ | ⟨t, info, -, -, -, rfl⟩)
  · exact hs
  · exact hs

theorem meets_resolve_recalls (hs : s.Recalls scope disk) (filename : Path)
    (hadmitted : Specifier.IsAdmitted specifier) :
    (resolve scope (.still disk) filename specifier).Meets s fun _ s' =>
      s'.Recalls scope disk := by
  refine (meets_resolvePath_recalls hs filename hadmitted).bind (fun _ _ h => h.2) ?_
  rintro p? s' ⟨-, hs'⟩
  cases p? with
  | none => exact Op.meets_pure hs'
  | some p =>
      exact (meets_identity_recalls hs' p none).bind (fun _ _ h => h) fun _ _ h => Op.meets_pure h

theorem meets_linkImports_recalls (hs : s.Recalls scope disk) (filename : Path) (t : Text) :
    (linkImports scope (.still disk) filename t).Meets s fun _ s' => s'.Recalls scope disk := by
  have hsubstitution : ∀ r ∈ commentRefs t, ∀ s : Session, s.Recalls scope disk →
      (substitution? scope (.still disk) filename r.1 r.2).Meets s fun _ s' =>
        s'.Recalls scope disk := by
    intro r hr s hs
    exact (meets_resolve_recalls hs filename (isAdmitted_of_mem_commentRefs hr)).bind
      (fun _ _ h => h) fun _ _ h => Op.meets_pure h
  unfold linkImports
  refine (Op.meets_collect_keeps hsubstitution hs).bind (fun _ _ h => h) fun found s' hs' => ?_
  dsimp only
  split
  · exact Op.meets_pure hs'
  · exact Op.meets_modify_bind (Op.meets_log_bind (Op.meets_pure hs'))

theorem meets_takeIn_recalls (hs : s.Recalls scope disk) (filename : Path) (t : Text) :
    (takeIn scope (.still disk) filename t).Meets s fun _ s' => s'.Recalls scope disk := by
  have hrequire : (requireIngest (some filename)).Meets s fun _ s' => s'.Recalls scope disk := by
    refine (meets_requireIngest (some filename)).mono ?_
    rintro r s' ⟨-, rfl⟩
    exact hs
  refine hrequire.bind (fun _ _ h => h) fun _ s' hs' => ?_
  refine (meets_identity_recalls hs' filename (some t)).bind (fun _ _ h => h) fun _ s'' hs'' => ?_
  exact meets_linkImports_recalls hs'' filename t

theorem meets_qualifyComment_recalls (hs : s.Recalls scope disk) (filename : Path)
    (comment : Text) :
    (qualifyComment scope filename comment).Meets s fun _ s' => s'.Recalls scope disk := by
  cases hcached : s.cached? scope filename with
  | none =>
      unfold qualifyComment
      apply Op.meets_get_bind
      rw [hcached]
      exact Op.meets_fail hs
  | some info =>
      refine Op.Meets.mono (answers_qualifyComment hcached comment) ?_
      intro r s' h
      obtain ⟨-, rfl⟩ := h.1 trivial
      exact hs

/-! ## What requests remember -/

/-- The request looks up imports on the disk, and only admitted ones. -/
def Request.Admits (disk : Disk) : Request → Prop
  | takeIn view _ _ => view = .still disk
  | linkImports view _ _ => view = .still disk
  | resolve view _ specifier => view = .still disk ∧ Specifier.IsAdmitted specifier
  | resolvePath view _ specifier => view = .still disk ∧ Specifier.IsAdmitted specifier
  | qualifyComment _ _ | identity _ _ _ | reset => True

theorem Request.meets_op_recalls {request : Request} (hrequest : request.Admits disk)
    (hs : s.Recalls scope disk) :
    (request.op scope).Meets s fun _ s' => s'.Recalls scope disk := by
  have hforget : ∀ {α : Type} {m : Op Session α}, m.Meets s (fun _ s' => s'.Recalls scope disk) →
      (m >>= fun _ => (pure () : Op Session Unit)).Meets s fun _ s' => s'.Recalls scope disk :=
    fun hm => hm.bind (fun _ _ h => h) fun _ _ h => Op.meets_pure h
  cases request with
  | takeIn view filename t =>
      obtain rfl : view = .still disk := hrequest
      exact hforget (meets_takeIn_recalls hs filename t)
  | linkImports view filename t =>
      obtain rfl : view = .still disk := hrequest
      exact hforget (meets_linkImports_recalls hs filename t)
  | qualifyComment filename comment =>
      exact hforget (meets_qualifyComment_recalls hs filename comment)
  | resolve view filename specifier =>
      obtain ⟨rfl, hadmitted⟩ := hrequest
      exact hforget (meets_resolve_recalls hs filename hadmitted)
  | resolvePath view filename specifier =>
      obtain ⟨rfl, hadmitted⟩ := hrequest
      exact hforget ((meets_resolvePath_recalls hs filename hadmitted).mono fun _ _ h => h.2)
  | identity view filename source => exact hforget (meets_identity_recalls hs filename source)
  | reset => exact fun _ => recalls_of_memo_eq_nil rfl

theorem recalls_afterRequests {requests : List Request}
    (hrequests : ∀ request ∈ requests, request.Admits disk) (hs : s.Recalls scope disk)
    (log : Log) : (afterRequests scope requests log s).Recalls scope disk := by
  induction requests generalizing log s with
  | nil => exact hs
  | cons request requests ih =>
      obtain ⟨hrequest, hrequests⟩ := List.forall_mem_cons.mp hrequests
      exact ih hrequests (Request.meets_op_recalls hrequest hs log) _

/-! ## The answer -/

theorem pathOf_congr {importer' : Path} {specifier' : Text}
    (hrelative : Specifier.isRelative specifier = Specifier.isRelative specifier')
    (hcandidate : candidate importer specifier = candidate importer' specifier')
    (hextension : Path.extension importer = Path.extension importer') :
    pathOf scope disk importer specifier = pathOf scope disk importer' specifier' := by
  unfold pathOf DocRefs.targetOf preferredBy
  rw [hrelative, hcandidate, hextension]

/-- **Remembering paths changes no answer.** On a disk that stays as it is, after any requests whose
specifiers are admitted: the path of an import is answered as by a session that remembers none; for
relative specifiers it depends on nothing but the joined path and the extension of the importer,
which normalising leaves alone when the last step of the importer is a name; and two imports are
never kept under one key. -/
theorem resolvePath_transparent (scope : Scope) (disk : Disk) {before : List Request}
    (hbefore : ∀ request ∈ before, request.Admits disk) (start : Log) :
    let s := afterRequests scope before start .fresh
    (∀ filename specifier, Specifier.IsAdmitted specifier → ∀ log log' blank, blank.memo = [] →
      (resolvePath scope (.still disk) filename specifier log s).answer =
        (resolvePath scope (.still disk) filename specifier log' blank).answer) ∧
    (∀ filename specifier filename' specifier',
      Specifier.IsAdmitted specifier → Specifier.IsAdmitted specifier' →
      Specifier.isRelative specifier = true → Specifier.isRelative specifier' = true →
      candidate (scope.normalize filename) specifier =
        candidate (scope.normalize filename') specifier' →
      Path.extension (scope.normalize filename) = Path.extension (scope.normalize filename') →
      ∀ log log', (resolvePath scope (.still disk) filename specifier log s).answer =
        (resolvePath scope (.still disk) filename' specifier' log' s).answer) ∧
    (Path.isAbsolute scope.cwd = true → ∀ filename, Path.IsName (Path.basename filename) →
      Path.extension (scope.normalize filename) = Path.extension filename) ∧
    Set.InjOn (fun pair : Path × Text => memoKey pair.1 pair.2)
      { pair | Specifier.IsAdmitted pair.2 } := by
  intro s
  have hs : s.Recalls scope disk := recalls_afterRequests hbefore (recalls_of_memo_eq_nil rfl) start
  have hanswer : ∀ {s : Session}, s.Recalls scope disk → ∀ filename specifier,
      Specifier.IsAdmitted specifier → ∀ log,
        (resolvePath scope (.still disk) filename specifier log s).answer =
          pathOf scope disk (scope.normalize filename) specifier :=
    fun hs filename _ hadmitted log => (meets_resolvePath_recalls hs filename hadmitted log).1
  refine ⟨?_, ?_, ?_, ?_⟩
  · intro filename specifier hadmitted log log' blank hblank
    rw [hanswer hs filename specifier hadmitted,
      hanswer (recalls_of_memo_eq_nil hblank) filename specifier hadmitted]
  · intro filename specifier filename' specifier' hadmitted hadmitted' hrelative hrelative'
      hcandidate hextension log log'
    rw [hanswer hs filename specifier hadmitted, hanswer hs filename' specifier' hadmitted',
      pathOf_congr (hrelative.trans hrelative'.symm) hcandidate hextension]
  · intro hcwd filename hname
    rw [← Path.extension_basename, Scope.normalize, Path.basename_normalize hcwd hname,
      Path.extension_basename]
  · intro pair hpair pair' hpair' hkey
    exact Prod.ext_iff.mpr (memoKey_inj hpair.colon_notMem hpair'.colon_notMem hkey)

/-- A disk with one file, of an extension that only an importer can prefer. -/
def oddDisk : Disk := ⟨.sub ['p'] (.file "a.odd".toList [] .empty) .empty, [['p']]⟩

set_option maxRecDepth 100000 in
/-- A bare specifier has no path although it is joined to the same one, and a slash behind the
importer hides its extension only until it is normalised. -/
theorem joined_path_is_not_enough :
    let answerOf := fun (filename : Path) (specifier : Text) =>
      (resolvePath Batch.sampleScope (.still oddDisk) filename specifier [] .fresh).answer
    let joined := fun (filename : Path) (specifier : Text) =>
      candidate (Batch.sampleScope.normalize filename) specifier
    (joined "/p/x.odd".toList "a".toList = joined "/p/x.odd".toList "./a".toList ∧
        answerOf "/p/x.odd".toList "a".toList = .ok none ∧
        answerOf "/p/x.odd".toList "./a".toList = .ok (some "/p/a.odd".toList)) ∧
      (joined "/p/x".toList "./a".toList = joined "/p/x.odd/".toList "./a".toList ∧
        Path.extension "/p/x".toList = Path.extension "/p/x.odd/".toList ∧
        answerOf "/p/x".toList "./a".toList = .ok (some "/p/a".toList) ∧
        answerOf "/p/x.odd/".toList "./a".toList = .ok (some "/p/a.odd".toList)) := by
  refine ⟨⟨?_, ?_, ?_⟩, ?_, ?_, ?_, ?_⟩ <;> decide +kernel

/-- Importers whose names end with colons, and one that spells another. -/
def colonRequests : List Request :=
  [.resolvePath (.still Batch.sampleDisk) "/p/c::".toList "./a".toList,
    .resolve (.still Batch.sampleDisk) "/p/c".toList "./b".toList,
    .linkImports (.still Batch.sampleDisk) "/p/c:".toList Batch.sampleText]

set_option maxRecDepth 100000 in
theorem colon_importers_transparent :
    (∀ request ∈ colonRequests, request.Admits Batch.sampleDisk) ∧
      (afterRequests Batch.sampleScope colonRequests [] .fresh).memo.length = 3 ∧
      (resolvePath Batch.sampleScope (.still Batch.sampleDisk) "d/../c::".toList "./a".toList []
        (afterRequests Batch.sampleScope colonRequests [] .fresh)).answer =
          .ok (some "/p/a.js".toList) := by
  have ha : Specifier.IsAdmitted "./a".toList := List.all_eq_true.mp (by decide +kernel)
  have hb : Specifier.IsAdmitted "./b".toList := List.all_eq_true.mp (by decide +kernel)
  have hrequests : ∀ request ∈ colonRequests, request.Admits Batch.sampleDisk := by
    intro request hrequest
    simp only [colonRequests, List.mem_cons, List.not_mem_nil, or_false] at hrequest
    rcases hrequest with rfl | rfl | rfl
    · exact ⟨rfl, ha⟩
    · exact ⟨rfl, hb⟩
    · exact rfl
  obtain ⟨htransparent, -⟩ :=
    resolvePath_transparent Batch.sampleScope Batch.sampleDisk hrequests []
  refine ⟨hrequests, by decide +kernel, ?_⟩
  rw [htransparent _ _ ha [] [] .fresh rfl]
  decide +kernel

end Session

end DocRefs
