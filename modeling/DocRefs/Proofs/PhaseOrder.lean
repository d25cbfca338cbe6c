import Mathlib
import DocRefs.Proofs.Requests

/-!
# The order of phases

Which requests come too early or too late is told by the history of a session. Files can be taken in
until a comment has been qualified, and the comments of a file can be qualified once its identity
has been answered, be it for a request of its own, for a file that is taken in, or for the file that
an import leads to. A request that is refused for its phase leaves the session as it was.
-/

namespace DocRefs

/-! ## Failures that are about the phase -/

/-- The failure is reported as a request in the wrong phase. -/
def Failure.IsPhaseOrder (e : Failure) : Prop := e.report?.map Report.kind = some .phaseOrder

/-- The answer is a failure that is reported as a request in the wrong phase. -/
def Refused {α : Type} (r : Except Failure α) : Prop := ∃ e, r = .error e ∧ e.IsPhaseOrder

@[simp]
theorem not_refused_ok {α : Type} (a : α) : ¬Refused (.ok a : Except Failure α) := by
  simp [Refused]

@[simp]
theorem refused_error {α : Type} {e : Failure} :
    Refused (.error e : Except Failure α) ↔ e.IsPhaseOrder := by
  simp [Refused]

theorem Failure.isPhaseOrder_iff {e : Failure} :
    e.IsPhaseOrder ↔ (∃ file phase, e = .ingestTooLate file phase) ∨
      ∃ file phase, e = .unknownFile file phase := by
  cases e <;> simp [IsPhaseOrder, report?, Report.configuration, Report.sourceRoot,
    Report.phaseOrder]

theorem Failure.not_isPhaseOrder {e : Failure} (h : e.report? = none) : ¬e.IsPhaseOrder := by
  rw [IsPhaseOrder, h]
  simp

theorem error_of_bind {α β : Type} {x : Except Failure α} {f : α → Except Failure β} {e : Failure}
    (h : (x >>= f) = .error e) : x = .error e ∨ ∃ a, x = .ok a ∧ f a = .error e := by
  cases x with
  | error e' => exact .inl (congrArg Except.error (Except.error.inj h))
  | ok a => exact .inr ⟨a, rfl, h⟩

theorem Encoding.report?_of_objection? {v : Value} {e : Failure} (h : objection? v = some e) :
    e.report? = none := by
  unfold objection? at h
  split at h
  · simp at h
  · split at h
    · rw [← Option.some.inj h]
      rfl
    · simp at h
  · rw [← Option.some.inj h]
    rfl

theorem Encoding.report?_of_ofValue {v : Value} {e : Failure} (h : ofValue v = .error e) :
    e.report? = none := by
  unfold ofValue at h
  split at h
  · simp at h
  · split at h
    · simp at h
    · rw [← Except.error.inj h]
      rfl
  · rw [← Except.error.inj h]
    rfl

/-- A file that cannot be read as text gives a failure without a report. -/
theorem Disk.report?_of_readText {d : Disk} {encoding : Value} {p : Path} {e : Failure}
    (h : d.readText encoding p = .error e) : e.report? = none := by
  unfold readText at h
  split at h
  next e' hobjection =>
    obtain rfl := Except.error.inj h
    exact Encoding.report?_of_objection? hobjection
  next =>
    split at h
    next why _ =>
      rw [← Except.error.inj h]
      rfl
    next content _ =>
      rcases error_of_bind h with hencoding | ⟨enc, -, h⟩
      · exact Encoding.report?_of_ofValue hencoding
      · split at h
        · obtain rfl : Failure.undecodable = e := Except.error.inj h
          rfl
        · simp [pure, Except.pure] at h

theorem Disk.report?_of_listOrEmpty {d : Disk} {p : Path} {e : Failure}
    (h : d.listOrEmpty p = .error e) : e.report? = none := by
  unfold listOrEmpty at h
  split at h
  · simp at h
  · simp at h
  · simp at h
  · rw [← Except.error.inj h]
    rfl

/-- An identity that cannot be derived is no matter of the phase. -/
theorem FileIdentity.not_isPhaseOrder_of_ofText {roots : List Path} {p : Path} {t : Text}
    {e : Failure} (h : ofText roots p t = .error e) : ¬e.IsPhaseOrder := by
  unfold ofText at h
  dsimp only at h
  split at h
  · simp [pure, Except.pure, Bind.bind, Except.bind] at h
  · rcases error_of_bind h with hid | ⟨id, -, h⟩
    · unfold derivedId at hid
      split at hid
      · simp at hid
      · obtain rfl := Except.error.inj hid
        simp [Failure.isPhaseOrder_iff]
    · simp [pure, Except.pure] at h
  · simp [pure, Except.pure, Bind.bind, Except.bind] at h

theorem report?_of_stemMatch? {disk : Disk} {preferred : List Text} {directory : Path}
    {stem : Text} {e : Failure} (h : stemMatch? disk preferred directory stem = .error e) :
    e.report? = none := by
  rcases error_of_bind h with hnames | ⟨names, -, h⟩
  · exact Disk.report?_of_listOrEmpty hnames
  · dsimp only at h
    split at h <;> simp [pure, Except.pure] at h

/-- A file that cannot be looked for gives a failure without a report. -/
theorem report?_of_target? {disk : Disk} {preferred : List Text} {p : Path} {e : Failure}
    (h : target? disk preferred p = .error e) : e.report? = none := by
  unfold target? at h
  split at h
  · simp [pure, Except.pure] at h
  · rcases error_of_bind h with hfile | ⟨name?, -, h⟩
    · exact report?_of_stemMatch? hfile
    · split at h
      · simp [pure, Except.pure] at h
      · split at h
        · rcases error_of_bind h with hindex | ⟨index?, -, h⟩
          · exact report?_of_stemMatch? hindex
          · simp [pure, Except.pure] at h
        · simp [pure, Except.pure] at h

namespace Session

variable {scope : Scope} {view : View} {s : Session} {α β : Type} {m : Op Session α}
  {f : α → Op Session β}

/-! ## What the phase depends on -/

/-- The operation stays in its phase, and it is not refused for it. -/
def StaysInPhase (m : Op Session α) : Prop :=
  ∀ s, m.Meets s fun r s' => s'.phase = s.phase ∧ ¬Refused r

theorem staysInPhase_pure (a : α) : StaysInPhase (pure a : Op Session α) :=
  fun _ => Op.meets_pure ⟨rfl, not_refused_ok a⟩

theorem staysInPhase_fail {e : Failure} (h : ¬e.IsPhaseOrder) :
    StaysInPhase (Op.fail e : Op Session α) :=
  fun _ => Op.meets_fail ⟨rfl, by rwa [refused_error]⟩

theorem staysInPhase_ofExcept {x : Except Failure α} (h : ∀ e, x = .error e → ¬e.IsPhaseOrder) :
    StaysInPhase (Op.ofExcept x) :=
  fun _ => Op.meets_ofExcept ⟨rfl, fun ⟨e, he, hphase⟩ => h e he hphase⟩

theorem staysInPhase_modify {g : Session → Session} (hg : ∀ s, (g s).phase = s.phase) :
    StaysInPhase (Op.modify g) :=
  fun s _ => ⟨hg s, not_refused_ok ()⟩

theorem staysInPhase_log (level : Log.Level) (source : String) (message : Text) :
    StaysInPhase (Op.log level source message) :=
  fun _ _ => ⟨rfl, not_refused_ok ()⟩

theorem staysInPhase_get : StaysInPhase Op.get := fun s _ => ⟨rfl, not_refused_ok s⟩

theorem staysInPhase_see (view : View) : StaysInPhase (Op.see view) :=
  fun _ log => ⟨rfl, not_refused_ok (view log)⟩

theorem StaysInPhase.bind (hm : StaysInPhase m) (hf : ∀ a, StaysInPhase (f a)) :
    StaysInPhase (m >>= f) := by
  intro s
  refine (hm s).bind (fun _ _ h => ?_) fun a s' h => ?_
  · rwa [refused_error] at h ⊢
  · exact (hf a s').mono fun _ _ h' => ⟨h'.1.trans h.1, h'.2⟩

theorem staysInPhase_collect (hf : ∀ a, StaysInPhase (f a)) (as : List α) :
    StaysInPhase (Op.collect f as) := by
  induction as with
  | nil => exact staysInPhase_pure _
  | cons a as ih => exact (hf a).bind fun _ => ih.bind fun _ => staysInPhase_pure _

theorem staysInPhase_sourceText (p : Path) : StaysInPhase (sourceText scope view p) := by
  refine (staysInPhase_see view).bind fun disk => ?_
  split
  · split
    · exact staysInPhase_pure _
    · exact (staysInPhase_log _ _ _).bind fun _ => staysInPhase_pure _
    next e _ hread =>
      exact staysInPhase_fail (Failure.not_isPhaseOrder (Disk.report?_of_readText hread))
  · exact (staysInPhase_log _ _ _).bind fun _ => staysInPhase_pure _

theorem staysInPhase_identity (filename : Path) (source : Option Text) :
    StaysInPhase (identity scope view filename source) := by
  refine staysInPhase_get.bind fun s => ?_
  split
  · exact staysInPhase_pure _
  · have htext : StaysInPhase (source.elim (sourceText scope view (scope.normalize filename))
        pure) := by
      cases source with
      | none => exact staysInPhase_sourceText _
      | some t => exact staysInPhase_pure t
    refine htext.bind fun t => ?_
    refine (staysInPhase_ofExcept fun _ => FileIdentity.not_isPhaseOrder_of_ofText).bind
      fun info => ?_
    refine StaysInPhase.bind (staysInPhase_modify fun _ => rfl) fun _ => ?_
    exact (staysInPhase_log _ _ _).bind fun _ => staysInPhase_pure _

theorem staysInPhase_resolvePath (filename : Path) (specifier : Text) :
    StaysInPhase (resolvePath scope view filename specifier) := by
  unfold resolvePath
  split
  · refine staysInPhase_get.bind fun s => ?_
    split
    · exact staysInPhase_pure _
    · refine (staysInPhase_see view).bind fun disk => ?_
      refine StaysInPhase.bind (staysInPhase_ofExcept fun _ h =>
        Failure.not_isPhaseOrder (report?_of_target? h)) fun found? => ?_
      dsimp only
      split
      · refine (staysInPhase_log _ _ _).bind fun _ => ?_
        refine StaysInPhase.bind (staysInPhase_modify fun _ => rfl) fun _ => ?_
        exact (staysInPhase_log _ _ _).bind fun _ => staysInPhase_pure _
      · refine StaysInPhase.bind (staysInPhase_modify fun _ => rfl) fun _ => ?_
        exact (staysInPhase_log _ _ _).bind fun _ => staysInPhase_pure _
  · exact staysInPhase_pure _

theorem staysInPhase_resolve (filename : Path) (specifier : Text) :
    StaysInPhase (resolve scope view filename specifier) := by
  refine (staysInPhase_resolvePath filename specifier).bind fun p? => ?_
  split
  · exact staysInPhase_pure _
  · exact (staysInPhase_identity _ none).bind fun _ => staysInPhase_pure _

theorem staysInPhase_linkImports (filename : Path) (t : Text) :
    StaysInPhase (linkImports scope view filename t) := by
  have hfound := staysInPhase_collect (f := fun r : Nat × ImportRef =>
    substitution? scope view filename r.1 r.2)
    (fun r => (staysInPhase_resolve filename r.2.specifier).bind fun _ => staysInPhase_pure _)
    (commentRefs t)
  refine hfound.bind fun found => ?_
  dsimp only
  split
  · exact staysInPhase_pure _
  · refine StaysInPhase.bind (staysInPhase_modify fun _ => rfl) fun _ => ?_
    exact (staysInPhase_log _ _ _).bind fun _ => staysInPhase_pure _

theorem takeIn_of_ingest (h : s.phase = .ingest) (filename : Path) (t : Text) (log : Log) :
    takeIn scope view filename t log s =
      (identity scope view filename (some t) >>= fun _ => linkImports scope view filename t)
        log s := by
  have hrequire : requireIngest (some filename) log s = ⟨.ok (), s, log⟩ := by
    simp only [requireIngest, Op.bind_apply, Op.get, if_pos h]
    rfl
  rw [takeIn, Op.bind_of_ok (a := ()) (by rw [hrequire]), hrequire]

/-- A file is refused in the second phase, and only then. -/
theorem meets_takeIn_refused (filename : Path) (t : Text) :
    (takeIn scope view filename t).Meets s fun r s' =>
      s'.phase = s.phase ∧ (Refused r ↔ s.phase = .qualify) ∧ (Refused r → s' = s) := by
  intro log
  cases hphase : s.phase with
  | ingest =>
      rw [takeIn_of_ingest hphase]
      have hstays : StaysInPhase
          (identity scope view filename (some t) >>= fun _ => linkImports scope view filename t) :=
        (staysInPhase_identity filename (some t)).bind fun _ => staysInPhase_linkImports filename t
      obtain ⟨hsame, hnot⟩ := hstays s log
      exact ⟨hsame.trans hphase, by simpa using hnot, fun h => absurd h hnot⟩
  | qualify =>
      obtain ⟨hanswer, hstate⟩ := meets_requireIngest (s := s) (some filename) log
      rw [if_neg (by simp [hphase])] at hanswer
      rw [takeIn, Op.bind_of_error hanswer, hstate, hphase]
      exact ⟨rfl, by simp [Failure.isPhaseOrder_iff], fun _ => rfl⟩

/-- A comment is refused when its file was not met, and only then; otherwise the second phase
begins. -/
theorem meets_qualifyComment_refused (filename : Path) (comment : Text) :
    (qualifyComment scope filename comment).Meets s fun r s' =>
      (Refused r ↔ scope.normalize filename ∉ OrderedMap.keys s.cache) ∧
        ((Refused r ∧ s' = s) ∨
          (∃ t, r = .ok t) ∧ s'.phase = .qualify ∧ s'.cache = s.cache) := by
  cases hcached : s.cached? scope filename with
  | none =>
      have hnot := OrderedMap.get?_eq_none_iff.mp hcached
      unfold qualifyComment
      apply Op.meets_get_bind
      rw [hcached]
      have hrefused : Refused (.error (.unknownFile filename s.phase) : Except Failure Text) := by
        simp [Failure.isPhaseOrder_iff]
      exact Op.meets_fail ⟨iff_of_true hrefused hnot, .inl ⟨hrefused, rfl⟩⟩
  | some info =>
      have hmem := OrderedMap.mem_keys_of_get? hcached
      refine Op.Meets.mono (answers_qualifyComment hcached comment) ?_
      intro r s' h
      obtain ⟨rfl, rfl⟩ := h.1 trivial
      exact ⟨by simp [hmem], .inr ⟨⟨_, rfl⟩, rfl, rfl⟩⟩

/-! ## Identities that requests ask for -/

/-- While the request is served, the identity of `p` is asked for and answered. -/
inductive Identifies (scope : Scope) (p : Path) : Request → Log → Session → Prop
  | identity {view : View} {filename : Path} {source : Option Text} {log : Log} {s : Session}
      {info : FileIdentity} (hpath : scope.normalize filename = p)
      (hanswer : (Session.identity scope view filename source log s).answer = .ok info) :
      Identifies scope p (.identity view filename source) log s
  | target {view : View} {filename : Path} {specifier : Text} {log : Log} {s : Session} {q : Path}
      (hpath : (Session.resolvePath scope view filename specifier log s).answer = .ok (some q))
      (hnext : Identifies scope p (.identity view q none)
        (Session.resolvePath scope view filename specifier log s).log
        (Session.resolvePath scope view filename specifier log s).state) :
      Identifies scope p (.resolve view filename specifier) log s
  | reference {view : View} {filename : Path} {t : Text} {log : Log} {s : Session}
      {before after : List (Nat × ImportRef)} {r : Nat × ImportRef}
      {found : List (Option Replacement)} (hrefs : commentRefs t = before ++ r :: after)
      (hbefore : (Op.collect (fun r => substitution? scope view filename r.1 r.2) before
        log s).answer = .ok found)
      (hnext : Identifies scope p (.resolve view filename r.2.specifier)
        (Op.collect (fun r => substitution? scope view filename r.1 r.2) before log s).log
        (Op.collect (fun r => substitution? scope view filename r.1 r.2) before log s).state) :
      Identifies scope p (.linkImports view filename t) log s
  | own {view : View} {filename : Path} {t : Text} {log : Log} {s : Session}
      (hphase : s.phase = .ingest)
      (hnext : Identifies scope p (.identity view filename (some t)) log s) :
      Identifies scope p (.takeIn view filename t) log s
  | imports {view : View} {filename : Path} {t : Text} {log : Log} {s : Session}
      {info : FileIdentity} (hphase : s.phase = .ingest)
      (hanswer : (Session.identity scope view filename (some t) log s).answer = .ok info)
      (hnext : Identifies scope p (.linkImports view filename t)
        (Session.identity scope view filename (some t) log s).log
        (Session.identity scope view filename (some t) log s).state) :
      Identifies scope p (.takeIn view filename t) log s

variable {p : Path}

/-- A file is met by asking for its identity if it was not before. -/
theorem mem_keys_identity_iff (filename : Path) (source : Option Text) (log : Log) (s : Session) :
    p ∈ OrderedMap.keys (identity scope view filename source log s).state.cache ↔
      p ∈ OrderedMap.keys s.cache ∨ Identifies scope p (.identity view filename source) log s := by
  have hcases : (identity scope view filename source).Meets s _ :=
    meets_identity_cases filename source
  constructor
  · intro hmem
    rcases hcases log with ⟨hstate, -⟩ | ⟨t, info, hnew, -, hanswer, hstate⟩
    · rw [hstate] at hmem
      exact .inl hmem
    · rw [hstate, record_cache, OrderedMap.keys_put,
        if_neg (OrderedMap.get?_eq_none_iff.mp hnew), List.mem_append, List.mem_singleton] at hmem
      exact hmem.imp_right fun hp => .identity hp.symm hanswer
  · have hmoves : (identity scope view filename source).Meets s _ :=
      meets_identity_moves filename source
    obtain ⟨hmoves, hcached⟩ := hmoves log
    rintro (hmem | hidentifies)
    · obtain ⟨info, hinfo⟩ := OrderedMap.exists_get?_of_mem_keys hmem
      exact OrderedMap.mem_keys_of_get? (hmoves.extends.cache p info hinfo)
    · cases hidentifies with
      | identity hpath hanswer =>
          rw [← hpath]
          exact OrderedMap.mem_keys_of_get? (hcached _ hanswer)

theorem meets_resolvePath_cache (filename : Path) (specifier : Text) :
    (resolvePath scope view filename specifier).Meets s fun _ s' => s'.cache = s.cache := by
  unfold resolvePath
  split
  · apply Op.meets_get_bind
    split
    · exact Op.meets_pure rfl
    · refine Op.meets_view_bind fun disk => ?_
      refine Op.meets_ofExcept_bind (fun _ _ => rfl) fun found? _ => ?_
      dsimp only
      split <;> exact fun _ => rfl
  · exact Op.meets_pure rfl

theorem mem_keys_resolve_iff (filename : Path) (specifier : Text) (log : Log) (s : Session) :
    p ∈ OrderedMap.keys (resolve scope view filename specifier log s).state.cache ↔
      p ∈ OrderedMap.keys s.cache ∨
        Identifies scope p (.resolve view filename specifier) log s := by
  have hresolve : (resolvePath scope view filename specifier).Meets s _ :=
    meets_resolvePath_cache filename specifier
  have hcache := hresolve log
  cases hanswer : (resolvePath scope view filename specifier log s).answer with
  | error e =>
      rw [resolve, Op.bind_of_error hanswer, hcache]
      refine (or_iff_left fun hidentifies => ?_).symm
      cases hidentifies with
      | target hpath => simp [hanswer] at hpath
  | ok q? =>
      rw [resolve, Op.bind_of_ok hanswer]
      cases q? with
      | none =>
          refine Iff.trans (by rw [← hcache]; rfl) (or_iff_left fun hidentifies => ?_).symm
          cases hidentifies with
          | target hpath => simp [hanswer] at hpath
      | some q =>
          dsimp only
          rw [Op.state_bind_pure, mem_keys_identity_iff, hcache]
          refine or_congr_right ⟨.target hanswer, fun hidentifies => ?_⟩
          cases hidentifies with
          | target hpath hnext =>
              obtain rfl := Option.some.inj (Except.ok.inj (hanswer.symm.trans hpath))
              exact hnext

theorem mem_keys_linkImports_iff (filename : Path) (t : Text) (log : Log) (s : Session) :
    p ∈ OrderedMap.keys (linkImports scope view filename t log s).state.cache ↔
      p ∈ OrderedMap.keys s.cache ∨ Identifies scope p (.linkImports view filename t) log s := by
  have hcache : (linkImports scope view filename t log s).state.cache =
      (Op.collect (fun r => substitution? scope view filename r.1 r.2) (commentRefs t)
        log s).state.cache := by
    unfold linkImports
    cases hanswer : (Op.collect (fun r => substitution? scope view filename r.1 r.2)
        (commentRefs t) log s).answer with
    | error e => rw [Op.bind_of_error hanswer]
    | ok found =>
        rw [Op.bind_of_ok hanswer]
        split <;> rfl
  rw [hcache, Op.state_collect_iff (fun s => p ∈ OrderedMap.keys s.cache)
    (fun r => Identifies scope p (.resolve view filename r.2.specifier))]
  · refine or_congr_right ⟨?_, fun hidentifies => ?_⟩
    · rintro ⟨before, r, after, found, hrefs, hbefore, hnext⟩
      exact .reference hrefs hbefore hnext
    · cases hidentifies with
      | reference hrefs hbefore hnext => exact ⟨_, _, _, _, hrefs, hbefore, hnext⟩
  · intro r log s
    rw [substitution?, Op.state_bind_pure]
    exact mem_keys_resolve_iff filename r.2.specifier log s

theorem mem_keys_takeIn_iff (filename : Path) (t : Text) (log : Log) (s : Session) :
    p ∈ OrderedMap.keys (takeIn scope view filename t log s).state.cache ↔
      p ∈ OrderedMap.keys s.cache ∨ Identifies scope p (.takeIn view filename t) log s := by
  cases hphase : s.phase with
  | qualify =>
      have hrefused : (takeIn scope view filename t).Meets s _ := meets_takeIn_refused filename t
      obtain ⟨-, hiff, hsame⟩ := hrefused log
      rw [hsame (hiff.mpr hphase)]
      refine (or_iff_left fun hidentifies => ?_).symm
      cases hidentifies <;> simp_all
  | ingest =>
      rw [takeIn_of_ingest hphase]
      cases hanswer : (identity scope view filename (some t) log s).answer with
      | error e =>
          rw [Op.bind_of_error hanswer, mem_keys_identity_iff]
          refine or_congr_right ⟨.own hphase, fun hidentifies => ?_⟩
          cases hidentifies with
          | own _ hnext => exact hnext
          | imports _ hok => simp [hanswer] at hok
      | ok info =>
          rw [Op.bind_of_ok hanswer, mem_keys_linkImports_iff, mem_keys_identity_iff, or_assoc]
          refine or_congr_right ⟨?_, fun hidentifies => ?_⟩
          · rintro (hnext | hnext)
            · exact .own hphase hnext
            · exact .imports hphase hanswer hnext
          · cases hidentifies with
            | own _ hnext => exact .inl hnext
            | imports _ _ hnext => exact .inr hnext

/-! ## Histories -/

/-- Some request since the last reset has `good`, with what has been logged and the session when it
is served. -/
def Since (scope : Scope) (good : Request → Log → Session → Prop) :
    List Request → Log → Session → Prop
  | [], _, _ => False
  | request :: requests, log, s =>
      good request log s ∧ .reset ∉ requests ∨
        Since scope good requests (request.op scope log s).log (request.op scope log s).state

/-- The request is to qualify a comment, and it is answered. -/
def Qualifies (scope : Scope) : Request → Log → Session → Prop
  | .qualifyComment filename comment, log, s =>
      ∃ t, (qualifyComment scope filename comment log s).answer = .ok t
  | _, _, _ => False

/-- A condition that a reset makes false, and that any other request keeps and makes true when it is
`good`, holds when some request since the last reset was good. -/
theorem afterRequests_iff_since {cond : Session → Prop} {good : Request → Log → Session → Prop}
    (hfresh : ¬cond .fresh) (hreset : ∀ log s, ¬good .reset log s)
    (hstep : ∀ request log s, request ≠ .reset →
      (cond (request.op scope log s).state ↔ cond s ∨ good request log s))
    (requests : List Request) (log : Log) (s : Session) :
    cond (afterRequests scope requests log s) ↔
      cond s ∧ .reset ∉ requests ∨ Since scope good requests log s := by
  induction requests generalizing log s with
  | nil => simp [afterRequests, Since]
  | cons request requests ih =>
      rw [afterRequests, ih, Since]
      by_cases hrequest : request = .reset
      · subst hrequest
        have hforgotten : ¬cond (Request.reset.op scope log s).state := hfresh
        simp [hforgotten, hreset]
      · rw [hstep request log s hrequest, List.mem_cons]
        have hne : ¬Request.reset = request := fun h => hrequest h.symm
        tauto

/-- From the session that has learned nothing, the condition tells that a request was good. -/
theorem afterRequests_fresh_iff (cond : Session → Prop) {good : Request → Log → Session → Prop}
    (hfresh : ¬cond .fresh) (hreset : ∀ log s, ¬good .reset log s)
    (hstep : ∀ request log s, request ≠ .reset →
      (cond (request.op scope log s).state ↔ cond s ∨ good request log s))
    (requests : List Request) (log : Log) :
    cond (afterRequests scope requests log .fresh) ↔ Since scope good requests log .fresh :=
  (afterRequests_iff_since hfresh hreset hstep requests log .fresh).trans
    (or_iff_right fun h => hfresh h.1)

/-- Taking a file in or qualifying a comment is the only request that may be refused, and a refused
request changes nothing. -/
theorem Request.eq_of_refused (request : Request) :
    (request.op scope).Meets s fun r s' => Refused r → s' = s := by
  have hforget : ∀ {m : Op Session Text}, m.Meets s (fun r s' => Refused r → s' = s) →
      (m >>= fun _ => (pure () : Op Session Unit)).Meets s fun r s' => Refused r → s' = s := by
    intro m hm
    refine hm.bind (fun e s' h => by simpa using h) fun _ s' _ => ?_
    exact Op.meets_pure fun h => absurd h (not_refused_ok ())
  have hstays : ∀ {m : Op Session Unit}, StaysInPhase m →
      m.Meets s fun r s' => Refused r → s' = s :=
    fun hm => (hm s).mono fun _ _ h hrefused => absurd hrefused h.2
  cases request with
  | takeIn view filename t =>
      exact hforget ((meets_takeIn_refused filename t).mono fun _ _ h => h.2.2)
  | qualifyComment filename comment =>
      refine hforget ((meets_qualifyComment_refused filename comment).mono ?_)
      rintro r s' ⟨-, ⟨-, rfl⟩ | ⟨⟨t, rfl⟩, -⟩⟩ hrefused
      · rfl
      · exact absurd hrefused (not_refused_ok t)
  | linkImports view filename t =>
      exact hstays ((staysInPhase_linkImports filename t).bind fun _ => staysInPhase_pure ())
  | resolve view filename specifier =>
      exact hstays ((staysInPhase_resolve filename specifier).bind fun _ => staysInPhase_pure ())
  | resolvePath view filename specifier =>
      exact hstays ((staysInPhase_resolvePath filename specifier).bind fun _ =>
        staysInPhase_pure ())
  | identity view filename source =>
      exact hstays ((staysInPhase_identity filename source).bind fun _ => staysInPhase_pure ())
  | reset => exact fun _ h => absurd h (not_refused_ok ())

/-- The second phase begins with a comment that is qualified, and no other request but a reset ends
or begins it. -/
theorem Request.phase_iff (request : Request) (log : Log) (s : Session)
    (hreset : request ≠ .reset) :
    (request.op scope log s).state.phase = .qualify ↔
      s.phase = .qualify ∨ Qualifies scope request log s := by
  have hsame : ∀ {α : Type} {m : Op Session α}, (m log s).state.phase = s.phase →
      (((m >>= fun _ => (pure () : Op Session Unit)) log s).state.phase = .qualify ↔
        s.phase = .qualify ∨ False) := by
    intro α m hm
    rw [Op.state_bind_pure, hm, or_false]
  cases request with
  | takeIn view filename t =>
      have hrefused : (Session.takeIn scope view filename t).Meets s _ :=
        meets_takeIn_refused filename t
      exact hsame (hrefused log).1
  | linkImports view filename t => exact hsame (staysInPhase_linkImports filename t s log).1
  | resolve view filename specifier => exact hsame (staysInPhase_resolve filename specifier s log).1
  | resolvePath view filename specifier =>
      exact hsame (staysInPhase_resolvePath filename specifier s log).1
  | identity view filename source => exact hsame (staysInPhase_identity filename source s log).1
  | qualifyComment filename comment =>
      have hrefused : (Session.qualifyComment scope filename comment).Meets s _ :=
        meets_qualifyComment_refused filename comment
      rw [Request.op, Op.state_bind_pure, Qualifies]
      rcases (hrefused log).2 with ⟨⟨e, he, -⟩, hstate⟩ | ⟨hanswer, hphase, -⟩
      · simp [hstate, he]
      · simp [hphase, hanswer]
  | reset => exact absurd rfl hreset

/-- A file is met with its identity asked for while a request is served, and no request but a reset
forgets it. -/
theorem Request.mem_keys_iff (request : Request) (log : Log) (s : Session)
    (hreset : request ≠ .reset) :
    p ∈ OrderedMap.keys (request.op scope log s).state.cache ↔
      p ∈ OrderedMap.keys s.cache ∨ Identifies scope p request log s := by
  cases request with
  | takeIn view filename t =>
      rw [Request.op, Op.state_bind_pure, mem_keys_takeIn_iff]
  | linkImports view filename t =>
      rw [Request.op, Op.state_bind_pure, mem_keys_linkImports_iff]
  | resolve view filename specifier =>
      rw [Request.op, Op.state_bind_pure, mem_keys_resolve_iff]
  | identity view filename source =>
      rw [Request.op, Op.state_bind_pure, mem_keys_identity_iff]
  | resolvePath view filename specifier =>
      have hresolve : (Session.resolvePath scope view filename specifier).Meets s _ :=
        meets_resolvePath_cache filename specifier
      have hcache := hresolve log
      rw [Request.op, Op.state_bind_pure, hcache]
      exact (or_iff_left nofun).symm
  | qualifyComment filename comment =>
      have hrefused : (Session.qualifyComment scope filename comment).Meets s _ :=
        meets_qualifyComment_refused filename comment
      have hcache :
          (Session.qualifyComment scope filename comment log s).state.cache = s.cache := by
        rcases (hrefused log).2 with ⟨-, hstate⟩ | ⟨-, -, hcache⟩
        · rw [hstate]
        · exact hcache
      rw [Request.op, Op.state_bind_pure, hcache]
      exact (or_iff_left nofun).symm
  | reset => exact absurd rfl hreset

/-- After any requests, whatever disk each of them has seen: the second phase has begun exactly when
a comment has been qualified since the last reset; taking a file in is refused exactly in the second
phase; qualifying a comment is refused exactly when the identity of its file has not been answered
since the last reset; and a request that is refused leaves the session as it is. -/
theorem refusals_follow_history (scope : Scope) (requests : List Request) (start : Log) :
    let s := afterRequests scope requests start .fresh
    (s.phase = .qualify ↔ Since scope (Qualifies scope) requests start .fresh) ∧
    (∀ view filename t log,
      Refused (takeIn scope view filename t log s).answer ↔ s.phase = .qualify) ∧
    (∀ filename comment log, Refused (qualifyComment scope filename comment log s).answer ↔
      ¬Since scope (Identifies scope (scope.normalize filename)) requests start .fresh) ∧
    ∀ (request : Request) log,
      Refused (request.op scope log s).answer → (request.op scope log s).state = s := by
  intro s
  refine ⟨?_, ?_, ?_, fun request log => request.eq_of_refused log⟩
  · exact afterRequests_fresh_iff (fun s => s.phase = .qualify) nofun (fun _ _ h => h)
      Request.phase_iff requests start
  · intro view filename t log
    have hrefused : (takeIn scope view filename t).Meets s _ := meets_takeIn_refused filename t
    exact (hrefused log).2.1
  · intro filename comment log
    have hmet : scope.normalize filename ∈ OrderedMap.keys s.cache ↔
        Since scope (Identifies scope (scope.normalize filename)) requests start .fresh :=
      afterRequests_fresh_iff (fun s => scope.normalize filename ∈ OrderedMap.keys s.cache)
        List.not_mem_nil nofun Request.mem_keys_iff requests start
    have hrefused : (qualifyComment scope filename comment).Meets s _ :=
      meets_qualifyComment_refused filename comment
    rw [(hrefused log).1, hmet]

-- An import has led to the file, so that its comments can be qualified.
set_option maxRecDepth 100000 in
example : (afterRequests Batch.sampleScope
    [.resolve (.still Batch.sampleDisk) "d/c.js".toList "../a".toList,
      .qualifyComment "./a.js".toList []] [] .fresh).phase = .qualify := by
  decide +kernel

end Session

end DocRefs
