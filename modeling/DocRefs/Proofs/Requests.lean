import Mathlib
import DocRefs.Proofs.Runs

/-!
# Requests to a session

Whatever is asked of a session, and whether the answer is a failure or not, the session changes by
small moves: a file that was not met is recorded, a path that was not kept is remembered, and the
phase and the counters change. Only a reset forgets. The disk may be another one at every request,
and may change while a request is served.
-/

namespace DocRefs

namespace Session

/-- A smallest change of a session. -/
inductive Move (scope : Scope) : Session → Session → Prop
  | record {s : Session} {filename : Path} {t : Text} {info : FileIdentity}
      (hnew : s.cache.get? (scope.normalize filename) = none)
      (hinfo : FileIdentity.ofText scope.roots (scope.normalize filename) t = .ok info) :
      Move scope s (s.record (scope.normalize filename) info)
  | remember {s : Session} {importer : Path} {specifier : Text} {p : Path}
      (hnew : s.memo.get? (memoKey importer specifier) = none) :
      Move scope s (s.remember importer specifier p)
  | tally {s : Session} (phase : Phase) (linked qualified : Nat) :
      Move scope s { s with
        phase := phase
        linkedReferences := linked
        qualifiedIdentifiers := qualified }

/-- Any number of moves. -/
abbrev Moves (scope : Scope) : Session → Session → Prop := Relation.ReflTransGen (Move scope)

/-- The second session keeps the identities and the paths that the first one has. -/
structure Extends (s s' : Session) : Prop where
  cache : ∀ p info, s.cache.get? p = some info → s'.cache.get? p = some info
  memo : ∀ key p, s.memo.get? key = some p → s'.memo.get? key = some p

/-- The module id that a session has for an import, if it has found the path and met the file. -/
def module? (scope : Scope) (s : Session) (importer : Path) (specifier : Text) : Option Text :=
  if Specifier.isRelative specifier then
    (s.memo.get? (memoKey importer specifier)).bind fun p =>
      (s.cache.get? (scope.normalize p)).map FileIdentity.moduleId
  else some specifier

/-- The replacements that link a text by the module ids that a session has. -/
def links (scope : Scope) (s : Session) (importer : Path) (t : Text) : List Replacement :=
  (commentRefs t).filterMap fun r =>
    (r.2.substitute? ((s.module? scope importer r.2.specifier).getD [])).map
      (Replacement.mk (r.1 + r.2.start) (r.1 + r.2.stop))

variable {scope : Scope} {view : View} {s s' s'' : Session} {importer filename : Path}
  {specifier t : Text}

/-! ## What moves keep -/

theorem Extends.refl (s : Session) : Extends s s := ⟨fun _ _ h => h, fun _ _ h => h⟩

theorem Extends.trans (h : Extends s s') (h' : Extends s' s'') : Extends s s'' :=
  ⟨fun p info hp => h'.cache p info (h.cache p info hp),
    fun key p hp => h'.memo key p (h.memo key p hp)⟩

theorem Move.extends (h : Move scope s s') : Extends s s' := by
  cases h with
  | @record filename _ _ hnew _ =>
      refine ⟨fun p info hp => ?_, fun _ _ hp => hp⟩
      have hne : scope.normalize filename ≠ p := by
        rintro rfl
        simp [hnew] at hp
      rwa [record_cache, OrderedMap.get?_put, if_neg hne]
  | @remember importer specifier _ hnew =>
      refine ⟨fun _ _ hp => hp, fun key p hp => ?_⟩
      have hne : memoKey importer specifier ≠ key := by
        rintro rfl
        simp [hnew] at hp
      rwa [remember_memo, OrderedMap.get?_put, if_neg hne]
  | tally => exact ⟨fun _ _ hp => hp, fun _ _ hp => hp⟩

theorem Moves.extends (h : Moves scope s s') : Extends s s' := by
  induction h with
  | refl => exact .refl s
  | tail _ hmove ih => exact ih.trans hmove.extends

theorem Extends.module? (h : Extends s s') {id : Text}
    (hid : s.module? scope importer specifier = some id) :
    s'.module? scope importer specifier = some id := by
  unfold Session.module? at hid ⊢
  split
  next hrelative =>
    rw [if_pos hrelative] at hid
    obtain ⟨p, hp, hid⟩ := Option.bind_eq_some_iff.mp hid
    obtain ⟨info, hinfo, rfl⟩ := Option.map_eq_some_iff.mp hid
    rw [h.memo _ p hp, Option.bind_some, h.cache _ info hinfo, Option.map_some]
  next hbare => rwa [if_neg hbare] at hid

/-- Text that a session can link is linked alike by every session that has come from it. -/
theorem Extends.links_eq (h : Extends s s')
    (hrefs : ∀ r ∈ commentRefs t, ∃ id, s.module? scope importer r.2.specifier = some id) :
    s'.links scope importer t = s.links scope importer t := by
  unfold links
  apply List.filterMap_congr
  intro r hr
  obtain ⟨id, hid⟩ := hrefs r hr
  rw [hid, h.module? hid]

/-! ## What operations do -/

theorem Moves.bind {α β : Type} {m : Op Session α} {f : α → Op Session β}
    (hm : m.Meets s fun _ s' => Moves scope s s')
    (hf : ∀ a s', (f a).Meets s' fun _ s'' => Moves scope s' s'') :
    (m >>= f).Meets s fun _ s'' => Moves scope s s'' :=
  hm.bind (fun _ _ h => h) fun a s' h => (hf a s').mono fun _ _ h' => h.trans h'

theorem meets_sourceText_same (p : Path) :
    (sourceText scope view p).Meets s fun _ s' => s' = s := by
  unfold sourceText
  refine Op.meets_view_bind fun disk => ?_
  split
  · split
    · exact Op.meets_pure rfl
    · exact Op.meets_log_bind (Op.meets_pure rfl)
    · exact Op.meets_fail rfl
  · exact Op.meets_log_bind (Op.meets_pure rfl)

/-- Asking for an identity changes nothing, or records the file that was not met before. -/
theorem meets_identity_cases (filename : Path) (source : Option Text) :
    (identity scope view filename source).Meets s fun r s' =>
      (s' = s ∧ ∀ info, r = .ok info → s.cache.get? (scope.normalize filename) = some info) ∨
        ∃ t info, s.cache.get? (scope.normalize filename) = none ∧
          FileIdentity.ofText scope.roots (scope.normalize filename) t = .ok info ∧
          r = .ok info ∧ s' = s.record (scope.normalize filename) info := by
  cases hcached : s.cache.get? (scope.normalize filename) with
  | some info =>
      refine (meets_identity_of_cached hcached source).mono ?_
      rintro r s' ⟨rfl, rfl⟩
      exact .inl ⟨rfl, fun info' heq => by rw [Except.ok.inj heq]⟩
  | none =>
      unfold identity
      apply Op.meets_get_bind
      rw [hcached]
      have htext : (source.elim (sourceText scope view (scope.normalize filename)) pure).Meets s
          fun _ s' => s' = s := by
        cases source with
        | none => exact meets_sourceText_same _
        | some t => exact Op.meets_pure rfl
      refine htext.bind ?_ ?_
      · rintro e s' rfl
        exact .inl ⟨rfl, fun _ h => by simp at h⟩
      · rintro t s' rfl
        refine Op.meets_ofExcept_bind ?_ ?_
        · intro e _
          exact .inl ⟨rfl, fun _ h => by simp at h⟩
        · intro info hinfo
          apply Op.meets_modify_bind
          apply Op.meets_log_bind
          exact Op.meets_pure (.inr ⟨t, info, rfl, hinfo, rfl, rfl⟩)

/-- Asking for an identity records it at most, and an identity that is answered is cached. -/
theorem meets_identity_moves (filename : Path) (source : Option Text) :
    (identity scope view filename source).Meets s fun r s' =>
      Moves scope s s' ∧
        ∀ info, r = .ok info → s'.cache.get? (scope.normalize filename) = some info := by
  refine (meets_identity_cases filename source).mono ?_
  rintro r s' (⟨rfl, hcached⟩ | ⟨t, info, hnew, hinfo, rfl, rfl⟩)
  · exact ⟨.refl, hcached⟩
  · refine ⟨.single (.record hnew hinfo), fun info' heq => ?_⟩
    obtain rfl := Except.ok.inj heq
    rw [record_cache, OrderedMap.get?_put, if_pos rfl]

/-- Asking for the path of an import changes nothing, or remembers a path that was not kept. -/
theorem meets_resolvePath_cases (filename : Path) (specifier : Text) :
    (resolvePath scope view filename specifier).Meets s fun r s' =>
      (s' = s ∧ ∀ p?, r = .ok p? →
        if Specifier.isRelative specifier then
          ∃ p, p? = some p ∧ s.memo.get? (memoKey (scope.normalize filename) specifier) = some p
        else p? = none) ∨
      ∃ p, Specifier.isRelative specifier = true ∧
        s.memo.get? (memoKey (scope.normalize filename) specifier) = none ∧
        r = .ok (some p) ∧ s' = s.remember (scope.normalize filename) specifier p := by
  by_cases hrelative : Specifier.isRelative specifier = true
  · simp only [hrelative, if_true]
    cases hmemo : s.memo.get? (memoKey (scope.normalize filename) specifier) with
    | some p =>
        refine (meets_resolvePath_of_memo hrelative hmemo).mono ?_
        rintro r s' ⟨rfl, rfl⟩
        exact .inl ⟨rfl, fun p? heq => ⟨p, (Except.ok.inj heq).symm, rfl⟩⟩
    | none =>
        unfold resolvePath
        rw [if_pos hrelative]
        apply Op.meets_get_bind
        rw [hmemo]
        refine Op.meets_view_bind fun disk => Op.meets_ofExcept_bind ?_ ?_
        · intro e _
          exact .inl ⟨rfl, fun _ h => by simp at h⟩
        · intro found? _
          dsimp only
          split
          · apply Op.meets_log_bind
            apply Op.meets_modify_bind
            exact Op.meets_log_bind (Op.meets_pure (.inr ⟨_, trivial, rfl, rfl, rfl⟩))
          · apply Op.meets_modify_bind
            exact Op.meets_log_bind (Op.meets_pure (.inr ⟨_, trivial, rfl, rfl, rfl⟩))
  · unfold resolvePath
    rw [if_neg hrelative]
    apply Op.meets_pure
    refine .inl ⟨rfl, fun p? heq => ?_⟩
    rw [if_neg hrelative]
    exact (Except.ok.inj heq).symm

/-- Asking for the path of an import remembers it at most, and a path that is answered is kept. -/
theorem meets_resolvePath_moves (filename : Path) (specifier : Text) :
    (resolvePath scope view filename specifier).Meets s fun r s' =>
      Moves scope s s' ∧ ∀ p?, r = .ok p? →
        if Specifier.isRelative specifier then
          ∃ p, p? = some p ∧ s'.memo.get? (memoKey (scope.normalize filename) specifier) = some p
        else p? = none := by
  refine (meets_resolvePath_cases filename specifier).mono ?_
  rintro r s' (⟨rfl, hpath⟩ | ⟨p, hrelative, hnew, rfl, rfl⟩)
  · exact ⟨.refl, hpath⟩
  · refine ⟨.single (.remember hnew), fun p? heq => ?_⟩
    rw [if_pos hrelative]
    refine ⟨p, (Except.ok.inj heq).symm, ?_⟩
    rw [remember_memo, OrderedMap.get?_put, if_pos rfl]

/-- Resolving an import counts no reference. -/
theorem meets_resolve_counts (filename : Path) (specifier : Text) :
    (resolve scope view filename specifier).Meets s fun _ s' =>
      s'.linkedReferences = s.linkedReferences := by
  have hpath : (resolvePath scope view filename specifier).Meets s fun _ s' =>
      s'.linkedReferences = s.linkedReferences := by
    refine (meets_resolvePath_cases filename specifier).mono ?_
    rintro r s' (⟨rfl, -⟩ | ⟨p, -, -, -, rfl⟩)
    · rfl
    · rfl
  refine hpath.bind (fun _ _ h => h) fun p? s' h => ?_
  cases p? with
  | none => exact Op.meets_pure h
  | some p =>
      have hidentity : (identity scope view p none).Meets s' fun _ s'' =>
          s''.linkedReferences = s.linkedReferences := by
        refine (meets_identity_cases p none).mono ?_
        rintro r s'' (⟨rfl, -⟩ | ⟨t, info, -, -, -, rfl⟩)
        · exact h
        · exact h
      exact hidentity.bind (fun _ _ h' => h') fun info s'' h' => Op.meets_pure h'

/-- An import that is resolved is settled: the session has its module id from then on. -/
theorem meets_resolve_moves (filename : Path) (specifier : Text) :
    (resolve scope view filename specifier).Meets s fun r s' =>
      Moves scope s s' ∧
        ∀ id, r = .ok id → s'.module? scope (scope.normalize filename) specifier = some id := by
  unfold resolve
  refine (meets_resolvePath_moves filename specifier).bind ?_ ?_
  · intro e s' h
    exact ⟨h.1, fun _ hok => by simp at hok⟩
  · intro p? s' h
    obtain ⟨hmoves, hpath⟩ := h
    have hpath := hpath p? rfl
    split at hpath
    next hrelative =>
      obtain ⟨p, rfl, hmemo⟩ := hpath
      refine (meets_identity_moves p none).bind ?_ ?_
      · intro e s'' h'
        exact ⟨hmoves.trans h'.1, fun _ hok => by simp at hok⟩
      · intro info s'' h'
        obtain ⟨hmoves', hcached⟩ := h'
        apply Op.meets_pure
        -- The path was remembered before the identity was asked for, so it has to be kept.
        refine ⟨hmoves.trans hmoves', fun id hid => ?_⟩
        obtain rfl := Except.ok.inj hid
        rw [module?, if_pos hrelative, hmoves'.extends.memo _ p hmemo, Option.bind_some,
          hcached info rfl, Option.map_some]
    next hbare =>
      subst hpath
      apply Op.meets_pure
      refine ⟨hmoves, fun id hid => ?_⟩
      rw [module?, if_neg hbare, Except.ok.inj hid]

/-- A reference that is replaced is replaced by the id that its import is settled with. -/
theorem meets_substitution?_moves (filename : Path) (base : Nat) (ref : ImportRef) :
    (substitution? scope view filename base ref).Meets s fun r s' =>
      Moves scope s s' ∧ ∀ found, r = .ok found → ∃ id,
        s'.module? scope (scope.normalize filename) ref.specifier = some id ∧
        found = (ref.substitute? id).map
          (Replacement.mk (base + ref.start) (base + ref.stop)) := by
  refine (meets_resolve_moves filename ref.specifier).bind ?_ ?_
  · intro e s' h
    exact ⟨h.1, fun _ hok => by simp at hok⟩
  · intro id s' h
    apply Op.meets_pure
    exact ⟨h.1, fun found heq => ⟨id, h.2 id rfl, (Except.ok.inj heq).symm⟩⟩

/-- Going through references settles all of them, when none fails. -/
theorem meets_substitutions_moves (filename : Path) (refs : List (Nat × ImportRef)) :
    (Op.collect (fun r => substitution? scope view filename r.1 r.2) refs).Meets s fun r s' =>
      Moves scope s s' ∧ ∀ found, r = .ok found →
        (∀ r ∈ refs, ∃ id,
          s'.module? scope (scope.normalize filename) r.2.specifier = some id) ∧
        found = refs.map fun r =>
          (r.2.substitute?
              ((s'.module? scope (scope.normalize filename) r.2.specifier).getD [])).map
            (Replacement.mk (r.1 + r.2.start) (r.1 + r.2.stop)) := by
  induction refs generalizing s with
  | nil =>
      apply Op.meets_pure
      refine ⟨.refl, fun found heq => ?_⟩
      exact ⟨by simp, (Except.ok.inj heq).symm⟩
  | cons r refs ih =>
      refine (meets_substitution?_moves filename r.1 r.2).bind ?_ ?_
      · intro e s' h
        exact ⟨h.1, fun _ hok => by simp at hok⟩
      · intro x s' h
        obtain ⟨hmoves, hx⟩ := h
        obtain ⟨id, hid, rfl⟩ := hx x rfl
        refine ih.bind ?_ ?_
        · intro e s'' h'
          exact ⟨hmoves.trans h'.1, fun _ hok => by simp at hok⟩
        · intro xs s'' h'
          obtain ⟨hmoves', hxs⟩ := h'
          obtain ⟨hsettled, rfl⟩ := hxs xs rfl
          -- What the first reference has settled stays settled while the others are resolved.
          have hid' := hmoves'.extends.module? hid
          apply Op.meets_pure
          refine ⟨hmoves.trans hmoves', fun found heq => ?_⟩
          obtain rfl := Except.ok.inj heq
          refine ⟨List.forall_mem_cons.mpr ⟨⟨id, hid'⟩, hsettled⟩, ?_⟩
          rw [List.map_cons, hid']
          rfl

/-- A text that is linked is linked by the module ids that the session has from then on. -/
theorem meets_linkImports_moves (filename : Path) (t : Text) :
    (linkImports scope view filename t).Meets s fun r s' =>
      Moves scope s s' ∧ ∀ u, r = .ok u →
        (∀ r ∈ commentRefs t, ∃ id,
          s'.module? scope (scope.normalize filename) r.2.specifier = some id) ∧
        u = Replacement.splice t (s'.links scope (scope.normalize filename) t) := by
  unfold linkImports
  refine (meets_substitutions_moves filename (commentRefs t)).bind ?_ ?_
  · intro e s' h
    exact ⟨h.1, fun _ hok => by simp at hok⟩
  · intro found s' h
    obtain ⟨hmoves, hfound⟩ := h
    obtain ⟨hsettled, hfound⟩ := hfound found rfl
    have hlinks : found.filterMap id = s'.links scope (scope.normalize filename) t := by
      rw [hfound, List.filterMap_map]
      rfl
    rw [hlinks]
    dsimp only
    split
    next hnil =>
      apply Op.meets_pure
      refine ⟨hmoves, fun u hu => ⟨hsettled, ?_⟩⟩
      rw [List.isEmpty_iff.mp hnil, Replacement.splice_nil, Except.ok.inj hu]
    next =>
      apply Op.meets_modify_bind
      apply Op.meets_log_bind
      apply Op.meets_pure
      refine ⟨hmoves.tail (.tally s'.phase _ s'.qualifiedIdentifiers), fun u hu => ?_⟩
      exact ⟨hsettled, (Except.ok.inj hu).symm⟩

theorem meets_requireIngest (filename : Option Path) :
    (requireIngest filename).Meets s fun r s' =>
      (r = if s.phase = .ingest then .ok () else .error (.ingestTooLate filename s.phase)) ∧
        s' = s := by
  unfold requireIngest
  apply Op.meets_get_bind
  split
  · exact Op.meets_pure ⟨rfl, rfl⟩
  · exact Op.meets_fail ⟨rfl, rfl⟩

theorem meets_takeIn_moves (filename : Path) (t : Text) :
    (takeIn scope view filename t).Meets s fun _ s' => Moves scope s s' := by
  have hrequire : (requireIngest (some filename)).Meets s fun _ s' => Moves scope s s' := by
    refine (meets_requireIngest (some filename)).mono ?_
    rintro r s' ⟨-, rfl⟩
    exact .refl
  refine Moves.bind hrequire fun _ s' => ?_
  refine Moves.bind ((meets_identity_moves filename (some t)).mono fun _ _ h => h.1) fun _ s'' => ?_
  exact (meets_linkImports_moves filename t).mono fun _ _ h => h.1

theorem meets_qualifyComment_moves (filename : Path) (comment : Text) :
    (qualifyComment scope filename comment).Meets s fun _ s' => Moves scope s s' := by
  cases hcached : s.cached? scope filename with
  | none =>
      unfold qualifyComment
      apply Op.meets_get_bind
      rw [hcached]
      exact Op.meets_fail .refl
  | some info =>
      refine Op.Meets.mono (answers_qualifyComment hcached comment) ?_
      intro r s' h
      obtain ⟨-, rfl⟩ := h.1 trivial
      exact .single (.tally .qualify s.linkedReferences _)

/-! ## Requests -/

/-- A request, with the disk as it is seen while the request is served. -/
inductive Request
  | takeIn (view : View) (filename : Path) (t : Text)
  | linkImports (view : View) (filename : Path) (t : Text)
  | qualifyComment (filename : Path) (comment : Text)
  | resolve (view : View) (filename : Path) (specifier : Text)
  | resolvePath (view : View) (filename : Path) (specifier : Text)
  | identity (view : View) (filename : Path) (source : Option Text)
  | reset

/-- The operation that serves a request, without its answer. -/
def Request.op (scope : Scope) : Request → Op Session Unit
  | takeIn view filename t => Session.takeIn scope view filename t >>= fun _ => pure ()
  | linkImports view filename t => Session.linkImports scope view filename t >>= fun _ => pure ()
  | qualifyComment filename comment =>
      Session.qualifyComment scope filename comment >>= fun _ => pure ()
  | resolve view filename specifier =>
      Session.resolve scope view filename specifier >>= fun _ => pure ()
  | resolvePath view filename specifier =>
      Session.resolvePath scope view filename specifier >>= fun _ => pure ()
  | identity view filename source =>
      Session.identity scope view filename source >>= fun _ => pure ()
  | reset => Session.reset

/-- The session after some requests, whether they fail or not. -/
def afterRequests (scope : Scope) : List Request → Log → Session → Session
  | [], _, s => s
  | request :: requests, log, s =>
      afterRequests scope requests (request.op scope log s).log (request.op scope log s).state

/-- Every request but a reset makes moves. -/
theorem Request.meets_op (request : Request) (hreset : request ≠ .reset) :
    (request.op scope).Meets s fun _ s' => Moves scope s s' := by
  have hforget : ∀ {α : Type} {m : Op Session α}, m.Meets s (fun _ s' => Moves scope s s') →
      (m >>= fun _ => (pure () : Op Session Unit)).Meets s fun _ s' => Moves scope s s' :=
    fun hm => Moves.bind hm fun _ _ => Op.meets_pure .refl
  cases request with
  | takeIn view filename t => exact hforget (meets_takeIn_moves filename t)
  | linkImports view filename t =>
      exact hforget ((meets_linkImports_moves filename t).mono fun _ _ h => h.1)
  | qualifyComment filename comment => exact hforget (meets_qualifyComment_moves filename comment)
  | resolve view filename specifier =>
      exact hforget ((meets_resolve_moves filename specifier).mono fun _ _ h => h.1)
  | resolvePath view filename specifier =>
      exact hforget ((meets_resolvePath_moves filename specifier).mono fun _ _ h => h.1)
  | identity view filename source =>
      exact hforget ((meets_identity_moves filename source).mono fun _ _ h => h.1)
  | reset => exact absurd rfl hreset

/-- Requests without a reset make moves. -/
theorem moves_afterRequests {requests : List Request} (hreset : .reset ∉ requests) (log : Log)
    (s : Session) : Moves scope s (afterRequests scope requests log s) := by
  induction requests generalizing log s with
  | nil => exact .refl
  | cons request requests ih =>
      rw [List.mem_cons, not_or] at hreset
      exact (request.meets_op (Ne.symm hreset.1) log).trans (ih hreset.2 _ _)

end Session

end DocRefs
