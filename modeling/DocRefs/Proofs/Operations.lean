import Mathlib
import DocRefs.Op

/-!
# What operations meet

A condition on the answer and on the state left, whatever has been logged before. Conditions are
followed through a sequence from its first operation to its last, and through an operation for every
element of a list by what is known of the state after the elements already done.
-/

namespace DocRefs

namespace Op

variable {σ α β : Type} {m : Op σ α} {f : α → Op σ β} {s : σ}

/-- Whatever has been logged, the operation started in `s` gives an answer and leaves a state with
`post`. -/
def Meets (m : Op σ α) (s : σ) (post : Except Failure α → σ → Prop) : Prop :=
  ∀ log, post (m log s).answer (m log s).state

section Rules

variable {mid : Except Failure α → σ → Prop} {post : Except Failure β → σ → Prop}

theorem Meets.mono {mid' : Except Failure α → σ → Prop} (h : m.Meets s mid)
    (hmono : ∀ r s', mid r s' → mid' r s') : m.Meets s mid' :=
  fun log => hmono _ _ (h log)

theorem meets_pure {a : α} (h : mid (.ok a) s) : (pure a : Op σ α).Meets s mid := fun _ => h

theorem meets_fail {e : Failure} (h : mid (.error e) s) : (fail e : Op σ α).Meets s mid :=
  fun _ => h

theorem meets_ofExcept {x : Except Failure α} (h : mid x s) :
    (ofExcept x : Op σ α).Meets s mid := by
  cases x with
  | ok a => exact meets_pure h
  | error e => exact meets_fail h

theorem bind_apply (m : Op σ α) (f : α → Op σ β) (log : Log) (s : σ) :
    (m >>= f) log s =
      match m log s with
      | ⟨.error e, s', log'⟩ => ⟨.error e, s', log'⟩
      | ⟨.ok a, s', log'⟩ => f a log' s' := rfl

theorem bind_of_ok {log : Log} {a : α} (h : (m log s).answer = .ok a) :
    (m >>= f) log s = f a (m log s).log (m log s).state := by
  rw [bind_apply]
  rcases hrun : m log s with ⟨answer, s', log'⟩
  rw [hrun] at h
  obtain rfl : answer = .ok a := h
  rfl

theorem bind_of_error {log : Log} {e : Failure} (h : (m log s).answer = .error e) :
    (m >>= f) log s = ⟨.error e, (m log s).state, (m log s).log⟩ := by
  rw [bind_apply]
  rcases hrun : m log s with ⟨answer, s', log'⟩
  rw [hrun] at h
  obtain rfl : answer = .error e := h
  rfl

/-- What changes the answer only leaves the state as it is. -/
theorem state_bind_pure (m : Op σ α) (g : α → β) (log : Log) (s : σ) :
    ((m >>= fun a => pure (g a)) log s).state = (m log s).state := by
  rw [bind_apply]
  rcases m log s with ⟨_ | _, _, _⟩ <;> rfl

/-- A sequence meets what its second operation meets in every state that the first one leaves. -/
theorem Meets.bind (hm : m.Meets s mid) (herror : ∀ e s', mid (.error e) s' → post (.error e) s')
    (hok : ∀ a s', mid (.ok a) s' → (f a).Meets s' post) : (m >>= f).Meets s post := by
  intro log
  have hmid := hm log
  rw [bind_apply]
  rcases hrun : m log s with ⟨answer, s', log'⟩
  rw [hrun] at hmid
  cases answer with
  | error e => exact herror e s' hmid
  | ok a => exact hok a s' hmid log'

theorem meets_get_bind {f : σ → Op σ β} (h : (f s).Meets s post) : (get >>= f).Meets s post :=
  fun log => h log

theorem meets_modify_bind {g : σ → σ} {f : Unit → Op σ β} (h : (f ()).Meets (g s) post) :
    (modify g >>= f).Meets s post :=
  fun log => h log

theorem meets_log_bind {level : Log.Level} {source : String} {message : Text} {f : Unit → Op σ β}
    (h : (f ()).Meets s post) : (log level source message >>= f).Meets s post :=
  fun before => h (⟨level, source, message⟩ :: before)

theorem meets_see_bind {disk : Disk} {f : Disk → Op σ β} (h : (f disk).Meets s post) :
    (see (.still disk) >>= f).Meets s post :=
  fun log => h log

/-- Of a disk that may change, a sequence sees some state. -/
theorem meets_view_bind {view : View} {f : Disk → Op σ β} (h : ∀ disk, (f disk).Meets s post) :
    (see view >>= f).Meets s post :=
  fun log => h (view log) log

theorem meets_ofExcept_bind {x : Except Failure α} (herror : ∀ e, x = .error e → post (.error e) s)
    (hok : ∀ a, x = .ok a → (f a).Meets s post) : (ofExcept x >>= f).Meets s post := by
  cases x with
  | error e => exact fun _ => herror e rfl
  | ok a => exact hok a rfl

/-- An operation on a part of the state meets on the whole what it meets on the part by itself. -/
theorem Meets.zoom {τ : Type} {part : τ → σ} {put : σ → τ → τ} {t : τ}
    {post : Except Failure α → τ → Prop} (hm : m.Meets (part t) mid)
    (hput : ∀ r s, mid r s → post r (put s t)) : (m.zoom part put).Meets t post :=
  fun log => hput _ _ (hm log)

theorem collect_cons_of_error {a : α} {as : List α} {log : Log} {e : Failure}
    (h : (f a log s).answer = .error e) :
    collect f (a :: as) log s = ⟨.error e, (f a log s).state, (f a log s).log⟩ :=
  bind_of_error h

theorem collect_cons_of_ok {a : α} {as : List α} {log : Log} {b : β}
    (h : (f a log s).answer = .ok b) :
    collect f (a :: as) log s =
      (collect f as >>= fun bs => pure (b :: bs)) (f a log s).log (f a log s).state :=
  bind_of_ok h

/-- Changing every answer can be done when all of them are there. -/
theorem collect_bind_pure {γ : Type} (g : α → β → γ) (as : List α) (log : Log) (s : σ) :
    collect (fun a => f a >>= fun b => pure (g a b)) as log s =
      (collect f as >>= fun bs => pure (List.zipWith g as bs)) log s := by
  induction as generalizing log s with
  | nil => rfl
  | cons a as ih =>
      cases hanswer : (f a log s).answer with
      | error e =>
          have hfirst := bind_of_error (f := fun b => (pure (g a b) : Op σ γ)) hanswer
          rw [collect_cons_of_error (by rw [hfirst]), hfirst,
            bind_of_error (by rw [collect_cons_of_error hanswer]), collect_cons_of_error hanswer]
      | ok b =>
          have hfirst : (f a >>= fun b => (pure (g a b) : Op σ γ)) log s =
              ⟨.ok (g a b), (f a log s).state, (f a log s).log⟩ := bind_of_ok hanswer
          have hcons : collect f (a :: as) log s = _ := collect_cons_of_ok hanswer
          rw [collect_cons_of_ok (by rw [hfirst]), hfirst, bind_apply, ih]
          cases hrest : (collect f as (f a log s).log (f a log s).state).answer with
          | error e =>
              rw [bind_of_error hrest] at hcons ⊢
              rw [bind_of_error (by rw [hcons]), hcons]
          | ok bs =>
              rw [bind_of_ok hrest] at hcons ⊢
              rw [bind_of_ok (a := b :: bs) (by rw [hcons]; rfl), hcons]
              rfl

theorem length_of_collect {as : List α} {bs : List β} {log : Log}
    (h : (collect f as log s).answer = .ok bs) : bs.length = as.length := by
  induction as generalizing bs log s with
  | nil =>
      obtain rfl : [] = bs := Except.ok.inj h
      rfl
  | cons a as ih =>
      cases hanswer : (f a log s).answer with
      | error e =>
          rw [collect_cons_of_error hanswer] at h
          simp at h
      | ok b =>
          rw [collect_cons_of_ok hanswer] at h
          cases hrest : (collect f as (f a log s).log (f a log s).state).answer with
          | error e =>
              rw [bind_of_error hrest] at h
              simp at h
          | ok cs =>
              rw [bind_of_ok hrest] at h
              obtain rfl : b :: cs = bs := Except.ok.inj h
              simp [ih hrest]

/-- An element of a list at which `hit` holds, when the ones in front of it were done, is the first
one or stands in the rest. -/
theorem exists_hit_cons (hit : α → Log → σ → Prop) (a : α) (as : List α) (log : Log) (s : σ) :
    (∃ before c after bs, a :: as = before ++ c :: after ∧
        (collect f before log s).answer = .ok bs ∧
        hit c (collect f before log s).log (collect f before log s).state) ↔
      hit a log s ∨ ∃ b, (f a log s).answer = .ok b ∧ ∃ before c after bs,
        as = before ++ c :: after ∧
        (collect f before (f a log s).log (f a log s).state).answer = .ok bs ∧
        hit c (collect f before (f a log s).log (f a log s).state).log
          (collect f before (f a log s).log (f a log s).state).state := by
  constructor
  · rintro ⟨before, c, after, bs, hsplit, hbefore, hhit⟩
    cases before with
    | nil =>
        obtain ⟨rfl, rfl⟩ := List.cons.inj hsplit
        exact .inl hhit
    | cons d before =>
        obtain ⟨rfl, rfl⟩ := List.cons.inj hsplit
        cases hanswer : (f a log s).answer with
        | error e =>
            rw [collect_cons_of_error hanswer] at hbefore
            simp at hbefore
        | ok b =>
            rw [collect_cons_of_ok hanswer] at hbefore hhit
            cases hrest : (collect f before (f a log s).log (f a log s).state).answer with
            | error e =>
                rw [bind_of_error hrest] at hbefore
                simp at hbefore
            | ok cs =>
                rw [bind_of_ok hrest] at hhit
                exact .inr ⟨b, rfl, before, c, after, cs, rfl, hrest, hhit⟩
  · rintro (hhit | ⟨b, hanswer, before, c, after, bs, rfl, hbefore, hhit⟩)
    · exact ⟨[], a, as, [], rfl, rfl, hhit⟩
    · refine ⟨a :: before, c, after, b :: bs, rfl, ?_, ?_⟩
      · rw [collect_cons_of_ok hanswer, bind_of_ok hbefore]
        rfl
      · rw [collect_cons_of_ok hanswer, bind_of_ok hbefore]
        exact hhit

/-- A condition that operations make true just where `hit` holds is true after those for a list
if it was before, or if `hit` held at an element when the ones in front of it were done. -/
theorem state_collect_iff (cond : σ → Prop) (hit : α → Log → σ → Prop)
    (h : ∀ a log s, cond (f a log s).state ↔ cond s ∨ hit a log s) (as : List α) (log : Log)
    (s : σ) :
    cond (collect f as log s).state ↔ cond s ∨ ∃ before a after bs, as = before ++ a :: after ∧
      (collect f before log s).answer = .ok bs ∧
      hit a (collect f before log s).log (collect f before log s).state := by
  induction as generalizing log s with
  | nil =>
      refine (or_iff_left ?_).symm
      rintro ⟨before, a, after, -, hnil, -⟩
      simp at hnil
  | cons a as ih =>
      rw [exists_hit_cons]
      cases hanswer : (f a log s).answer with
      | error e =>
          rw [collect_cons_of_error hanswer, h]
          simp
      | ok b =>
          rw [collect_cons_of_ok hanswer, state_bind_pure, ih, h, or_assoc]
          simp

/-- What every element keeps, all of them keep, also when one fails. -/
theorem meets_forEach {f : α → Op σ Unit} {know : σ → Prop} {as : List α}
    (h : ∀ a ∈ as, ∀ s, know s → (f a).Meets s fun _ s' => know s') (hs : know s) :
    (forEach f as).Meets s fun _ s' => know s' := by
  induction as generalizing s with
  | nil => exact meets_pure hs
  | cons a as ih =>
      refine (h a List.mem_cons_self s hs).bind (fun _ _ hs' => hs') fun _ s' hs' => ?_
      exact ih (fun b hb => h b (List.mem_cons_of_mem a hb)) hs'

/-- What every element keeps, all of them keep, also when their answers are collected. -/
theorem meets_collect_keeps {know : σ → Prop} {as : List α}
    (h : ∀ a ∈ as, ∀ s, know s → (f a).Meets s fun _ s' => know s') (hs : know s) :
    (collect f as).Meets s fun _ s' => know s' := by
  induction as generalizing s with
  | nil => exact meets_pure hs
  | cons a as ih =>
      refine (h a List.mem_cons_self s hs).bind (fun _ _ hs' => hs') fun _ s' hs' => ?_
      refine (ih (fun b hb => h b (List.mem_cons_of_mem a hb)) hs').bind (fun _ _ hs'' => hs'') ?_
      exact fun _ _ hs'' => meets_pure hs''

end Rules

/-! ## Operations with one answer -/

/-- The operation started in `s` answers exactly when `good` holds, then with `value`, and leaves a
state with `post`. -/
def Answers (m : Op σ α) (s : σ) (good : Prop) (value : α) (post : σ → Prop) : Prop :=
  m.Meets s fun r s' => (good → r = .ok value ∧ post s') ∧ (¬good → ∃ e, r = .error e)

section Answers

variable {good good' : Prop} {a : α} {b : β} {mid post : σ → Prop}

theorem answers_pure (h : mid s) : (pure a : Op σ α).Answers s True a mid :=
  meets_pure ⟨fun _ => ⟨rfl, h⟩, fun hnot => absurd trivial hnot⟩

theorem Answers.mono {mid' : σ → Prop} (h : m.Answers s good a mid)
    (hmono : ∀ s', mid s' → mid' s') : m.Answers s good a mid' :=
  Meets.mono h fun _ s' hr => ⟨fun hgood => ⟨(hr.1 hgood).1, hmono s' (hr.1 hgood).2⟩, hr.2⟩

theorem Answers.congr (h : m.Answers s good a mid) (hgood : good ↔ good') :
    m.Answers s good' a mid := by
  rwa [← propext hgood]

/-- An operation whose answer is known answers exactly when that answer is no failure. -/
theorem Meets.answers {x : Except Failure α}
    (h : m.Meets s fun r s' => r = x ∧ ∀ c, r = .ok c → mid s')
    (ha : ∀ c, x = .ok c → c = a) : m.Answers s (∃ c, x = .ok c) a mid := by
  refine h.mono ?_
  intro r s' hboth
  rcases hboth with ⟨rfl, hmid⟩
  constructor
  · intro hok
    rcases hok with ⟨c, rfl⟩
    rw [ha c rfl]
    exact ⟨rfl, hmid c rfl⟩
  · intro hnot
    cases r with
    | error e => exact ⟨e, rfl⟩
    | ok c => exact absurd ⟨c, rfl⟩ hnot

/-- A sequence whose first operation has one answer. -/
theorem Answers.bindMeets {post : Except Failure β → σ → Prop} (hm : m.Answers s good a mid)
    (hbad : ¬good → ∀ e s', post (.error e) s')
    (hok : ∀ s', good → mid s' → (f a).Meets s' post) : (m >>= f).Meets s post := by
  refine Meets.bind hm ?_ ?_
  · intro e s' hmid
    rcases hmid with ⟨hgood, -⟩
    apply hbad
    intro h
    simpa using (hgood h).1
  · intro c s' hmid
    rcases hmid with ⟨hgood, hfail⟩
    have h : good := by
      by_contra hnot
      obtain ⟨e, he⟩ := hfail hnot
      simp at he
    obtain ⟨hc, hs'⟩ := hgood h
    obtain rfl := Except.ok.inj hc
    exact hok s' h hs'

theorem Answers.bind (hm : m.Answers s good a mid)
    (hf : ∀ s', good → mid s' → (f a).Answers s' good' b post) :
    (m >>= f).Answers s (good ∧ good') b post := by
  refine hm.bindMeets ?_ ?_
  · intro hnot e s'
    exact ⟨fun hboth => absurd hboth.1 hnot, fun _ => ⟨e, rfl⟩⟩
  · intro s' h hs'
    refine Meets.mono (hf s' h hs') fun r s'' hr => ?_
    exact ⟨fun hboth => hr.1 hboth.2, fun hnot => hr.2 fun h' => hnot ⟨h, h'⟩⟩

/-- What follows an operation whose answer is known. -/
theorem Meets.bindAnswers {x : Except Failure α}
    (h : m.Meets s fun r s' => r = x ∧ ∀ c, r = .ok c → mid s')
    (hf : ∀ c s', x = .ok c → mid s' → (f c).Answers s' good' b post) :
    (m >>= f).Answers s ((∃ c, x = .ok c) ∧ good') b post := by
  refine h.bind ?_ ?_
  · intro e s' hboth
    rcases hboth with ⟨rfl, -⟩
    exact ⟨fun ⟨⟨c, hc⟩, _⟩ => by simp at hc, fun _ => ⟨e, rfl⟩⟩
  · intro c s' hboth
    rcases hboth with ⟨rfl, hmid⟩
    refine Meets.mono (hf c s' rfl (hmid c rfl)) fun r s'' hr => ?_
    exact ⟨fun hboth => hr.1 hboth.2, fun hnot => hr.2 fun h' => hnot ⟨⟨c, rfl⟩, h'⟩⟩

/-- What follows always answers. -/
theorem Answers.andThen (hm : m.Answers s good a mid)
    (hf : ∀ s', good → mid s' → (f a).Answers s' True b post) :
    (m >>= f).Answers s good b post :=
  (hm.bind hf).congr (and_iff_left trivial)

theorem Answers.map (hm : m.Answers s good a mid) (g : α → β) :
    (m >>= fun c => pure (g c)).Answers s good (g a) mid :=
  hm.andThen fun _ _ hs' => answers_pure hs'

theorem answers_collect_after {f : α → Op σ β} {good : α → Prop} {value : α → β}
    {know : List α → σ → Prop} {as done : List α}
    (h : ∀ done, ∀ a ∈ as, ∀ s, know done s →
      (f a).Answers s (good a) (value a) (know (done ++ [a])))
    (hs : know done s) :
    (collect f as).Answers s (∀ a ∈ as, good a) (as.map value) (know (done ++ as)) := by
  induction as generalizing done s with
  | nil =>
      rw [List.append_nil]
      exact (answers_pure hs).congr (by simp)
  | cons a as ih =>
      have hrest : ∀ done, ∀ b ∈ as, ∀ s, know done s →
          (f b).Answers s (good b) (value b) (know (done ++ [b])) :=
        fun done b hb => h done b (List.mem_cons_of_mem a hb)
      -- The state left by the first element is known after `done` and that element.
      have hbind : (collect f (a :: as)).Answers s (good a ∧ ∀ b ∈ as, good b)
          (value a :: as.map value) (know (done ++ a :: as)) := by
        refine (h done a List.mem_cons_self s hs).bind fun s' _ hs' => ?_
        have hcollect := ih hrest hs'
        rw [List.append_assoc] at hcollect
        exact hcollect.map (value a :: ·)
      exact hbind.congr (by simp)

/-- An operation for every element answers when each one does. What is known of the state after the
elements `done` grows with every element. -/
theorem answers_collect {f : α → Op σ β} {good : α → Prop} {value : α → β} {as : List α}
    (know : List α → σ → Prop)
    (h : ∀ done, ∀ a ∈ as, ∀ s, know done s →
      (f a).Answers s (good a) (value a) (know (done ++ [a])))
    (hs : know [] s) :
    (collect f as).Answers s (∀ a ∈ as, good a) (as.map value) (know as) :=
  answers_collect_after h hs

theorem meets_collect_after {f : α → Op σ β} {value : α → β} {know : List α → σ → Prop}
    {fails : List α → α → Failure → σ → Prop} {as done : List α}
    (h : ∀ done a s, know done s → (f a).Meets s fun r s' =>
      (∀ b, r = .ok b → b = value a ∧ know (done ++ [a]) s') ∧
        ∀ e, r = .error e → fails done a e s')
    (hs : know done s) :
    (collect f as).Meets s fun r s' =>
      (∀ bs, r = .ok bs → bs = as.map value ∧ know (done ++ as) s') ∧
        ∀ e, r = .error e → ∃ before a rest, as = before ++ a :: rest ∧
          fails (done ++ before) a e s' := by
  -- What is known speaks of all elements done so far, so these are generalised with the state.
  induction as generalizing done s with
  | nil =>
      refine meets_pure ⟨fun bs hbs => ?_, fun e he => by simp at he⟩
      rw [List.append_nil]
      exact ⟨(Except.ok.inj hbs).symm, hs⟩
  | cons a as ih =>
      refine (h done a s hs).bind ?_ ?_
      · intro e s' hmid
        refine ⟨fun bs hbs => by simp at hbs, fun e' he' => ⟨[], a, as, rfl, ?_⟩⟩
        obtain rfl := Except.error.inj he'
        rw [List.append_nil]
        exact hmid.2 e rfl
      · intro b s' hmid
        obtain ⟨rfl, hs'⟩ := hmid.1 b rfl
        refine (ih hs').bind ?_ ?_
        · intro e s'' hrest
          refine ⟨fun bs hbs => by simp at hbs, fun e' he' => ?_⟩
          obtain rfl := Except.error.inj he'
          obtain ⟨before, a', rest, rfl, hfails⟩ := hrest.2 e rfl
          rw [List.append_assoc] at hfails
          exact ⟨a :: before, a', rest, rfl, hfails⟩
        · intro bs s'' hrest
          obtain ⟨rfl, hknow⟩ := hrest.1 bs rfl
          refine meets_pure ⟨fun cs hcs => ?_, fun e he => by simp at he⟩
          rw [List.append_assoc] at hknow
          exact ⟨(Except.ok.inj hcs).symm, hknow⟩

/-- An operation for every element either does all of them, or fails at one after doing those in
front of it. -/
theorem meets_collect {f : α → Op σ β} {value : α → β} {as : List α} (know : List α → σ → Prop)
    (fails : List α → α → Failure → σ → Prop)
    (h : ∀ done a s, know done s → (f a).Meets s fun r s' =>
      (∀ b, r = .ok b → b = value a ∧ know (done ++ [a]) s') ∧
        ∀ e, r = .error e → fails done a e s')
    (hs : know [] s) :
    (collect f as).Meets s fun r s' =>
      (∀ bs, r = .ok bs → bs = as.map value ∧ know as s') ∧
        ∀ e, r = .error e → ∃ done a rest, as = done ++ a :: rest ∧ fails done a e s' :=
  meets_collect_after h hs

theorem answers_forEach_after {f : α → Op σ Unit} {know : List α → σ → Prop} {as done : List α}
    (h : ∀ done, ∀ a ∈ as, ∀ s, know done s → (f a).Answers s True () (know (done ++ [a])))
    (hs : know done s) : (forEach f as).Answers s True () (know (done ++ as)) := by
  induction as generalizing done s with
  | nil =>
      rw [List.append_nil]
      exact answers_pure hs
  | cons a as ih =>
      refine (h done a List.mem_cons_self s hs).andThen fun s' _ hs' => ?_
      have hrest := ih (fun done b hb => h done b (List.mem_cons_of_mem a hb)) hs'
      rwa [List.append_assoc] at hrest

/-- An operation for every element, each of which is known to answer. -/
theorem answers_forEach {f : α → Op σ Unit} {as : List α} (know : List α → σ → Prop)
    (h : ∀ done, ∀ a ∈ as, ∀ s, know done s → (f a).Answers s True () (know (done ++ [a])))
    (hs : know [] s) : (forEach f as).Answers s True () (know as) :=
  answers_forEach_after h hs

/-- An operation on a part of the state answers as it does on the part by itself. -/
theorem Answers.zoom {τ : Type} {part : τ → σ} {put : σ → τ → τ} {t : τ} {post : τ → Prop}
    (hm : m.Answers (part t) good a mid) (hput : ∀ s, mid s → post (put s t)) :
    (m.zoom part put).Answers t good a post := by
  intro log
  obtain ⟨hgood, hbad⟩ := hm log
  exact ⟨fun h => ⟨(hgood h).1, hput _ (hgood h).2⟩, hbad⟩

end Answers

end Op

end DocRefs
