import Mathlib
import DocRefs.Proofs.Coherence

/-!
# One snapshot

Between two resets a session never changes its mind. What it has answered once it answers again,
whatever has become of the disk: an identity for every spelling of the path, a module id for every
spelling of the importer, and a linked text. The names of a module only grow.
-/

namespace DocRefs

namespace Session

/-- The second session comes from the first by requests among which there is no reset. -/
def Later (scope : Scope) (s s' : Session) : Prop :=
  ∃ requests log, .reset ∉ requests ∧ s' = afterRequests scope requests log s

variable {scope : Scope} {view : View} {s s' : Session} {filename : Path} {specifier t : Text}

theorem Later.moves (h : Later scope s s') : Moves scope s s' := by
  obtain ⟨requests, log, hreset, rfl⟩ := h
  exact moves_afterRequests hreset log s

/-! ## Settled imports -/

theorem meets_resolve_of_settled {id : Text}
    (hid : s.module? scope (scope.normalize filename) specifier = some id) :
    (resolve scope view filename specifier).Meets s fun r s' => r = .ok id ∧ s' = s := by
  unfold resolve
  by_cases hrelative : Specifier.isRelative specifier = true
  · rw [module?, if_pos hrelative] at hid
    obtain ⟨p, hmemo, hid⟩ := Option.bind_eq_some_iff.mp hid
    obtain ⟨info, hcached, rfl⟩ := Option.map_eq_some_iff.mp hid
    refine (meets_resolvePath_of_memo hrelative hmemo).bind ?_ ?_
    · intro e s' h
      exact absurd h.1 (by simp)
    · rintro p? s' ⟨hp, rfl⟩
      obtain rfl := Except.ok.inj hp
      refine (meets_identity_of_cached hcached none).bind ?_ ?_
      · intro e s' h
        exact absurd h.1 (by simp)
      · rintro info' s' ⟨hinfo, rfl⟩
        obtain rfl := Except.ok.inj hinfo
        exact Op.meets_pure ⟨rfl, rfl⟩
  · rw [module?, if_neg hrelative] at hid
    have hnone : resolvePath scope view filename specifier = pure none := by
      rw [resolvePath, if_neg hrelative]
    rw [hnone]
    exact Op.meets_pure ⟨congrArg Except.ok (Option.some.inj hid), rfl⟩

theorem meets_substitutions_of_settled {refs : List (Nat × ImportRef)}
    (hrefs : ∀ r ∈ refs, ∃ id,
      s.module? scope (scope.normalize filename) r.2.specifier = some id) :
    (Op.collect (fun r => substitution? scope view filename r.1 r.2) refs).Meets s fun r s' =>
      (∃ found, r = .ok found) ∧ s' = s := by
  induction refs with
  | nil => exact Op.meets_pure ⟨⟨[], rfl⟩, rfl⟩
  | cons r refs ih =>
      obtain ⟨⟨id, hid⟩, hrest⟩ := List.forall_mem_cons.mp hrefs
      have hfirst : (substitution? scope view filename r.1 r.2).Meets s fun x s' =>
          (∃ a, x = .ok a) ∧ s' = s := by
        refine (meets_resolve_of_settled hid).bind ?_ ?_
        · intro e s' h
          exact absurd h.1 (by simp)
        · rintro id' s' ⟨-, rfl⟩
          exact Op.meets_pure ⟨⟨_, rfl⟩, rfl⟩
      refine hfirst.bind ?_ ?_
      · rintro e s' ⟨⟨a, ha⟩, -⟩
        simp at ha
      · rintro a s' ⟨-, rfl⟩
        refine (ih hrest).bind ?_ ?_
        · rintro e s' ⟨⟨found, hfound⟩, -⟩
          simp at hfound
        · rintro found s' ⟨-, rfl⟩
          exact Op.meets_pure ⟨⟨_, rfl⟩, rfl⟩

/-- A text whose references are all settled is linked without a look at the disk. -/
theorem meets_linkImports_of_settled
    (hrefs : ∀ r ∈ commentRefs t, ∃ id,
      s.module? scope (scope.normalize filename) r.2.specifier = some id) :
    (linkImports scope view filename t).Meets s fun r _ =>
      r = .ok (Replacement.splice t (s.links scope (scope.normalize filename) t)) := by
  have hanswers : (linkImports scope view filename t).Meets s fun r _ => ∃ u, r = .ok u := by
    unfold linkImports
    refine (meets_substitutions_of_settled hrefs).bind ?_ ?_
    · rintro e s' ⟨⟨found, hfound⟩, -⟩
      simp at hfound
    · rintro found s' ⟨-, rfl⟩
      dsimp only
      split
      · exact Op.meets_pure ⟨_, rfl⟩
      · exact Op.meets_modify_bind (Op.meets_log_bind (Op.meets_pure ⟨_, rfl⟩))
  -- Which answer it is, is known in terms of the session afterwards, which links alike.
  intro log
  obtain ⟨u, hu⟩ := hanswers log
  have hmeets : (linkImports scope view filename t).Meets s _ := meets_linkImports_moves filename t
  obtain ⟨hmoves, hlinked⟩ := hmeets log
  obtain ⟨-, rfl⟩ := hlinked u hu
  rw [hu, hmoves.extends.links_eq hrefs]

/-! ## Answers stay -/

theorem identity_stays {log log' : Log} {source source' : Option Text} {info : FileIdentity}
    (hanswer : (identity scope view filename source log s).answer = .ok info)
    (hlater : Later scope (identity scope view filename source log s).state s') {view' : View}
    {filename' : Path} (hspelling : scope.normalize filename' = scope.normalize filename) :
    (identity scope view' filename' source' log' s').answer = .ok info := by
  have hcached := (meets_identity_moves filename source log).2 info hanswer
  have hcached' := hlater.moves.extends.cache _ info hcached
  rw [← hspelling] at hcached'
  exact (meets_identity_of_cached hcached' source' log').1

theorem resolve_stays {log log' : Log} {id : Text}
    (hanswer : (resolve scope view filename specifier log s).answer = .ok id)
    (hlater : Later scope (resolve scope view filename specifier log s).state s') {view' : View}
    {filename' : Path} (hspelling : scope.normalize filename' = scope.normalize filename) :
    (resolve scope view' filename' specifier log' s').answer = .ok id := by
  have hsettled := (meets_resolve_moves filename specifier log).2 id hanswer
  have hsettled' := hlater.moves.extends.module? hsettled
  rw [← hspelling] at hsettled'
  exact (meets_resolve_of_settled hsettled' log').1

theorem linkImports_stays {log log' : Log} {u : Text}
    (hanswer : (linkImports scope view filename t log s).answer = .ok u)
    (hlater : Later scope (linkImports scope view filename t log s).state s') {view' : View}
    {filename' : Path} (hspelling : scope.normalize filename' = scope.normalize filename) :
    (linkImports scope view' filename' t log' s').answer = .ok u := by
  obtain ⟨hsettled, rfl⟩ := (meets_linkImports_moves filename t log).2 u hanswer
  have hextends := hlater.moves.extends
  rw [← hspelling] at hsettled ⊢
  rw [← hextends.links_eq hsettled]
  refine meets_linkImports_of_settled (fun r hr => ?_) log'
  obtain ⟨id, hid⟩ := hsettled r hr
  exact ⟨id, hextends.module? hid⟩

theorem Extends.cached_subset (h : Extends s s') (hs : Coherent scope s) :
    s.cache.map (·.2) ⊆ s'.cache.map (·.2) := by
  intro info hinfo
  obtain ⟨⟨p, info⟩, hmem, rfl⟩ := List.mem_map.mp hinfo
  have hcached := h.cache p info (OrderedMap.get?_of_mem hs.nodup hmem)
  exact List.mem_map_of_mem (OrderedMap.mem_of_get? hcached)

/-- The names of a module only grow. -/
theorem Moves.names_grow (h : Moves scope s s') (hs : Coherent scope s) {id : Text}
    {names : List Text} (hnames : s.index.names? id = some names) :
    ∃ names', s'.index.names? id = some names' ∧ names ⊆ names' := by
  have hs' := h.coherent hs
  have hsubset := h.extends.cached_subset hs
  cases hnames' : s'.index.names? id with
  | none =>
      have hnone : s.index.names? id = none := by
        rw [hs.indexed.names?_eq_none_iff]
        intro info hinfo
        exact (hs'.indexed.names?_eq_none_iff id).mp hnames' info (hsubset hinfo)
      simp [hnone] at hnames
  | some names' =>
      refine ⟨names', rfl, fun name hname => ?_⟩
      obtain ⟨info, hinfo, hid, hdeclared⟩ := ((hs.indexed.mem_names hnames).2 name).mp hname
      exact ((hs'.indexed.mem_names hnames').2 name).mpr ⟨info, hsubset hinfo, hid, hdeclared⟩

/-- After any requests, and until the next reset, whatever disk each request sees: an identity that
was answered is the answer for every spelling of its path and every source, a module id that was
answered is the answer for every spelling of the importer, a text that was linked is linked alike,
and no name of a module is lost. -/
theorem answers_stay (scope : Scope) (before : List Request) (start : Log) :
    let s := afterRequests scope before start .fresh
    (∀ view filename source log info,
      (identity scope view filename source log s).answer = .ok info →
      ∀ s', Later scope (identity scope view filename source log s).state s' →
      ∀ view' filename' source' log', scope.normalize filename' = scope.normalize filename →
        (identity scope view' filename' source' log' s').answer = .ok info) ∧
    (∀ view filename specifier log id,
      (resolve scope view filename specifier log s).answer = .ok id →
      ∀ s', Later scope (resolve scope view filename specifier log s).state s' →
      ∀ view' filename' log', scope.normalize filename' = scope.normalize filename →
        (resolve scope view' filename' specifier log' s').answer = .ok id) ∧
    (∀ view filename t log u, (linkImports scope view filename t log s).answer = .ok u →
      ∀ s', Later scope (linkImports scope view filename t log s).state s' →
      ∀ view' filename' log', scope.normalize filename' = scope.normalize filename →
        (linkImports scope view' filename' t log' s').answer = .ok u) ∧
    (∀ id names, s.index.names? id = some names → ∀ s', Later scope s s' →
      ∃ names', s'.index.names? id = some names' ∧ names ⊆ names') := by
  intro s
  have hs : Coherent scope s := coherent_afterRequests coherent_fresh before start
  refine ⟨?_, ?_, ?_, ?_⟩
  · intro view filename source log info hanswer s' hlater view' filename' source' log' hspelling
    exact identity_stays hanswer hlater hspelling
  · intro view filename specifier log id hanswer s' hlater view' filename' log' hspelling
    exact resolve_stays hanswer hlater hspelling
  · intro view filename t log u hanswer s' hlater view' filename' log' hspelling
    exact linkImports_stays hanswer hlater hspelling
  · intro id names hnames s' hlater
    exact hlater.moves.names_grow hs hnames

/-- The directory of the sample run without its file. -/
def emptied : View := .still ⟨.empty, [['p']]⟩

set_option maxRecDepth 100000 in
theorem emptied_answers_stay :
    let s := (resolve Batch.sampleScope (.still Batch.sampleDisk) "/p/c.js".toList "./a".toList []
      .fresh).state
    (resolve Batch.sampleScope (.still Batch.sampleDisk) "/p/c.js".toList "./a".toList []
        .fresh).answer = .ok ['a'] ∧
      (resolve Batch.sampleScope emptied "d/../c.js".toList "./a".toList []
        (afterRequests Batch.sampleScope [.identity emptied "b.js".toList none] [] s)).answer =
          .ok ['a'] := by
  intro s
  have hanswer : (resolve Batch.sampleScope (.still Batch.sampleDisk) "/p/c.js".toList
      "./a".toList [] .fresh).answer = .ok ['a'] := by
    decide +kernel
  have hlater : Later Batch.sampleScope s
      (afterRequests Batch.sampleScope [.identity emptied "b.js".toList none] [] s) :=
    ⟨_, [], by simp, rfl⟩
  obtain ⟨-, hresolve, -, -⟩ := answers_stay Batch.sampleScope [] []
  exact ⟨hanswer, hresolve _ _ _ _ _ hanswer _ hlater _ _ _ (by decide +kernel)⟩

end Session

end DocRefs
