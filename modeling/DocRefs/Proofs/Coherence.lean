import Mathlib
import DocRefs.Proofs.Requests

/-!
# Cache and index agree

The cache and the type index are two maps that are filled together. In every session that requests
can lead to, each file is cached under its own normal path, and the index holds exactly the type
names of the cached files, by module. So the statistics count files, modules, and pairs of a module
and a name.
-/

namespace DocRefs

/-- An identity that a text gives has the types of all comments and the id of the first module
tag. -/
theorem FileIdentity.exists_of_ofText {roots : List Path} {p : Path} {t : Text}
    {info : FileIdentity} (h : ofText roots p t = .ok info) :
    ∃ id, info = ⟨p, id, (DocComment.scan t).flatMap fun c => declaredTypes c.text,
        (firstModuleTag? (DocComment.scan t)).isSome⟩ ∧
      (firstModuleTag? (DocComment.scan t) = none → id = []) ∧
      ∀ name, firstModuleTag? (DocComment.scan t) = some name →
        if name = [] then derivedId roots p = .ok id else id = name := by
  unfold ofText at h
  dsimp only at h
  split at h
  next hnone => exact ⟨[], (Except.ok.inj h).symm, fun _ => rfl, by simp [hnone]⟩
  next hempty =>
    cases hid : derivedId roots p with
    | error e => simp [hid, Bind.bind, Except.bind] at h
    | ok id =>
        rw [hid] at h
        refine ⟨id, (Except.ok.inj h).symm, by simp [hempty], fun name hname => ?_⟩
        obtain rfl := Option.some.inj (hempty.symm.trans hname)
        rw [if_pos rfl]
  next name hne hsome =>
    refine ⟨name, (Except.ok.inj h).symm, by simp [hsome], fun name' hname => ?_⟩
    obtain rfl := Option.some.inj (hsome.symm.trans hname)
    rw [if_neg hne]

theorem FileIdentity.path_of_ofText {roots : List Path} {p : Path} {t : Text} {info : FileIdentity}
    (h : ofText roots p t = .ok info) : info.path = p := by
  obtain ⟨id, rfl, -⟩ := exists_of_ofText h
  rfl

namespace TypeIndex.Indexes

variable {index : TypeIndex} {infos : List FileIdentity}

theorem names?_eq_none_iff (h : index.Indexes infos) (id : Text) :
    index.names? id = none ↔ ∀ info ∈ infos, info.moduleId ≠ id := by
  rw [h.names?_eq]
  split
  next hid =>
    obtain ⟨info, hinfo, rfl⟩ := List.mem_map.mp hid
    simp only [reduceCtorEq, false_iff, not_forall]
    exact ⟨info, hinfo, fun hne => hne rfl⟩
  next hid =>
    simp only [true_iff]
    rintro info hinfo rfl
    exact hid (List.mem_map_of_mem hinfo)

/-- The names of a module are those that its files declare, each once. -/
theorem mem_names (h : index.Indexes infos) {id : Text} {names : List Text}
    (hnames : index.names? id = some names) :
    names.Nodup ∧ ∀ name, name ∈ names ↔
      ∃ info ∈ infos, info.moduleId = id ∧ name ∈ info.typeNames := by
  rw [h.names?_eq] at hnames
  split at hnames
  · obtain rfl := Option.some.inj hnames
    refine ⟨(Text.ascending_sortedSet _).nodup, fun name => ?_⟩
    rw [Text.mem_sortedSet, mem_declaredIn]
  · simp at hnames

theorem names?_of_mem (h : index.Indexes infos) {e : Text × List Text} (he : e ∈ index.entries) :
    index.names? e.1 = some e.2 :=
  OrderedMap.get?_of_mem h.ascending.nodup he

theorem mem_ids (h : index.Indexes infos) (id : Text) :
    id ∈ index.ids ↔ id ∈ infos.map FileIdentity.moduleId := by
  constructor
  · intro hid
    obtain ⟨e, he, rfl⟩ := List.mem_map.mp hid
    by_contra hnot
    have hnone := h.names?_of_mem he
    rw [h.names?_eq, if_neg hnot] at hnone
    simp at hnone
  · intro hid
    have hsome := h.names?_eq id
    rw [if_pos hid] at hsome
    exact List.mem_map_of_mem (OrderedMap.mem_of_get? hsome)

/-- The number of ids is the number of different modules. -/
theorem size_eq (h : index.Indexes infos) :
    index.size = (infos.map FileIdentity.moduleId).dedup.length := by
  have hperm : index.ids.Perm (infos.map FileIdentity.moduleId).dedup := by
    refine (List.perm_ext_iff_of_nodup h.ascending.nodup (List.nodup_dedup _)).mpr fun id => ?_
    rw [List.mem_dedup]
    exact h.mem_ids id
  rw [← hperm.length_eq, ids, List.length_map, size]

/-- The pairs of a module and a name in an index. -/
def pairs (index : TypeIndex) : List (Text × Text) :=
  index.entries.flatMap fun e => e.2.map (Prod.mk e.1)

theorem nodup_pairs (h : index.Indexes infos) : (pairs index).Nodup := by
  unfold pairs
  rw [List.nodup_flatMap]
  constructor
  · intro e he
    exact ((h.mem_names (h.names?_of_mem he)).1).map (Prod.mk_right_injective e.1)
  · have hids : index.entries.Pairwise fun a b => a.1 ≠ b.1 :=
      List.pairwise_map.mp h.ascending.nodup
    refine hids.imp ?_
    intro a b hne x hxa hxb
    obtain ⟨name, -, rfl⟩ := List.mem_map.mp hxa
    obtain ⟨name', -, heq⟩ := List.mem_map.mp hxb
    exact hne (Prod.mk.inj heq).1.symm

theorem mem_pairs (h : index.Indexes infos) (id name : Text) :
    (id, name) ∈ pairs index ↔
      ∃ info ∈ infos, info.moduleId = id ∧ name ∈ info.typeNames := by
  constructor
  · intro hmem
    obtain ⟨e, he, hmem⟩ := List.mem_flatMap.mp hmem
    obtain ⟨name', hname, heq⟩ := List.mem_map.mp hmem
    obtain ⟨rfl, rfl⟩ := Prod.mk.inj heq
    exact ((h.mem_names (h.names?_of_mem he)).2 name').mp hname
  · intro hdeclared
    have hid : id ∈ infos.map FileIdentity.moduleId := by
      obtain ⟨info, hinfo, rfl, -⟩ := hdeclared
      exact List.mem_map_of_mem hinfo
    have hnames := h.names?_eq id
    rw [if_pos hid] at hnames
    have hname := ((h.mem_names hnames).2 name).mpr hdeclared
    exact List.mem_flatMap.mpr ⟨_, OrderedMap.mem_of_get? hnames, List.mem_map_of_mem hname⟩

/-- The number of names is the number of different pairs of a module and a name. -/
theorem nameCount_eq (h : index.Indexes infos) :
    index.nameCount =
      (infos.flatMap fun info => info.typeNames.map (Prod.mk info.moduleId)).dedup.length := by
  have hperm : (pairs index).Perm
      (infos.flatMap fun info => info.typeNames.map (Prod.mk info.moduleId)).dedup := by
    rw [List.perm_ext_iff_of_nodup h.nodup_pairs (List.nodup_dedup _)]
    rintro ⟨id, name⟩
    rw [h.mem_pairs, List.mem_dedup]
    simp [and_comm, eq_comm]
  have hsum : ∀ (es : List (Text × List Text)) (n : Nat),
      es.foldl (fun n e => n + e.2.length) n =
        n + (es.flatMap fun e => e.2.map (Prod.mk e.1)).length := by
    intro es
    induction es with
    | nil => simp
    | cons e es ih =>
        intro n
        rw [List.foldl_cons, ih, List.flatMap_cons, List.length_append, List.length_map]
        omega
  rw [← hperm.length_eq, nameCount, h.strays, hsum, pairs]
  simp

end TypeIndex.Indexes

namespace Session

/-- Every file is cached under its own path, and the index is that of the cached files. -/
structure Coherent (scope : Scope) (s : Session) : Prop where
  nodup : (OrderedMap.keys s.cache).Nodup
  own : ∀ p info, (p, info) ∈ s.cache → info.path = p ∧ ∃ filename, p = scope.normalize filename
  indexed : s.index.Indexes (s.cache.map (·.2))

variable {scope : Scope} {s s' : Session}

theorem coherent_fresh : Coherent scope .fresh where
  nodup := List.nodup_nil
  own := by simp [fresh]
  indexed := TypeIndex.indexes_empty

theorem Move.coherent (h : Move scope s s') (hs : Coherent scope s) : Coherent scope s' := by
  cases h with
  | @record filename t info hnew hinfo =>
      have hnot := OrderedMap.get?_eq_none_iff.mp hnew
      have hput := OrderedMap.put_of_notMem hnot info
      refine ⟨OrderedMap.nodup_keys_put hs.nodup _ info, ?_, ?_⟩
      · intro p info' hmem
        rw [record_cache, hput, List.mem_append, List.mem_singleton] at hmem
        rcases hmem with hold | hlast
        · exact hs.own p info' hold
        · obtain ⟨rfl, rfl⟩ := Prod.mk.inj hlast
          exact ⟨FileIdentity.path_of_ofText hinfo, filename, rfl⟩
      · rw [record_cache, record_index, hput, List.map_append]
        exact hs.indexed.record info
  | remember => exact ⟨hs.nodup, hs.own, hs.indexed⟩
  | tally => exact ⟨hs.nodup, hs.own, hs.indexed⟩

theorem Moves.coherent (h : Moves scope s s') (hs : Coherent scope s) : Coherent scope s' := by
  induction h with
  | refl => exact hs
  | tail _ hmove ih => exact hmove.coherent ih

theorem coherent_afterRequests (hs : Coherent scope s) (requests : List Request) (log : Log) :
    Coherent scope (afterRequests scope requests log s) := by
  induction requests generalizing s log with
  | nil => exact hs
  | cons request requests ih =>
      by_cases hreset : request = .reset
      · subst hreset
        exact ih coherent_fresh log
      · exact ih ((request.meets_op hreset log).coherent hs) _

/-- After any requests, failed ones and resets among them, and whatever disk each of them has seen:
every file is cached under its own path, which is normal; a module is in the index exactly when a
cached file has its id, and then with the names that the cached files of the module declare; and the
statistics count the cached files, their modules, and their pairs of a module and a name. -/
theorem index_holds_cached_names {disk : Disk} {settings : Settings}
    (hscope : Scope.ofSettings disk.cwdPath settings = .ok scope) (requests : List Request)
    (log : Log) :
    let s := afterRequests scope requests log .fresh
    let infos := s.cache.map (·.2)
    (OrderedMap.keys s.cache).Nodup ∧
    (∀ p info, (p, info) ∈ s.cache → info.path = p ∧ scope.normalize p = p) ∧
    (∀ id, s.index.names? id = none ↔ ∀ info ∈ infos, info.moduleId ≠ id) ∧
    (∀ id names, s.index.names? id = some names → names.Nodup ∧ ∀ name, name ∈ names ↔
      ∃ info ∈ infos, info.moduleId = id ∧ name ∈ info.typeNames) ∧
    s.statistics.files = s.cache.length ∧
    s.statistics.modules = (infos.map FileIdentity.moduleId).dedup.length ∧
    s.statistics.typeNames =
      (infos.flatMap fun info => info.typeNames.map (Prod.mk info.moduleId)).dedup.length := by
  intro s infos
  have hs : Coherent scope s := coherent_afterRequests coherent_fresh requests log
  refine ⟨hs.nodup, ?_, hs.indexed.names?_eq_none_iff, ?_, rfl, hs.indexed.size_eq,
    hs.indexed.nameCount_eq⟩
  · intro p info hmem
    obtain ⟨hpath, filename, rfl⟩ := hs.own p info hmem
    exact ⟨hpath, (Batch.isNormal_normalize hscope filename).normalize_eq scope.cwd⟩
  · intro id names hnames
    exact hs.indexed.mem_names hnames

/-- A text that imports the one file of the disk is linked, and then a file outside the source roots
is refused. -/
def mixedRequests : List Request :=
  [.linkImports (.still Batch.sampleDisk) Batch.samplePath
      "/** @type \x7bimport('./a').T\x7d */".toList,
    .identity (.still Batch.sampleDisk) "/q/c.js".toList (some "/** @module */".toList)]

set_option maxRecDepth 100000 in
theorem mixed_index_holds_cached_names :
    Scope.ofSettings Batch.sampleDisk.cwdPath Batch.sampleSettings = .ok Batch.sampleScope ∧
      let s := afterRequests Batch.sampleScope mixedRequests [] .fresh
      s.index.names? ['a'] = some [['T']] ∧
      (∃ info ∈ s.cache.map (·.2), info.moduleId = ['a'] ∧ ['T'] ∈ info.typeNames) ∧
      s.statistics.modules = ((s.cache.map (·.2)).map FileIdentity.moduleId).dedup.length := by
  obtain ⟨-, -, -, hnames, -, hmodules, -⟩ :=
    index_holds_cached_names Batch.sample_scope mixedRequests []
  have hfound : (afterRequests Batch.sampleScope mixedRequests [] .fresh).index.names? ['a'] =
      some [['T']] := by
    decide +kernel
  exact ⟨Batch.sample_scope, hfound,
    ((hnames ['a'] _ hfound).2 ['T']).mp (List.mem_singleton_self _), hmodules⟩

end Session

end DocRefs
