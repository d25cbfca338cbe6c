import Mathlib
import DocRefs.FileIdentity
import DocRefs.OrderedMap
import DocRefs.TypeIndex
import DocRefs.Proofs.Sorting

/-!
# Maps and the type index

An ordered map holds one value for each of its keys. A type index that holds, for every module, the
names of the files with that id is determined by the set of these files, in whatever order they were
recorded.
-/

namespace DocRefs

namespace OrderedMap

variable {κ α : Type} [DecidableEq κ]

theorem mem_of_get? {m : OrderedMap κ α} {key : κ} {value : α} (h : get? key m = some value) :
    (key, value) ∈ m := by
  obtain ⟨e, he, rfl⟩ := Option.map_eq_some_iff.mp h
  have hkey := List.find?_some he
  rw [decide_eq_true_eq] at hkey
  subst hkey
  exact List.mem_of_find?_eq_some he

theorem get?_eq_none_iff {m : OrderedMap κ α} {key : κ} : get? key m = none ↔ key ∉ keys m := by
  unfold get? keys
  rw [Option.map_eq_none_iff, List.find?_eq_none]
  constructor
  · intro h hmem
    obtain ⟨e, he, hkey⟩ := List.mem_map.mp hmem
    exact h e he (decide_eq_true hkey)
  · intro h e he hkey
    exact h (List.mem_map.mpr ⟨e, he, of_decide_eq_true hkey⟩)

theorem exists_get?_of_mem_keys {m : OrderedMap κ α} {key : κ} (h : key ∈ keys m) :
    ∃ value, get? key m = some value := by
  apply Option.ne_none_iff_exists'.mp
  rwa [ne_eq, get?_eq_none_iff, not_not]

theorem mem_keys_of_get? {m : OrderedMap κ α} {key : κ} {value : α}
    (h : get? key m = some value) : key ∈ keys m :=
  List.mem_map_of_mem (mem_of_get? h)

theorem get?_of_mem {m : OrderedMap κ α} (hnodup : (keys m).Nodup) {key : κ} {value : α}
    (h : (key, value) ∈ m) : get? key m = some value := by
  induction m with
  | nil => simp at h
  | cons e m ih =>
      obtain ⟨hnot, hnodup⟩ := List.nodup_cons.mp hnodup
      rcases List.mem_cons.mp h with rfl | h
      · simp [get?]
      · have hne : e.1 ≠ key := by
          rintro rfl
          exact hnot (List.mem_map.mpr ⟨_, h, rfl⟩)
        rw [← ih hnodup h]
        simp [get?, hne]

/-- A new key goes to the end. -/
theorem put_of_notMem {m : OrderedMap κ α} {key : κ} (h : key ∉ keys m) (value : α) :
    put key value m = m ++ [(key, value)] := by
  induction m with
  | nil => rfl
  | cons e m ih =>
      rw [keys, List.map_cons, List.mem_cons, not_or] at h
      rw [put, if_neg (Ne.symm h.1), ih h.2]
      rfl

theorem keys_put (m : OrderedMap κ α) (key : κ) (value : α) :
    keys (put key value m) = if key ∈ keys m then keys m else keys m ++ [key] := by
  split
  next hmem =>
    induction m with
    | nil => simp [keys] at hmem
    | cons e m ih =>
        rw [put]
        split
        · rfl
        next hne =>
          have hrest : key ∈ keys m :=
            (List.mem_cons.mp hmem).resolve_left (Ne.symm hne)
          exact congrArg (e.1 :: ·) (ih hrest)
  next hmem => rw [put_of_notMem hmem, keys, List.map_append]; rfl

theorem nodup_keys_put {m : OrderedMap κ α} (h : (keys m).Nodup) (key : κ) (value : α) :
    (keys (put key value m)).Nodup := by
  rw [keys_put]
  split
  · exact h
  next hmem =>
    rw [List.nodup_append]
    refine ⟨h, List.nodup_singleton key, ?_⟩
    rintro k hk _ hkey rfl
    obtain rfl := List.mem_singleton.mp hkey
    exact hmem hk

theorem ofPairs_append (pairs : List (κ × α)) (key : κ) (value : α) :
    ofPairs (pairs ++ [(key, value)]) = put key value (ofPairs pairs) := by
  rw [ofPairs, List.foldl_append]
  rfl

theorem nodup_keys_ofPairs (pairs : List (κ × α)) : (keys (ofPairs pairs)).Nodup := by
  induction pairs using List.reverseRecOn with
  | nil => exact List.nodup_nil
  | append_singleton pairs e ih =>
      rw [ofPairs_append]
      exact nodup_keys_put ih e.1 e.2

/-- Pairs with one value for each key give a map with these values, however often and in whatever
order the keys come. -/
theorem get?_ofPairs (keys : List κ) (f : κ → α) (key : κ) :
    get? key (ofPairs (keys.map fun k => (k, f k))) =
      if key ∈ keys then some (f key) else none := by
  induction keys using List.reverseRecOn with
  | nil => rfl
  | append_singleton keys k ih =>
      rw [List.map_append, List.map_singleton, ofPairs_append, get?_put, ih]
      by_cases hk : k = key
      · subst hk
        simp
      · simp [hk, Ne.symm hk]

end OrderedMap

/-! ## The type index -/

/-- The names that the files of a module declare. -/
def declaredIn (infos : List FileIdentity) (id : Text) : List Text :=
  (infos.filter fun info => info.moduleId = id).flatMap FileIdentity.typeNames

theorem mem_declaredIn {infos : List FileIdentity} {id name : Text} :
    name ∈ declaredIn infos id ↔
      ∃ info ∈ infos, info.moduleId = id ∧ name ∈ info.typeNames := by
  simp [declaredIn, and_assoc]

namespace TypeIndex

/-- The ids of entries are ascending. -/
def Ascending (es : List (Text × List Text)) : Prop := Text.Ascending (es.map (·.1))

/-- The names under an id among entries. -/
def lookup? (id : Text) (es : List (Text × List Text)) : Option (List Text) :=
  (es.find? fun e => e.1 = id).map (·.2)

theorem lookup?_cons (id : Text) (e : Text × List Text) (es : List (Text × List Text)) :
    lookup? id (e :: es) = if e.1 = id then some e.2 else lookup? id es := by
  by_cases h : e.1 = id <;> simp [lookup?, h]

theorem lookup?_eq_none {id : Text} {es : List (Text × List Text)} (h : id ∉ es.map (·.1)) :
    lookup? id es = none := by
  unfold lookup?
  rw [Option.map_eq_none_iff, List.find?_eq_none]
  intro e he
  rw [decide_eq_true_eq]
  rintro rfl
  exact h (List.mem_map_of_mem he)

theorem mem_ids_addTo {id k : Text} {names : List Text} {es : List (Text × List Text)} :
    k ∈ (addTo id names es).map (·.1) ↔ k = id ∨ k ∈ es.map (·.1) := by
  induction es with
  | nil => simp [addTo]
  | cons e es ih =>
      rw [addTo]
      split
      next heq => simp [← heq]
      split
      · simp
      · rw [List.map_cons, List.mem_cons, ih, List.map_cons, List.mem_cons, or_left_comm]

theorem ascending_addTo {es : List (Text × List Text)} (h : Ascending es) (id : Text)
    (names : List Text) : Ascending (addTo id names es) := by
  induction es with
  | nil => exact List.pairwise_singleton _ id
  | cons e es ih =>
      obtain ⟨he, hes⟩ := List.pairwise_cons.mp h
      rw [addTo]
      split
      · exact h
      next hne =>
        split
        next hle =>
          refine List.pairwise_cons.mpr ⟨?_, h⟩
          intro k hk
          rcases List.mem_cons.mp hk with rfl | hk
          · exact ⟨hle, Ne.symm hne⟩
          · refine ⟨Text.le_trans hle (he k hk).1, ?_⟩
            rintro rfl
            exact hne (Text.le_antisymm (he id hk).1 hle)
        next hle =>
          refine List.pairwise_cons.mpr ⟨?_, ih hes⟩
          intro k hk
          rcases mem_ids_addTo.mp hk with rfl | hk
          · exact ⟨(Text.le_total k e.1).resolve_left hle, hne⟩
          · exact he k hk

/-- Adding names merges them with those under the id and leaves the other ids as they are. -/
theorem lookup?_addTo {es : List (Text × List Text)} (h : Ascending es) (id k : Text)
    (names : List Text) :
    lookup? k (addTo id names es) =
      if id = k then some (Text.sortedSet ((lookup? id es).getD [] ++ names))
      else lookup? k es := by
  induction es with
  | nil => simp [addTo, lookup?]
  | cons e es ih =>
      obtain ⟨he, hes⟩ := List.pairwise_cons.mp h
      rw [addTo]
      split
      next heq =>
        subst heq
        rw [lookup?_cons, lookup?_cons, if_pos rfl, lookup?_cons]
        by_cases hk : e.1 = k <;> simp [hk]
      next hne =>
        split
        next hle =>
          -- The id comes before all others, so nothing is under it yet.
          have hnone : lookup? id es = none := by
            apply lookup?_eq_none
            intro hmem
            exact hne (Text.le_antisymm (he id hmem).1 hle)
          rw [lookup?_cons, lookup?_cons id, if_neg hne, hnone]
          rfl
        next hle =>
          rw [lookup?_cons, ih hes, lookup?_cons id, if_neg hne, lookup?_cons k]
          by_cases hk : e.1 = k
          · have hidk : id ≠ k := fun heq => hne (hk.trans heq.symm)
            simp [hk, hidk]
          · simp [hk]

/-- Ascending entries are determined by what is under each id. -/
theorem eq_of_lookup?_eq {es fs : List (Text × List Text)} (hes : Ascending es)
    (hfs : Ascending fs) (h : ∀ id, lookup? id es = lookup? id fs) : es = fs := by
  have hmem : ∀ {gs : List (Text × List Text)}, Ascending gs → ∀ id names,
      (id, names) ∈ gs ↔ lookup? id gs = some names := by
    intro gs hgs id names
    exact ⟨OrderedMap.get?_of_mem hgs.nodup, OrderedMap.mem_of_get?⟩
  have hperm : es.Perm fs := by
    rw [List.perm_ext_iff_of_nodup (List.Nodup.of_map _ hes.nodup) (List.Nodup.of_map _ hfs.nodup)]
    rintro ⟨id, names⟩
    rw [hmem hes, hmem hfs, h]
  refine List.Perm.eq_of_pairwise ?_ (List.pairwise_map.mp hes) (List.pairwise_map.mp hfs) hperm
  intro a b _ _ hab hba
  exact absurd (Text.le_antisymm hab.1 hba.1) hab.2

/-- The index holds the names of these files by their module, and nothing else. -/
structure Indexes (index : TypeIndex) (infos : List FileIdentity) : Prop where
  ascending : Ascending index.entries
  names?_eq : ∀ id, index.names? id =
    if id ∈ infos.map FileIdentity.moduleId then some (Text.sortedSet (declaredIn infos id))
    else none
  strays : index.strays = []

theorem indexes_empty : empty.Indexes [] := ⟨List.Pairwise.nil, fun _ => rfl, rfl⟩

namespace Indexes

variable {index other : TypeIndex} {infos : List FileIdentity}

theorem getD_names? (h : index.Indexes infos) (id : Text) :
    (index.names? id).getD [] = Text.sortedSet (declaredIn infos id) := by
  rw [h.names?_eq]
  split
  · rfl
  next hid =>
    have hnone : declaredIn infos id = [] := by
      rw [List.eq_nil_iff_forall_not_mem]
      intro name hname
      obtain ⟨info, hinfo, rfl, -⟩ := mem_declaredIn.mp hname
      exact hid (List.mem_map_of_mem hinfo)
    simp [hnone, Text.sortedSet, Text.sort, Text.dropRepeats]

/-- Recording a file's names indexes the file. -/
theorem record (h : index.Indexes infos) (info : FileIdentity) :
    (index.record info.moduleId info.typeNames).Indexes (infos ++ [info]) := by
  refine ⟨ascending_addTo h.ascending _ _, fun id => ?_, h.strays⟩
  have hlookup := lookup?_addTo h.ascending info.moduleId id info.typeNames
  have hnames : (lookup? info.moduleId index.entries).getD [] = _ := h.getD_names? info.moduleId
  rw [hnames] at hlookup
  refine hlookup.trans ?_
  split
  next heq =>
    subst heq
    rw [if_pos (by simp)]
    congr 1
    -- The names recorded so far are sorted already; sorting all again gives the same set.
    apply Text.sortedSet_eq_of_mem_iff
    intro name
    rw [List.mem_append, Text.mem_sortedSet, mem_declaredIn, mem_declaredIn]
    simp only [List.mem_append, List.mem_singleton]
    constructor
    · rintro (⟨i, hi, hid, hname⟩ | hname)
      · exact ⟨i, .inl hi, hid, hname⟩
      · exact ⟨info, .inr rfl, rfl, hname⟩
    · rintro ⟨i, hi | rfl, hid, hname⟩
      · exact .inl ⟨i, hi, hid, hname⟩
      · exact .inr hname
  next hne =>
    have hids : id ∈ (infos ++ [info]).map FileIdentity.moduleId ↔
        id ∈ infos.map FileIdentity.moduleId := by
      simp [Ne.symm hne]
    have hdeclared : declaredIn (infos ++ [info]) id = declaredIn infos id := by
      simp [declaredIn, List.filter_append, hne]
    rw [hdeclared]
    simp only [hids]
    exact h.names?_eq id

/-- The index depends on the set of files only. -/
theorem congr (h : index.Indexes infos) {infos' : List FileIdentity}
    (hmem : ∀ info, info ∈ infos ↔ info ∈ infos') : index.Indexes infos' := by
  refine ⟨h.ascending, fun id => ?_, h.strays⟩
  have hids : id ∈ infos.map FileIdentity.moduleId ↔ id ∈ infos'.map FileIdentity.moduleId := by
    simp [hmem]
  have hnames : Text.sortedSet (declaredIn infos id) = Text.sortedSet (declaredIn infos' id) := by
    apply Text.sortedSet_eq_of_mem_iff
    intro name
    rw [mem_declaredIn, mem_declaredIn]
    simp only [hmem]
  rw [h.names?_eq, hnames]
  simp only [hids]

theorem unique (h : index.Indexes infos) (hother : other.Indexes infos) : index = other := by
  obtain ⟨entries, strays⟩ := index
  obtain ⟨entries', strays'⟩ := other
  obtain rfl : strays = [] := h.strays
  obtain rfl : strays' = [] := hother.strays
  have hentries : entries = entries' := by
    apply eq_of_lookup?_eq h.ascending hother.ascending
    intro id
    exact (h.names?_eq id).trans (hother.names?_eq id).symm
  rw [hentries]

end Indexes

end TypeIndex

end DocRefs
