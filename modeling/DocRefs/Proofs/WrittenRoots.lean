import Mathlib
import DocRefs.Proofs.PathParts
import DocRefs.Proofs.SettingsTables

/-!
# Source roots in tables

A table writes its source roots as one text or as a list of texts, and the settings made of it have
these roots, each seen from the base directory and normalised. The main statement is that settings
which are listed as a table come back from it: their roots are absolute, so neither the base
directory nor the working directory changes them, and keys that settings do not know are dropped.
-/

namespace DocRefs

namespace Path

/-! ## Paths with the same steps -/

/-- Steps that stand for nothing can be dropped before the others are taken. -/
theorem foldSteps_filter (rooted : Bool) (kept ss : List Text) :
    foldSteps rooted kept (ss.filter fun s => s ≠ [] ∧ s ≠ here) = foldSteps rooted kept ss := by
  fun_induction foldSteps rooted kept ss with
  | case1 kept => rfl
  | case2 kept s ss hempty ih =>
      rw [List.filter_cons_of_neg (by simpa [or_iff_not_imp_left] using hempty), ih]
  | case3 ss hempty ih =>
      rw [List.filter_cons_of_pos (by decide), foldSteps, if_neg hempty, if_pos rfl, ih]
  | case4 ss k ks hempty ih =>
      rw [List.filter_cons_of_pos (by decide), foldSteps, if_neg hempty, if_pos rfl, ih]
  | case5 kept s ss hempty hup ih =>
      rw [List.filter_cons_of_pos (by simpa [not_or] using hempty),
        foldSteps_keep rooted kept hempty hup, ih]

variable {p q : Path}

theorem collapse_eq_of_ofPath_eq (h : Route.ofPath p = Route.ofPath q) :
    collapse p = collapse q := by
  obtain ⟨hslashes, hsteps⟩ := Route.mk.inj h
  unfold collapse
  dsimp only
  rw [hslashes, ← foldSteps_filter _ _ (Text.splitOn '/' p), hsteps, foldSteps_filter]

theorem isAbsolute_eq (p : Path) : isAbsolute p = decide (0 < rootSlashes p) := by
  cases h : isAbsolute p with
  | true => rcases rootSlashes_of_isAbsolute h with hp | hp <;> simp [hp]
  | false => simp [rootSlashes_of_relative h]

/-- Paths that are read as the same route are the same path when they are normalised. -/
theorem normalize_eq_of_ofPath_eq (cwd : Path) (h : Route.ofPath p = Route.ofPath q) :
    normalize cwd p = normalize cwd q := by
  have hslashes : rootSlashes p = rootSlashes q := (Route.mk.inj h).1
  have hjoin : Route.ofPath (join cwd p) = Route.ofPath (join cwd q) := by
    rw [Route.ofPath_join, Route.ofPath_join, Route.child, h, Route.child]
  unfold normalize absolute
  rw [isAbsolute_eq, isAbsolute_eq, hslashes]
  split
  · rw [collapse_eq_of_ofPath_eq h]
  · rw [collapse_eq_of_ofPath_eq hjoin]

/-- A path seen from a directory, step by step or as one joined path. -/
theorem normalize_child (cwd directory p : Path) :
    normalize cwd ((Route.ofPath directory).child p).toPath =
      normalize cwd (join directory p) := by
  rw [← Route.ofPath_join]
  apply normalize_eq_of_ofPath_eq
  exact (Route.isClean_ofPath _).ofPath_toPath (Route.slashes_ofPath_le _)

theorem IsNormal.child_eq (h : IsNormal p) (base : Route) : (base.child p).toPath = p := by
  have hslashes : (Route.ofPath p).slashes ≠ 0 := by
    rcases rootSlashes_of_isAbsolute h.isAbsolute with hp | hp <;> simp [Route.ofPath, hp]
  rw [Route.child, Route.append, if_neg hslashes, h.toPath_ofPath]

end Path

/-! ## Looking up -/

namespace Value

variable {key : Text} {v : Value} {entries : List (Value × Value)}

/-- What stands under a key that only one entry has. -/
theorem lookup?_eq_some (hmem : (text key, v) ∈ entries)
    (hunique : ∀ e ∈ entries, e.1 = text key → e = (text key, v)) :
    lookup? key entries = some v := by
  have hfound : (entries.find? fun e => e.1 == text key).isSome := by
    rw [List.find?_isSome]
    exact ⟨_, hmem, beq_text_iff.mpr rfl⟩
  obtain ⟨e, he⟩ := Option.isSome_iff_exists.mp hfound
  have hkey : e.1 = text key := by
    simpa only [beq_text_iff] using List.find?_some he
  rw [lookup?, he, hunique e (List.mem_of_find?_eq_some he) hkey]
  rfl

end Value

namespace Settings

/-! ## Roots that are written -/

/-- A value writes these texts as source roots: one, or a list of them. -/
inductive Writes : Value → List Text → Prop
  | one (t : Text) : Writes (.text t) [t]
  | many (ts : List Text) : Writes (.texts ts) ts

variable {cwd : Path} {base : Route} {fields table : List (Value × Value)} {v : Value}
  {ts : List Text} {s : Settings}

theorem Writes.rootPaths_eq (h : Writes v ts) : rootPaths v = .ok ts := by
  cases h with
  | one t => rfl
  | many ts => exact rootPaths_texts ts

theorem Writes.rootsFrom_eq (h : Writes v ts) (base : Route) :
    rootsFrom base v = .ok (ts.map fun t => (base.child t).toPath) := by
  cases h with
  | one t => rfl
  | many ts =>
      rcases mapM_text (fun t => (base.child t).toPath) (ts.map .text) with
        ⟨us, heq, hus⟩ | ⟨hodd, -⟩
      · obtain rfl : ts = us := List.map_injective_iff.mpr (fun _ _ => Value.text.inj) heq
        exact hus
      · exact absurd hodd (by simp [Value.text?])

/-- The settings that a table comes to when it writes its roots. -/
theorem ofTable_eq (hv : Value.lookup? rootsKey table = some v) (h : Writes v ts) :
    ofTable cwd base table =
      .ok (withRoots (ts.map fun t => Path.normalize cwd (base.child t).toPath) table) := by
  have hroots := h.rootsFrom_eq base
  have hinsert := ofFields_insert cwd table (ts.map fun t => (base.child t).toPath)
  rw [List.map_map] at hinsert
  have hknown : table.filter (fun e => e.1.text?.any keys.contains) = known table := rfl
  unfold ofTable
  dsimp only
  rw [hknown, lookup?_known (by decide), hv]
  cases h with
  | one t => exact hinsert
  | many ts =>
      rw [Value.texts] at hroots ⊢
      simp only [hroots]
      exact hinsert

theorem tableOutcome_of_ok (h : ofTable cwd base table = .ok s) :
    TableOutcome (Value.lookup? rootsKey table) (.ok s) :=
  h ▸ tableOutcome_ofTable cwd base table

/-- Settings come only from a table that writes its roots, or has none. -/
theorem TableOutcome.writes {v? : Option Value} (h : TableOutcome v? (.ok s)) :
    v? = none ∨ ∃ v ts, v? = some v ∧ Writes v ts := by
  cases h with
  | absent _ => exact .inl rfl
  | @one t _ _ => exact .inr ⟨_, _, rfl, .one t⟩
  | @listed vs _ htexts _ =>
      rcases mapM_text id vs with ⟨ts, rfl, -⟩ | ⟨⟨v, hv, hnone⟩, -⟩
      · exact .inr ⟨_, _, rfl, .many ts⟩
      · exact absurd (.member hv hnone) htexts

/-! ## Settings as a table and back -/

/-- The entries of settings that are listed. -/
def entries (s : Settings) : List (Value × Value) :=
  [(.text rootsKey, .texts s.roots), (.text extensionsKey, s.extensions),
    (.text excludeKey, s.exclude), (.text encodingKey, s.encoding)]

theorem eq_entries_of_toTable (h : s.toTable = .ok table) : table = s.entries := by
  unfold toTable at h
  split at h
  · exact (Except.ok.inj h).symm
  · simp at h

/-- Every key of settings has one entry. -/
theorem eq_of_mem_entries {e e' : Value × Value} (he : e ∈ s.entries) (he' : e' ∈ s.entries)
    (h : e.1 = e'.1) : e = e' := by
  have hkeys : s.entries.map Prod.fst = keys.map .text := rfl
  have hnodup : (s.entries.map Prod.fst).Nodup := by
    rw [hkeys]
    exact List.Nodup.map (fun _ _ => Value.text.inj) (by decide)
  exact List.inj_on_of_nodup_map hnodup he he' h

/-- A table that has the entries of settings among others, in any order, has them under their
keys. -/
theorem lookup?_of_perm {extra : List (Value × Value)}
    (hextra : ∀ e ∈ extra, ∀ key ∈ keys, e.1 ≠ .text key)
    (hperm : table.Perm (s.entries ++ extra)) {key : Text} (hkey : key ∈ keys)
    (hv : (.text key, v) ∈ s.entries) : Value.lookup? key table = some v := by
  apply Value.lookup?_eq_some (hperm.mem_iff.mpr (List.mem_append_left extra hv))
  intro e he hfst
  rcases List.mem_append.mp (hperm.mem_iff.mp he) with he | he
  · exact eq_of_mem_entries he hv hfst
  · exact absurd hfst (hextra e he key hkey)

/-- Settings with normal roots come back from a table that has their entries. -/
theorem ofTable_of_perm {extra : List (Value × Value)}
    (hroots : ∀ root ∈ s.roots, Path.IsNormal root)
    (hextra : ∀ e ∈ extra, ∀ key ∈ keys, e.1 ≠ .text key)
    (hperm : table.Perm (s.entries ++ extra)) : ofTable cwd base table = .ok s := by
  have hlookup : ∀ key v, key ∈ keys → (.text key, v) ∈ s.entries →
      Value.lookup? key table = some v := fun _ _ => lookup?_of_perm hextra hperm
  have hkept : (s.roots.map fun root => Path.normalize cwd (base.child root).toPath) = s.roots := by
    refine (List.map_congr_left fun root hroot => ?_).trans (List.map_id' _)
    rw [(hroots root hroot).child_eq, (hroots root hroot).normalize_eq]
  rw [ofTable_eq (hlookup rootsKey _ (by decide) (by simp [entries])) (.many s.roots), hkept,
    withRoots, hlookup extensionsKey s.extensions (by decide) (by simp [entries]),
    hlookup excludeKey s.exclude (by decide) (by simp [entries]),
    hlookup encodingKey s.encoding (by decide) (by simp [entries])]
  rfl

/-- **Settings come back from their table.** Settings can be made of any texts as source roots and
any values for the rest. The table that lists them, with whatever other keys and in whatever order,
gives settings that are listed as the same table, whatever the base directory and the working
directory. -/
theorem ofTable_toTable (hcwd : Path.isAbsolute cwd = true)
    (hkeys : ∀ e ∈ fields, e.1.text?.any keys.contains = true)
    (hroots : Writes ((Value.lookup? rootsKey fields).getD (.list [])) ts) :
    ∃ s, ofFields cwd fields = .ok s ∧
      ∀ (cwd' : Path) (base : Route) (listed extra table : List (Value × Value)),
        s.toTable = .ok listed → (∀ e ∈ extra, ∀ key ∈ keys, e.1 ≠ .text key) →
        table.Perm (listed ++ extra) →
        ∃ s', ofTable cwd' base table = .ok s' ∧ s'.toTable = .ok listed := by
  refine ⟨_, ofFields_eq cwd hkeys hroots.rootPaths_eq, ?_⟩
  intro cwd' base listed extra table hlisted hextra hperm
  rw [eq_entries_of_toTable hlisted] at hperm
  refine ⟨_, ofTable_of_perm ?_ hextra hperm, hlisted⟩
  intro root hroot
  obtain ⟨t, -, rfl⟩ := List.mem_map.mp hroot
  exact Path.isNormal_normalize hcwd t

/-- Settings with roots of many forms, an odd encoding and the extensions of a table. -/
def jumbledFields : List (Value × Value) :=
  [(.text encodingKey, .null),
    (.text rootsKey, .texts ["".toList, "..".toList, "//x//y/.".toList, "a//../b".toList]),
    (.text extensionsKey, .map [(.int 1, .list [.null])])]

/-- The settings as a table. -/
def jumbledListed : List (Value × Value) :=
  [(.text rootsKey, .texts ["/w".toList, "/".toList, "//x/y".toList, "/w/b".toList]),
    (.text extensionsKey, .map [(.int 1, .list [.null])]),
    (.text excludeKey, .texts defaultExclude), (.text encodingKey, .null)]

/-- Entries that no settings have. -/
def unknownEntries : List (Value × Value) := [(.text "theme".toList, .bool true), (.int 4, .null)]

theorem jumbled_listed_again : ∃ s s', ofFields "/w".toList jumbledFields = .ok s ∧
    s.toTable = .ok jumbledListed ∧
    ofTable "/v".toList (Route.ofPath "q/..".toList) (unknownEntries ++ jumbledListed.reverse) =
      .ok s' ∧
    s'.toTable = .ok jumbledListed := by
  have hkeys : ∀ e ∈ jumbledFields, e.1.text?.any keys.contains = true := by decide +kernel
  have hcwd : Path.isAbsolute "/w".toList = true := rfl
  obtain ⟨s, hs, hback⟩ := ofTable_toTable hcwd hkeys (.many _)
  have hlisted : s.toTable = .ok jumbledListed := by
    obtain rfl := Except.ok.inj hs
    rfl
  have hextra : ∀ e ∈ unknownEntries, ∀ key ∈ keys, e.1 ≠ .text key := by
    have htheme : ∀ key ∈ keys, "theme".toList ≠ key := by decide
    simpa [unknownEntries] using htheme
  have hperm : (unknownEntries ++ jumbledListed.reverse).Perm (jumbledListed ++ unknownEntries) :=
    List.perm_append_comm.trans ((List.reverse_perm jumbledListed).append_right unknownEntries)
  obtain ⟨s', hs', hagain⟩ := hback _ _ _ _ _ hlisted hextra hperm
  exact ⟨s, s', hs, hlisted, hs', hagain⟩

end Settings

end DocRefs
