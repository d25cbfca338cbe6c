import Mathlib
import DocRefs.Proofs.Places

/-!
# Where routes lead

Reading a joined path as a route gives the route of the first part with the steps of the second. On
a disk the steps of a route are followed one by one, so a route that goes on with names leads to
these names below the place where it led before.
-/

namespace DocRefs

namespace Text

theorem splitOn_append_sep (sep : Char) (t u : Text) :
    splitOn sep (t ++ sep :: u) = splitOn sep t ++ splitOn sep u := by
  induction t with
  | nil => exact splitOn_cons_self sep u
  | cons c t ih =>
      by_cases hc : c = sep
      · subst hc
        rw [List.cons_append, splitOn_cons_self, splitOn_cons_self, ih, List.cons_append]
      · rw [List.cons_append, splitOn, if_neg hc, ih, splitOn, if_neg hc]
        cases hsplit : splitOn sep t with
        | nil => exact absurd hsplit (splitOn_ne_nil sep t)
        | cons s ss => rfl

theorem join_splitOn (sep : Char) (t : Text) : join [sep] (splitOn sep t) = t := by
  induction t with
  | nil => rfl
  | cons c t ih =>
      cases hsplit : splitOn sep t with
      | nil => exact absurd hsplit (splitOn_ne_nil sep t)
      | cons s ss =>
          rw [hsplit] at ih
          by_cases hc : c = sep
          · subst hc
            rw [splitOn_cons_self, hsplit, join, ih]
            · rfl
            · simp
          · rw [splitOn, if_neg hc, hsplit]
            cases ss with
            | nil => simpa [join] using ih
            | cons s' ss => simpa [join] using ih

theorem splitOn_injective (sep : Char) : Function.Injective (splitOn sep) := by
  intro t u h
  rw [← join_splitOn sep t, h, join_splitOn]

theorem splitOn_replicate_append (sep : Char) (n : Nat) (t : Text) :
    splitOn sep (List.replicate n sep ++ t) = List.replicate n [] ++ splitOn sep t := by
  induction n with
  | zero => rfl
  | succ n ih =>
      rw [List.replicate_succ, List.cons_append, splitOn_cons_self, ih, List.replicate_succ,
        List.cons_append]

theorem mem_join {sep c : Char} {ts : List Text} (h : c ∈ join [sep] ts) :
    c = sep ∨ ∃ t ∈ ts, c ∈ t := by
  induction ts with
  | nil => simp [join] at h
  | cons t ts ih =>
      cases ts with
      | nil => exact .inr ⟨t, List.mem_singleton_self t, h⟩
      | cons u us =>
          rw [join, List.append_assoc, List.mem_append, List.singleton_append, List.mem_cons] at h
          · rcases h with h | rfl | h
            · exact .inr ⟨t, List.mem_cons_self, h⟩
            · exact .inl rfl
            · rcases ih h with hsep | ⟨v, hv, hc⟩
              · exact .inl hsep
              · exact .inr ⟨v, List.mem_cons_of_mem t hv, hc⟩
          · simp

theorem mem_join_of_mem {sep c : Char} {ts : List Text} {t : Text} (ht : t ∈ ts) (hc : c ∈ t) :
    c ∈ join [sep] ts := by
  induction ts with
  | nil => simp at ht
  | cons u us ih =>
      cases us with
      | nil =>
          obtain rfl := List.mem_singleton.mp ht
          exact hc
      | cons v vs =>
          rw [join, List.append_assoc, List.mem_append, List.singleton_append, List.mem_cons]
          · rcases List.mem_cons.mp ht with rfl | ht
            · exact .inl hc
            · exact .inr (.inr (ih ht))
          · simp

end Text

namespace Path

/-- At most three characters are looked at. -/
theorem rootSlashes_eq (p : Path) :
    rootSlashes p =
      if p[0]? = some '/' then if p[1]? = some '/' ∧ p[2]? ≠ some '/' then 2 else 1 else 0 := by
  rcases p with _ | ⟨a, _ | ⟨b, _ | ⟨c, p⟩⟩⟩
  · rfl
  · by_cases ha : a = '/' <;> simp [rootSlashes, ha]
  · by_cases ha : a = '/' <;> by_cases hb : b = '/' <;> simp [rootSlashes, ha, hb]
  · by_cases ha : a = '/' <;> by_cases hb : b = '/' <;> by_cases hc : c = '/' <;>
      simp [rootSlashes, ha, hb, hc]

theorem rootSlashes_append (p : Path) {q : Path} (h : isAbsolute q = false) :
    rootSlashes (p ++ q) = rootSlashes p := by
  have hslash : q[0]? ≠ some '/' := by
    cases q with
    | nil => simp
    | cons c q =>
        intro hc
        obtain rfl : c = '/' := by simpa using hc
        simp [isAbsolute] at h
  rw [rootSlashes_eq, rootSlashes_eq]
  grind

theorem rootSlashes_of_relative {p : Path} (h : isAbsolute p = false) : rootSlashes p = 0 :=
  rootSlashes_append [] h

/-- A slash is put between two paths unless there is one or nothing comes before. -/
theorem join_cases (p : Path) {q : Path} (h : isAbsolute q = false) :
    (p = [] ∧ join p q = q) ∨ (∃ front, p = front ++ ['/'] ∧ join p q = front ++ '/' :: q) ∨
      ∃ front c, c ≠ '/' ∧ p = front ++ [c] ∧ join p q = front ++ [c] ++ '/' :: q := by
  unfold join
  rw [if_neg (by simp [h])]
  rcases List.eq_nil_or_concat p with rfl | ⟨front, c, rfl⟩
  · exact .inl ⟨rfl, rfl⟩
  · rw [List.concat_eq_append]
    by_cases hc : c = '/'
    · subst hc
      refine .inr (.inl ⟨front, rfl, ?_⟩)
      simp
    · refine .inr (.inr ⟨front, c, hc, rfl, ?_⟩)
      simp [hc]

theorem rootSlashes_join (p : Path) {q : Path} (h : isAbsolute q = false) :
    rootSlashes (join p q) = rootSlashes p := by
  rcases join_cases p h with ⟨rfl, hjoin⟩ | ⟨front, rfl, hjoin⟩ | ⟨front, c, hc, rfl, hjoin⟩
  · rw [hjoin]
    exact rootSlashes_of_relative h
  · rw [hjoin, List.append_cons, rootSlashes_append _ h]
  · have hfirst : ∀ t, isAbsolute (c :: t) = false := fun t => by simp [isAbsolute, hc]
    rw [hjoin, List.append_assoc, List.singleton_append, rootSlashes_append front (hfirst _),
      rootSlashes_append front (hfirst _)]

theorem getLast?_rootWithSlash (root : Path) : (rootWithSlash root).getLast? = some '/' := by
  unfold rootWithSlash
  split
  next hlast => simpa using hlast
  next => simp

end Path

namespace Route

theorem steps_join (p : Path) {q : Path} (h : Path.isAbsolute q = false) :
    (ofPath (Path.join p q)).steps = (ofPath p).steps ++ (ofPath q).steps := by
  simp only [ofPath]
  rcases Path.join_cases p h with ⟨rfl, hjoin⟩ | ⟨front, rfl, hjoin⟩ | ⟨front, c, -, rfl, hjoin⟩
  · rw [hjoin]
    rfl
  · rw [hjoin, Text.splitOn_append_sep, Text.splitOn_append_sep, List.filter_append,
      List.filter_append]
    simp [Text.splitOn]
  · rw [hjoin, Text.splitOn_append_sep, List.filter_append]

/-- Reading a joined path goes on from the route of its first part. -/
theorem ofPath_join (p q : Path) : ofPath (Path.join p q) = (ofPath p).child q := by
  unfold child append
  cases habsolute : Path.isAbsolute q with
  | true =>
      have hslashes : (ofPath q).slashes ≠ 0 := by
        rcases Path.rootSlashes_of_isAbsolute habsolute with h | h <;> simp [ofPath, h]
      rw [if_neg hslashes, Path.join, if_pos habsolute]
  | false =>
      have hslashes : (ofPath q).slashes = 0 := Path.rootSlashes_of_relative habsolute
      rw [if_pos hslashes, ← steps_join p habsolute, ofPath, Path.rootSlashes_join p habsolute]
      rfl

/-- The steps stand for something and hold no slash. -/
def IsClean (r : Route) : Prop := ∀ s ∈ r.steps, s ≠ [] ∧ s ≠ Path.here ∧ '/' ∉ s

theorem isClean_ofPath (p : Path) : (ofPath p).IsClean := by
  intro s hs
  obtain ⟨hmem, hkept⟩ := List.mem_filter.mp hs
  rw [decide_eq_true_eq] at hkept
  exact ⟨hkept.1, hkept.2, Text.notMem_of_mem_splitOn hmem⟩

theorem nul_mem_toPath (r : Route) : '\x00' ∈ r.toPath ↔ ∃ s ∈ r.steps, '\x00' ∈ s := by
  have hjoin : '\x00' ∈ List.replicate r.slashes '/' ++ Text.join ['/'] r.steps ↔
      ∃ s ∈ r.steps, '\x00' ∈ s := by
    rw [List.mem_append]
    constructor
    · rintro (h | h)
      · simp at h
      · exact (Text.mem_join h).resolve_left (by decide)
    · rintro ⟨s, hs, h⟩
      exact .inr (Text.mem_join_of_mem hs h)
  unfold toPath
  split
  next hnil =>
    rw [hnil] at hjoin
    rw [← hjoin]
    decide
  next => exact hjoin

theorem toPath_ne_nil (r : Route) : r.toPath ≠ [] := by
  unfold toPath
  split
  · simp [Path.here]
  next hne => exact hne

theorem toPath_of_ne_nil {r : Route} (h : r.slashes ≠ 0 ∨ Text.join ['/'] r.steps ≠ []) :
    r.toPath = List.replicate r.slashes '/' ++ Text.join ['/'] r.steps := by
  unfold toPath
  split
  next hnil =>
    rw [List.append_eq_nil_iff, List.replicate_eq_nil_iff] at hnil
    exact absurd hnil.2 (h.resolve_left (not_not.mpr hnil.1))
  next => rfl

namespace IsClean

variable {r : Route}

theorem join_ne_nil (h : r.IsClean) (hsteps : r.steps ≠ []) :
    Text.join ['/'] r.steps ≠ [] := by
  intro hjoin
  obtain ⟨s, hs⟩ := List.exists_mem_of_ne_nil _ hsteps
  obtain ⟨c, hc⟩ := List.exists_mem_of_ne_nil _ (h s hs).1
  have hmem : c ∈ Text.join ['/'] r.steps := Text.mem_join_of_mem hs hc
  simp [hjoin] at hmem

theorem splitOn_join (h : r.IsClean) (hsteps : r.steps ≠ []) :
    Text.splitOn '/' (Text.join ['/'] r.steps) = r.steps :=
  Text.splitOn_join hsteps fun s hs => (h s hs).2.2

/-- A path without slashes in front begins with its first step. -/
theorem isAbsolute_join (h : r.IsClean) : Path.isAbsolute (Text.join ['/'] r.steps) = false := by
  cases hsteps : r.steps with
  | nil => rfl
  | cons s steps =>
      obtain ⟨hne, -, hslash⟩ := h s (by simp [hsteps])
      obtain ⟨c, u, rfl⟩ := List.exists_cons_of_ne_nil hne
      have hc : c ≠ '/' := by
        rintro rfl
        simp at hslash
      cases steps <;> simp [Text.join, Path.isAbsolute, hc]

/-- A route written as a path and read again is the same route. -/
theorem ofPath_toPath (h : r.IsClean) (hslashes : r.slashes ≤ 2) : ofPath r.toPath = r := by
  have hrelative := h.isAbsolute_join
  by_cases hempty : r.slashes = 0 ∧ r.steps = []
  · obtain ⟨slashes, steps⟩ := r
    obtain ⟨rfl, rfl⟩ := hempty
    rfl
  · have hpath : r.toPath = List.replicate r.slashes '/' ++ Text.join ['/'] r.steps := by
      refine toPath_of_ne_nil ?_
      rw [not_and_or] at hempty
      exact hempty.imp_right h.join_ne_nil
    have hroot : Path.rootSlashes r.toPath = r.slashes := by
      rw [hpath, Path.rootSlashes_append _ hrelative]
      have hcases : r.slashes = 0 ∨ r.slashes = 1 ∨ r.slashes = 2 := by omega
      rcases hcases with hn | hn | hn <;> rw [hn] <;> rfl
    have hsteps : (Text.splitOn '/' r.toPath).filter (fun s => s ≠ [] ∧ s ≠ Path.here) =
        r.steps := by
      have hkept : r.steps.filter (fun s => s ≠ [] ∧ s ≠ Path.here) = r.steps :=
        List.filter_eq_self.mpr fun s hs => by simp [(h s hs).1, (h s hs).2.1]
      rw [hpath, Text.splitOn_replicate_append, List.filter_append]
      by_cases hnil : r.steps = []
      · simp [hnil, Text.join, Text.splitOn]
      · rw [h.splitOn_join hnil, hkept]
        simp
    rw [ofPath, hroot, hsteps]

end IsClean

theorem slashes_ofPath_le (p : Path) : (ofPath p).slashes ≤ 2 := by
  unfold ofPath Path.rootSlashes
  split <;> simp

end Route

namespace Disk

variable {d : Disk} {r : Route} {place names : List Text}

/-- Where the steps of a route start. -/
def start (d : Disk) (r : Route) : List Text := if r.slashes = 0 then d.cwd else []

/-- Locating the path of a route follows its steps; a route without steps has to start in a
directory. -/
theorem follow_toPath (hr : r.IsClean) (hstart : r.steps ≠ [] ∨ d.root.HasDir (d.start r)) :
    follow d.root (if Path.isAbsolute r.toPath then [] else d.cwd) (Text.splitOn '/' r.toPath) =
      follow d.root (d.start r) r.steps := by
  rcases Nat.eq_zero_or_pos r.slashes with hslashes | hslashes
  · rw [start, if_pos hslashes] at hstart ⊢
    by_cases hsteps : r.steps = []
    · have htoPath : r.toPath = Path.here := by simp [Route.toPath, hslashes, hsteps, Text.join]
      have hdir := hstart.resolve_left (not_not.mpr hsteps)
      rw [htoPath, hsteps]
      exact (follow_cons_of_hasDir hdir Path.here []).trans (if_pos (.inr rfl))
    · rw [Route.toPath_of_ne_nil (.inr (hr.join_ne_nil hsteps)), hslashes, List.replicate_zero,
        List.nil_append, hr.isAbsolute_join, hr.splitOn_join hsteps]
      rfl
  · obtain ⟨n, hn⟩ : ∃ n, r.slashes = n + 1 := ⟨r.slashes - 1, by omega⟩
    have habsolute : Path.isAbsolute r.toPath = true := by
      rw [Route.toPath_of_ne_nil (.inl hslashes.ne'), hn]
      rfl
    rw [start, if_neg hslashes.ne', if_pos habsolute, Route.toPath_of_ne_nil (.inl hslashes.ne'),
      Text.splitOn_replicate_append, follow_replicate]
    by_cases hsteps : r.steps = []
    · rw [hsteps]
      rfl
    · rw [hr.splitOn_join hsteps]

theorem locate_toPath (hr : r.IsClean) (hstart : r.steps ≠ [] ∨ d.root.HasDir (d.start r)) :
    d.locate r.toPath = .ok place ↔
      objection? r.toPath = none ∧ follow d.root (d.start r) r.steps = .ok place := by
  rw [locate_eq_ok_iff, follow_toPath hr hstart]

/-- Steps that are names lead to these names below the place where they start. -/
theorem eq_append_of_follow {root : Dir} {base : List Text} (hnames : ∀ s ∈ names, Path.IsName s)
    (h : follow root base names = .ok place) : place = base ++ names := by
  induction names generalizing base with
  | nil => simpa [follow] using h.symm
  | cons s names ih =>
      obtain ⟨hs, hnames⟩ := List.forall_mem_cons.mp hnames
      rw [← List.singleton_append, follow_append] at h
      split at h
      next q hq =>
        obtain ⟨rfl, -, -⟩ := follow_name hs hq
        rw [ih hnames h, List.append_assoc, List.singleton_append]
      · simp at h

/-- A route that goes on with names is written as a longer path. -/
theorem objection?_toPath_of_append (h : (Route.mk r.slashes (r.steps ++ names)).IsClean)
    (hne : names ≠ [])
    (hlonger : objection? (Route.mk r.slashes (r.steps ++ names)).toPath = none) :
    objection? r.toPath = none := by
  have hr : r.IsClean := fun s hs => h s (List.mem_append_left names hs)
  by_cases hempty : r.slashes = 0 ∧ r.steps = []
  · obtain ⟨slashes, steps⟩ := r
    obtain ⟨rfl, rfl⟩ := hempty
    rfl
  · rw [Route.toPath_of_ne_nil (.inr (h.join_ne_nil (by simp [hne])))] at hlonger
    refine objection?_of_isPrefix ?_ r.toPath_ne_nil hlonger
    rw [Route.toPath_of_ne_nil ((not_and_or.mp hempty).imp_right hr.join_ne_nil)]
    exact rooted_isPrefix r.slashes r.steps names

/-- A route that goes on with names leads to these names below the place where it leads itself. -/
theorem exists_base_of_locate (hr : r.IsClean) (hnames : ∀ s ∈ names, Path.IsName s)
    (hne : names ≠ []) (h : d.locate (Route.mk r.slashes (r.steps ++ names)).toPath = .ok place) :
    ∃ base, d.locate r.toPath = .ok base ∧ place = base ++ names := by
  have hclean : (Route.mk r.slashes (r.steps ++ names)).IsClean := by
    intro s hs
    rcases List.mem_append.mp hs with hs | hs
    · exact hr s hs
    · exact ⟨(hnames s hs).ne_nil, (hnames s hs).ne_here, (hnames s hs).slash_notMem⟩
  obtain ⟨hobjection, hfollow⟩ := (locate_toPath hclean (.inl (by simp [hne]))).mp h
  rw [follow_append] at hfollow
  split at hfollow
  next base hbase =>
    refine ⟨base, (locate_toPath hr ?_).mpr ⟨?_, hbase⟩, eq_append_of_follow hnames hfollow⟩
    · rw [or_iff_not_imp_left, not_not]
      intro hsteps
      obtain ⟨s, rest, rfl⟩ := List.exists_cons_of_ne_nil hne
      rw [hsteps, follow] at hbase
      rw [show d.start r = base from Except.ok.inj hbase]
      exact hasDir_of_follow hfollow
    · exact objection?_toPath_of_append hclean hne hobjection
  · simp at hfollow

end Disk

end DocRefs
