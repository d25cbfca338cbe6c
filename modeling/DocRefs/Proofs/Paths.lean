import Mathlib
import DocRefs.Disk.Texts

/-!
# Normal paths

A normal path is one or two slashes and clean steps with slashes between them. Normalising from an
absolute working directory gives a normal path, and leaves a normal path as it is. Reading a normal
path as a route and writing it again changes nothing, so a file that can be read there is seen
there.
-/

namespace DocRefs

namespace Text

theorem splitOn_cons_self (sep : Char) (t : Text) :
    splitOn sep (sep :: t) = [] :: splitOn sep t := by
  rw [splitOn, if_pos rfl]

theorem splitOn_ne_nil (sep : Char) (t : Text) : splitOn sep t ≠ [] := by
  cases t with
  | nil => simp [splitOn]
  | cons c t =>
      rw [splitOn]
      split
      · simp
      · split <;> simp

theorem splitOn_of_notMem {sep : Char} {t : Text} (h : sep ∉ t) : splitOn sep t = [t] := by
  induction t with
  | nil => rfl
  | cons c t ih =>
      rw [List.mem_cons, not_or] at h
      rw [splitOn, if_neg (Ne.symm h.1), ih h.2]

theorem splitOn_append {sep : Char} {t : Text} (h : sep ∉ t) (u : Text) :
    splitOn sep (t ++ sep :: u) = t :: splitOn sep u := by
  induction t with
  | nil => exact splitOn_cons_self sep u
  | cons c t ih =>
      rw [List.mem_cons, not_or] at h
      rw [List.cons_append, splitOn, if_neg (Ne.symm h.1), ih h.2]

theorem splitOn_join {sep : Char} {ts : List Text} (hne : ts ≠ []) (h : ∀ t ∈ ts, sep ∉ t) :
    splitOn sep (join [sep] ts) = ts := by
  induction ts with
  | nil => exact absurd rfl hne
  | cons t ts ih =>
      obtain ⟨ht, hts⟩ := List.forall_mem_cons.mp h
      cases ts with
      | nil => exact splitOn_of_notMem ht
      | cons u us =>
          rw [join, List.append_assoc, List.singleton_append, splitOn_append ht,
            ih (by simp) hts]
          simp

theorem notMem_of_mem_splitOn {sep : Char} {t u : Text} (h : u ∈ splitOn sep t) : sep ∉ u := by
  induction t generalizing u with
  | nil =>
      obtain rfl := List.mem_singleton.mp h
      simp
  | cons c t ih =>
      rw [splitOn] at h
      split at h
      · rcases List.mem_cons.mp h with rfl | h
        · simp
        · exact ih h
      next hc =>
        split at h
        next hnil => exact absurd hnil (splitOn_ne_nil sep t)
        next p ps hcons =>
          rw [hcons] at ih
          rcases List.mem_cons.mp h with rfl | h
          · rw [List.mem_cons, not_or]
            exact ⟨Ne.symm hc, ih List.mem_cons_self⟩
          · exact ih (List.mem_cons_of_mem p h)

end Text

namespace Path

/-- A step that stands for one name. -/
structure IsName (s : Text) : Prop where
  ne_nil : s ≠ []
  ne_here : s ≠ here
  ne_up : s ≠ up
  slash_notMem : '/' ∉ s

/-- The path of `n` slashes and the given steps. -/
def rooted (n : Nat) (steps : List Text) : Path := List.replicate n '/' ++ Text.join ['/'] steps

/-- Absolute and collapsed: one or two slashes and steps that are names. -/
def IsNormal (p : Path) : Prop :=
  ∃ n steps, (n = 1 ∨ n = 2) ∧ (∀ s ∈ steps, IsName s) ∧ p = rooted n steps

theorem head?_join_ne {steps : List Text} (h : ∀ s ∈ steps, IsName s) :
    (Text.join ['/'] steps).head? ≠ some '/' := by
  have hname : ∀ {s : Text}, IsName s → ∃ c u, s = c :: u ∧ c ≠ '/' := by
    intro s hs
    obtain ⟨c, u, rfl⟩ := List.exists_cons_of_ne_nil hs.ne_nil
    have hslash := hs.slash_notMem
    rw [List.mem_cons, not_or] at hslash
    exact ⟨c, u, rfl, Ne.symm hslash.1⟩
  cases steps with
  | nil => simp [Text.join]
  | cons s steps =>
      obtain ⟨c, u, rfl, hc⟩ := hname (h s List.mem_cons_self)
      cases steps with
      | nil => simpa [Text.join] using hc
      | cons s' steps => simpa [Text.join] using hc

theorem rootSlashes_rooted {n : Nat} {steps : List Text} (hn : n = 1 ∨ n = 2)
    (h : ∀ s ∈ steps, IsName s) : rootSlashes (rooted n steps) = n := by
  have hhead := head?_join_ne h
  unfold rooted
  generalize Text.join ['/'] steps = t at hhead
  have hfirst : ∀ u, t = '/' :: u → False := by
    rintro u rfl
    simp at hhead
  rcases hn with rfl | rfl
  · rw [List.replicate_one, List.singleton_append, rootSlashes]
    · rintro u rfl
      exact hfirst _ rfl
    · exact hfirst
  · rw [show List.replicate 2 '/' ++ t = '/' :: '/' :: t from rfl, rootSlashes]
    exact hfirst

/-- The pieces of a path of names are empty ones for its slashes, and the names; without a name
there is one more empty piece. -/
theorem splitOn_rooted {steps : List Text} (h : ∀ s ∈ steps, IsName s) (n : Nat) :
    Text.splitOn '/' (rooted n steps) =
      List.replicate n [] ++ if steps = [] then [[]] else steps := by
  induction n with
  | zero =>
      by_cases hsteps : steps = []
      · subst hsteps
        rfl
      · rw [if_neg hsteps]
        exact Text.splitOn_join hsteps fun s hs => (h s hs).slash_notMem
  | succ n ih =>
      rw [rooted, List.replicate_succ, List.cons_append, Text.splitOn_cons_self, ← rooted, ih]
      rfl

theorem foldSteps_skip (rooted : Bool) (kept : List Text) {s : Text} (hs : s = [] ∨ s = here)
    (ss : List Text) : foldSteps rooted kept (s :: ss) = foldSteps rooted kept ss := by
  rw [foldSteps.eq_def]
  simp [hs]

theorem foldSteps_keep (rooted : Bool) (kept : List Text) {s : Text} (hempty : ¬(s = [] ∨ s = here))
    (hup : s ≠ up) (ss : List Text) :
    foldSteps rooted kept (s :: ss) = foldSteps rooted (s :: kept) ss := by
  rw [foldSteps.eq_def]
  simp [hempty, hup]

/-- Behind names a parent step takes one back; at the root it is dropped. -/
theorem foldSteps_up {kept : List Text} (hkept : ∀ s ∈ kept, IsName s) (ss : List Text) :
    foldSteps true kept (up :: ss) = foldSteps true kept.tail ss := by
  rw [foldSteps.eq_def]
  cases kept with
  | nil => simp [up, here]
  | cons k ks =>
      have hk : k ≠ ['.', '.'] := (hkept k List.mem_cons_self).ne_up
      simp [up, here, hk]

theorem foldSteps_replicate (rooted : Bool) (kept : List Text) (n : Nat) (ss : List Text) :
    foldSteps rooted kept (List.replicate n [] ++ ss) = foldSteps rooted kept ss := by
  induction n with
  | zero => rfl
  | succ n ih =>
      rw [List.replicate_succ, List.cons_append, foldSteps_skip rooted kept (.inl rfl), ih]

theorem foldSteps_names {steps : List Text} (h : ∀ s ∈ steps, IsName s) (rooted : Bool)
    (kept : List Text) : foldSteps rooted kept steps = kept.reverse ++ steps := by
  induction steps generalizing kept with
  | nil => simp [foldSteps]
  | cons s steps ih =>
      obtain ⟨hs, hsteps⟩ := List.forall_mem_cons.mp h
      rw [foldSteps_keep rooted kept (by simp [hs.ne_nil, hs.ne_here]) hs.ne_up, ih hsteps]
      simp

/-- At the root only names remain. -/
theorem isName_of_mem_foldSteps {kept ss : List Text} (hkept : ∀ s ∈ kept, IsName s)
    (hss : ∀ s ∈ ss, '/' ∉ s) : ∀ s ∈ foldSteps true kept ss, IsName s := by
  induction ss generalizing kept with
  | nil =>
      intro s hs
      exact hkept s (List.mem_reverse.mp hs)
  | cons s ss ih =>
      obtain ⟨hs, hss⟩ := List.forall_mem_cons.mp hss
      by_cases hempty : s = [] ∨ s = here
      · rw [foldSteps_skip true kept hempty]
        exact ih hkept hss
      by_cases hup : s = up
      -- The steps kept are names, so a parent step takes one of them back and is never kept.
      · rw [hup, foldSteps_up hkept]
        exact ih (fun k hk => hkept k (List.mem_of_mem_tail hk)) hss
      · rw [foldSteps_keep true kept hempty hup]
        rw [not_or] at hempty
        refine ih ?_ hss
        exact List.forall_mem_cons.mpr ⟨⟨hempty.1, hempty.2, hup, hs⟩, hkept⟩

theorem rootSlashes_of_isAbsolute {p : Path} (h : isAbsolute p = true) :
    rootSlashes p = 1 ∨ rootSlashes p = 2 := by
  unfold isAbsolute at h
  split at h
  · unfold rootSlashes
    split <;> simp_all
  · simp at h

theorem rooted_ne_nil {n : Nat} (hn : n = 1 ∨ n = 2) (steps : List Text) : rooted n steps ≠ [] := by
  rcases hn with rfl | rfl <;> simp [rooted]

/-- An absolute path collapses to its slashes and the steps that remain. -/
theorem collapse_of_isAbsolute {p : Path} (h : isAbsolute p = true) :
    collapse p = rooted (rootSlashes p) (foldSteps true [] (Text.splitOn '/' p)) := by
  have hslashes := rootSlashes_of_isAbsolute h
  have hrooted : decide (0 < rootSlashes p) = true := by
    rw [decide_eq_true_eq]
    omega
  unfold collapse
  simp only [hrooted]
  split
  next hnil => exact absurd hnil (rooted_ne_nil hslashes _)
  next => rfl

theorem isName_of_mem_foldSteps_splitOn (p : Path) :
    ∀ s ∈ foldSteps true [] (Text.splitOn '/' p), IsName s :=
  isName_of_mem_foldSteps (by simp) fun _ hs => Text.notMem_of_mem_splitOn hs

theorem isNormal_collapse {p : Path} (h : isAbsolute p = true) : IsNormal (collapse p) :=
  ⟨rootSlashes p, _, rootSlashes_of_isAbsolute h, isName_of_mem_foldSteps_splitOn p,
    collapse_of_isAbsolute h⟩

theorem ofPath_rooted {n : Nat} {steps : List Text} (hn : n = 1 ∨ n = 2)
    (hsteps : ∀ s ∈ steps, IsName s) : Route.ofPath (rooted n steps) = ⟨n, steps⟩ := by
  have hfilter : (Text.splitOn '/' (rooted n steps)).filter
      (fun s => s ≠ [] ∧ s ≠ here) = steps := by
    have hnames : steps.filter (fun s => s ≠ [] ∧ s ≠ here) = steps :=
      List.filter_eq_self.mpr fun s hs => by simp [(hsteps s hs).ne_nil, (hsteps s hs).ne_here]
    rw [splitOn_rooted hsteps, List.filter_append]
    split
    next hnil => simp [hnil]
    next => simpa using hnames
  rw [Route.ofPath, rootSlashes_rooted hn hsteps, hfilter]

theorem toPath_rooted {n : Nat} (hn : n = 1 ∨ n = 2) (steps : List Text) :
    (Route.mk n steps).toPath = rooted n steps := by
  unfold Route.toPath
  split
  next hnil => exact absurd hnil (rooted_ne_nil hn steps)
  next => rfl

namespace IsNormal

variable {p : Path}

theorem isAbsolute (h : IsNormal p) : isAbsolute p = true := by
  obtain ⟨n, steps, rfl | rfl, -, rfl⟩ := h <;> rfl

theorem collapse_eq (h : IsNormal p) : collapse p = p := by
  obtain ⟨n, steps, hn, hsteps, rfl⟩ := h
  have hfold : foldSteps (decide (0 < n)) [] (Text.splitOn '/' (rooted n steps)) = steps := by
    rw [splitOn_rooted hsteps, foldSteps_replicate]
    split
    next hnil => simp [foldSteps, hnil]
    next => exact foldSteps_names hsteps _ []
  unfold collapse
  simp only [rootSlashes_rooted hn hsteps, hfold]
  split
  next hnil => exact absurd hnil (rooted_ne_nil hn steps)
  next => rfl

theorem normalize_eq (h : IsNormal p) (cwd : Path) : normalize cwd p = p := by
  rw [normalize, absolute, if_pos h.isAbsolute, h.collapse_eq, h.collapse_eq]

/-- Reading a normal path as a route and writing it again changes nothing. -/
theorem toPath_ofPath (h : IsNormal p) : (Route.ofPath p).toPath = p := by
  obtain ⟨n, steps, hn, hsteps, rfl⟩ := h
  rw [ofPath_rooted hn hsteps, toPath_rooted hn]

/-- A file that can be read as a text at a normal path is seen there. -/
theorem isFile_of_readText (h : IsNormal p) {disk : Disk} {encoding : Value} {t : Text}
    (hread : disk.readText encoding p = .ok t) : disk.isFile p = true := by
  unfold Disk.readText at hread
  rw [h.toPath_ofPath] at hread
  split at hread
  · simp at hread
  split at hread
  · simp at hread
  next content hcontent =>
    unfold Disk.read at hcontent
    cases hentry : disk.entry p with
    | error why => simp [hentry, Bind.bind, Except.bind] at hcontent
    | ok e =>
        cases e with
        | file content => simp [Disk.isFile, Disk.entry?, hentry, Except.toOption, Entry.isFile]
        | dir entries =>
            rw [hentry] at hcontent
            simp [Bind.bind, Except.bind, throw, throwThe, MonadExceptOf.throw] at hcontent

end IsNormal

theorem isAbsolute_join {cwd : Path} (h : isAbsolute cwd = true) (p : Path) :
    isAbsolute (join cwd p) = true := by
  unfold join
  split
  · assumption
  · cases cwd with
    | nil => simp [isAbsolute] at h
    | cons c cwd =>
        unfold isAbsolute at h
        split at h
        next heq =>
          obtain ⟨rfl, rfl⟩ := List.cons.inj heq
          split <;> rfl
        · simp at h

theorem isNormal_absolute {cwd : Path} (h : isAbsolute cwd = true) (p : Path) :
    IsNormal (absolute cwd p) := by
  apply isNormal_collapse
  split
  · assumption
  · exact isAbsolute_join h p

theorem isNormal_normalize {cwd : Path} (h : isAbsolute cwd = true) (p : Path) :
    IsNormal (normalize cwd p) := by
  rw [normalize, (isNormal_absolute h p).collapse_eq]
  exact isNormal_absolute h p

end Path

end DocRefs
