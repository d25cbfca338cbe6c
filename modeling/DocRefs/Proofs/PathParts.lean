import Mathlib
import DocRefs.Proofs.Routes

/-!
# Directories and stems of paths

The directory of a path of names is the path without its last name. Taking away an extension leaves
the directories of a path alone, and neither collapsing a path nor taking its directory brings in
characters other than slashes and dots.
-/

namespace DocRefs

theorem Text.join_concat (sep : Char) {ts : List Text} (hne : ts ≠ []) (t : Text) :
    join [sep] (ts ++ [t]) = join [sep] ts ++ sep :: t := by
  induction ts with
  | nil => exact absurd rfl hne
  | cons u us ih =>
      cases us with
      | nil => simp [join]
      | cons v vs =>
          have hrest := ih (by simp)
          simp only [List.cons_append] at hrest ⊢
          rw [join, hrest, join.eq_def [sep] (u :: v :: vs)]
          · simp
          · simp

/-- A search from the back goes past characters that are not looked for. -/
theorem Text.forall_mem_reverse_ne {c : Char} {t : Text} (h : c ∉ t) :
    ∀ d ∈ t.reverse, decide (d ≠ c) = true := by
  intro d hd
  rw [decide_eq_true_eq]
  rintro rfl
  exact h (List.mem_reverse.mp hd)

namespace Path

theorem isAbsolute_of_notMem {s : Path} (h : '/' ∉ s) : isAbsolute s = false := by
  unfold isAbsolute
  split
  next => exact absurd List.mem_cons_self h
  next => rfl

theorem isAbsolute_append {p : Path} (h : p ≠ []) (q : Path) :
    isAbsolute (p ++ q) = isAbsolute p := by
  obtain ⟨c, t, rfl⟩ := List.exists_cons_of_ne_nil h
  by_cases hc : c = '/'
  · subst hc
    rfl
  · simp [isAbsolute, hc]

theorem slash_notMem_basename (p : Path) : '/' ∉ (splitLast p).2 := by
  intro h
  have hchar := List.mem_takeWhile_imp (List.mem_reverse.mp h)
  simp at hchar

/-- A front that ends with a slash does not reach into the last step. -/
theorem isPrefix_of_isPrefix_append {front head name : Path} (hlast : front.getLast? = some '/')
    (hname : '/' ∉ name) (h : front <+: head ++ name) : front <+: head := by
  rcases List.prefix_or_prefix_of_prefix h (List.prefix_append head name) with h' | ⟨rest, rfl⟩
  · exact h'
  · rw [List.prefix_append_right_inj] at h
    rcases List.eq_nil_or_concat rest with rfl | ⟨init, c, rfl⟩
    · simp
    · obtain rfl : c = '/' := by simpa using hlast
      exact absurd (h.subset (by simp)) hname

/-- A front that ends with a slash is a front of the path without its extension. -/
theorem isPrefix_stem_iff {front p : Path} (hlast : front.getLast? = some '/') :
    front <+: stem p ↔ front <+: p := by
  have happend := splitLast_append p
  have hname := slash_notMem_basename p
  unfold stem splitExt
  dsimp only
  split
  · rfl
  next c rest hrest =>
    split
    · rfl
    next =>
      have hsuffix : rest.reverse <+: (splitLast p).2 := by
        have hdrop : c :: rest <:+ (splitLast p).2.reverse := by
          rw [← hrest]
          exact List.dropWhile_suffix _
        have hreverse := List.reverse_prefix.mpr hdrop
        rw [List.reverse_reverse, List.reverse_cons] at hreverse
        exact (List.prefix_append _ _).trans hreverse
      constructor
      · intro h
        rw [← happend]
        exact h.trans ((List.prefix_append_right_inj _).mpr hsuffix)
      · intro h
        rw [← happend] at h
        exact (isPrefix_of_isPrefix_append hlast hname h).trans (List.prefix_append _ _)

theorem splitLast_append_eq {front name : Path} (hfront : front.getLast? = some '/')
    (hname : '/' ∉ name) : splitLast (front ++ name) = (front, name) := by
  obtain ⟨init, rfl⟩ := List.getLast?_eq_some_iff.mp hfront
  have hall := Text.forall_mem_reverse_ne hname
  have hreverse : (init ++ ['/'] ++ name).reverse = name.reverse ++ '/' :: init.reverse := by simp
  rw [splitLast, hreverse, List.takeWhile_append_of_pos hall, List.dropWhile_append_of_pos hall]
  simp

theorem rooted_concat (n : Nat) (steps : List Text) (s : Text) :
    rooted n (steps ++ [s]) =
      (if steps = [] then List.replicate n '/' else rooted n steps ++ ['/']) ++ s := by
  unfold rooted
  split
  next hnil => simp [hnil, Text.join]
  next hne => simp [Text.join_concat '/' hne]

theorem getLast?_rooted_ne {n : Nat} {steps : List Text} (hsteps : ∀ s ∈ steps, IsName s)
    (hne : steps ≠ []) : (rooted n steps).getLast? ≠ some '/' := by
  rcases List.eq_nil_or_concat steps with rfl | ⟨init, s, rfl⟩
  · exact absurd rfl hne
  · rw [List.concat_eq_append] at hsteps ⊢
    have hs := hsteps s (by simp)
    rw [rooted_concat, List.getLast?_append_of_ne_nil _ hs.ne_nil]
    intro hlast
    exact hs.slash_notMem (List.mem_of_getLast? hlast)

/-- The directory of a path of names. -/
theorem dirname_rooted {n : Nat} {steps : List Text} {s : Text} (hn : n = 1 ∨ n = 2)
    (hsteps : ∀ t ∈ steps ++ [s], IsName t) :
    dirname (rooted n (steps ++ [s])) = rooted n steps := by
  have hs : '/' ∉ s := (hsteps s (by simp)).slash_notMem
  unfold dirname split
  by_cases hnil : steps = []
  · have hfront : (List.replicate n '/').getLast? = some '/' := by
      rcases hn with rfl | rfl <;> rfl
    rw [rooted_concat, if_pos hnil, splitLast_append_eq hfront hs, hnil]
    dsimp only
    rw [if_pos (by simp)]
    simp [rooted, Text.join]
  · have hlast := getLast?_rooted_ne (n := n)
      (fun t ht => hsteps t (List.mem_append_left _ ht)) hnil
    rw [rooted_concat, if_neg hnil, splitLast_append_eq List.getLast?_concat hs]
    dsimp only
    rcases List.eq_nil_or_concat (rooted n steps) with hempty | ⟨init, c, hconcat⟩
    · exact absurd hempty (rooted_ne_nil hn steps)
    · rw [List.concat_eq_append] at hconcat
      rw [hconcat] at hlast ⊢
      have hc : c ≠ '/' := by simpa using hlast
      rw [if_neg (by simp [hc])]
      simp [hc]

/-- The directory of a path is the path without its last name, and the root is its own. -/
theorem dirname_rooted_eq {n : Nat} {steps : List Text} (hn : n = 1 ∨ n = 2)
    (hsteps : ∀ t ∈ steps, IsName t) : dirname (rooted n steps) = rooted n steps.dropLast := by
  rcases List.eq_nil_or_concat steps with rfl | ⟨init, t, rfl⟩
  · rcases hn with rfl | rfl <;> rfl
  · rw [List.concat_eq_append] at hsteps ⊢
    rw [dirname_rooted hn hsteps, List.dropLast_concat]

theorem isNormal_dirname {p : Path} (hp : IsNormal p) : IsNormal (dirname p) := by
  obtain ⟨n, steps, hn, hsteps, rfl⟩ := hp
  exact ⟨n, steps.dropLast, hn, fun t ht => hsteps t (List.mem_of_mem_dropLast ht),
    dirname_rooted_eq hn hsteps⟩

/-- A name joined to a path of names is one more name. -/
theorem join_rooted {n : Nat} {steps : List Text} {s : Text} (hn : n = 1 ∨ n = 2)
    (hsteps : ∀ t ∈ steps, IsName t) (hs : IsName s) :
    join (rooted n steps) s = rooted n (steps ++ [s]) := by
  have hrelative := isAbsolute_of_notMem hs.slash_notMem
  rw [rooted_concat, join, if_neg (by simp [hrelative])]
  by_cases hnil : steps = []
  · subst hnil
    rcases hn with rfl | rfl <;> simp [rooted, Text.join]
  · have hlast := getLast?_rooted_ne (n := n) hsteps hnil
    rw [if_neg hnil, if_neg (by simp [hlast, rooted_ne_nil hn steps]), List.append_assoc,
      List.singleton_append]

/-- Nothing is lost: the stem and the extension are the path. -/
theorem stem_append_extension (p : Path) : stem p ++ extension p = p := by
  have happend := splitLast_append p
  unfold stem extension splitExt
  dsimp only
  split
  · exact List.append_nil p
  next c rest hrest =>
    split
    · exact List.append_nil p
    next =>
      have hdot : c = '.' := by
        have hhead := List.head?_dropWhile_not (· ≠ '.') (splitLast p).2.reverse
        rw [hrest] at hhead
        simpa using hhead
      have hname : rest.reverse ++ '.' :: ((splitLast p).2.reverse.takeWhile (· ≠ '.')).reverse =
          (splitLast p).2 := by
        have hsplit := List.takeWhile_append_dropWhile (p := fun c => decide (c ≠ '.'))
          (l := (splitLast p).2.reverse)
        rw [hrest, hdot] at hsplit
        simpa using congrArg List.reverse hsplit
      rw [List.append_assoc, hname, happend]

/-- An extension is empty, or begins with a dot behind something else. -/
theorem extension_cases (p : Path) :
    extension p = [] ∨ stem p ≠ [] ∧ ∃ t, extension p = '.' :: t ∧ '/' ∉ t := by
  have hbase := slash_notMem_basename p
  unfold stem extension splitExt
  dsimp only
  split
  · exact .inl rfl
  next c rest hrest =>
    split
    · exact .inl rfl
    next hdots =>
      refine .inr ⟨fun hnil => ?_, _, rfl, fun hmem => ?_⟩
      · rw [List.append_eq_nil_iff, List.reverse_eq_nil_iff] at hnil
        simp [hnil.2] at hdots
      · have htake := (List.takeWhile_prefix _).subset (List.mem_reverse.mp hmem)
        exact hbase (List.mem_reverse.mp htake)

/-- A path whose stem is a name is itself a name. -/
theorem isName_of_isName_stem {p : Path} (h : IsName (stem p)) : IsName p := by
  have happend := stem_append_extension p
  rcases extension_cases p with hnone | ⟨-, t, hext, ht⟩
  · rw [hnone, List.append_nil] at happend
    rwa [happend] at h
  · rw [hext] at happend
    obtain ⟨c, u, hstem⟩ := List.exists_cons_of_ne_nil h.ne_nil
    refine ⟨?_, ?_, ?_, ?_⟩
    · rw [← happend, hstem]
      simp
    · rw [← happend, hstem]
      simp [here]
    · -- Two dots would leave one of them for the stem.
      intro hup
      have hdots : stem p ++ '.' :: t = ['.', '.'] := happend.trans hup
      have hhere : stem p = here := by
        rw [hstem] at hdots ⊢
        cases u with
        | nil => rw [(List.cons.inj hdots).1, here]
        | cons d u => simp at hdots
      exact h.ne_here hhere
    · rw [← happend, List.mem_append, List.mem_cons]
      simp [h.slash_notMem, ht]

/-- The steps that are left when one more step is taken from the root. -/
def descend (steps : List Text) (s : Text) : List Text :=
  if s = [] ∨ s = here then steps else if s = up then steps.dropLast else steps ++ [s]

theorem descend_of_isName {s : Text} (hs : IsName s) (steps : List Text) :
    descend steps s = steps ++ [s] := by
  rw [descend, if_neg (by simp [hs.ne_nil, hs.ne_here]), if_neg hs.ne_up]

theorem foldSteps_concat {kept ss : List Text} (hkept : ∀ s ∈ kept, IsName s)
    (hss : ∀ s ∈ ss, '/' ∉ s) (s : Text) :
    foldSteps true kept (ss ++ [s]) = descend (foldSteps true kept ss) s := by
  induction ss generalizing kept with
  | nil =>
      rw [List.nil_append, descend]
      by_cases hempty : s = [] ∨ s = here
      · rw [foldSteps_skip true kept hempty, if_pos hempty]
      by_cases hup : s = up
      · rw [if_neg hempty, if_pos hup, hup, foldSteps_up hkept, foldSteps, foldSteps,
          List.dropLast_reverse]
      · rw [foldSteps_keep true kept hempty hup, if_neg hempty, if_neg hup, foldSteps, foldSteps,
          List.reverse_cons]
  | cons first ss ih =>
      obtain ⟨hfirst, hss⟩ := List.forall_mem_cons.mp hss
      rw [List.cons_append]
      by_cases hempty : first = [] ∨ first = here
      · rw [foldSteps_skip true kept hempty, foldSteps_skip true kept hempty, ih hkept hss]
      by_cases hup : first = up
      · rw [hup, foldSteps_up hkept, foldSteps_up hkept]
        exact ih (fun k hk => hkept k (List.mem_of_mem_tail hk)) hss
      · rw [foldSteps_keep true kept hempty hup, foldSteps_keep true kept hempty hup]
        rw [not_or] at hempty
        exact ih (List.forall_mem_cons.mpr ⟨⟨hempty.1, hempty.2, hup, hfirst⟩, hkept⟩) hss

/-- What stands behind the last slash of a path is the step that is taken last. -/
theorem collapse_append_step {front s : Path} (habsolute : isAbsolute front = true)
    (hlast : front.getLast? = some '/') (hs : '/' ∉ s) :
    collapse (front ++ s) =
      rooted (rootSlashes front) (descend (foldSteps true [] (Text.splitOn '/' front)) s) := by
  have hrelative := isAbsolute_of_notMem hs
  have hne : front ≠ [] := by
    rintro rfl
    simp at hlast
  have hboth : isAbsolute (front ++ s) = true := by
    rw [isAbsolute_append hne, habsolute]
  obtain ⟨init, rfl⟩ := List.getLast?_eq_some_iff.mp hlast
  have hsteps : ∀ {u : Text}, '/' ∉ u → foldSteps true [] (Text.splitOn '/' (init ++ ['/'] ++ u)) =
      descend (foldSteps true [] (Text.splitOn '/' init)) u := by
    intro u hu
    rw [List.append_assoc, List.singleton_append, Text.splitOn_append_sep,
      Text.splitOn_of_notMem hu]
    exact foldSteps_concat (by simp) (fun _ h => Text.notMem_of_mem_splitOn h) u
  have hfront := hsteps (u := []) (by simp)
  rw [List.append_nil, descend, if_pos (.inl rfl)] at hfront
  rw [collapse_of_isAbsolute hboth, rootSlashes_append _ hrelative, hsteps hs, hfront]

theorem mem_foldSteps {rooted : Bool} {kept ss : List Text} {s : Text}
    (h : s ∈ foldSteps rooted kept ss) : s = up ∨ s ∈ kept ∨ s ∈ ss := by
  fun_induction foldSteps rooted kept ss with
  | case1 kept => exact .inr (.inl (List.mem_reverse.mp h))
  | case2 kept s' ss _ ih => grind
  | case3 ss ih => grind
  | case4 ss k ks ih => grind
  | case5 kept s' ss _ _ ih => grind

/-- Collapsing brings in no characters but slashes and dots. -/
theorem mem_collapse {c : Char} {p : Path} (h : c ∈ collapse p) : c = '/' ∨ c = '.' ∨ c ∈ p := by
  have hjoin : ∀ {steps : List Text},
      steps = foldSteps (decide (0 < rootSlashes p)) [] (Text.splitOn '/' p) →
      c ∈ List.replicate (rootSlashes p) '/' ++ Text.join ['/'] steps →
      c = '/' ∨ c = '.' ∨ c ∈ p := by
    rintro steps rfl hmem
    rcases List.mem_append.mp hmem with hmem | hmem
    · exact .inl (List.eq_of_mem_replicate hmem)
    · rcases Text.mem_join hmem with rfl | ⟨s, hs, hc⟩
      · exact .inl rfl
      · rcases mem_foldSteps hs with rfl | hs | hs
        · exact .inr (.inl (by simpa [up] using hc))
        · simp at hs
        · refine .inr (.inr ?_)
          rw [← Text.join_splitOn '/' p]
          exact Text.mem_join_of_mem hs hc
  unfold collapse at h
  dsimp only at h
  split at h
  · exact .inr (.inl (by simpa [here] using h))
  · exact hjoin rfl h

theorem mem_dirname {c : Char} {p : Path} (h : c ∈ dirname p) : c ∈ p := by
  have hhead : ∀ {d : Char}, d ∈ (splitLast p).1 → d ∈ p := by
    intro d hd
    rw [← splitLast_append p]
    exact List.mem_append_left _ hd
  unfold dirname split at h
  dsimp only at h
  split at h
  · exact hhead h
  · exact hhead (List.mem_reverse.mp ((List.dropWhile_suffix _).subset (List.mem_reverse.mp h)))

/-- What stands before the last step is nothing or ends with a slash. -/
theorem splitLast_fst_cases (p : Path) :
    (splitLast p).1 = [] ∨ (splitLast p).1.getLast? = some '/' := by
  rw [splitLast, List.getLast?_reverse, List.reverse_eq_nil_iff]
  have hhead := List.head?_dropWhile_not (· ≠ '/') p.reverse
  cases hdrop : p.reverse.dropWhile (· ≠ '/') with
  | nil => exact .inl rfl
  | cons c rest =>
      rw [hdrop] at hhead
      exact .inr (by simpa using hhead)

theorem splitLast_of_notMem {name : Path} (h : '/' ∉ name) : splitLast name = ([], name) := by
  have hall := Text.forall_mem_reverse_ne h
  rw [splitLast, List.takeWhile_eq_self_iff.mpr hall, List.dropWhile_eq_nil_iff.mpr hall]
  simp

/-- The extension is taken off the last step. -/
theorem splitExt_eq (p : Path) :
    splitExt p = ((splitLast p).1 ++ stem (basename p), extension (basename p)) := by
  have happend := splitLast_append p
  have hname := splitLast_of_notMem (slash_notMem_basename p)
  unfold stem extension splitExt basename
  dsimp only
  rw [hname]
  dsimp only
  cases (splitLast p).2.reverse.dropWhile (· ≠ '.') with
  | nil => rw [happend]
  | cons c rest =>
      dsimp only
      split
      · rw [happend]
      · rfl

theorem extension_basename (p : Path) : extension (basename p) = extension p :=
  (congrArg Prod.snd (splitExt_eq p)).symm

theorem basename_append {front name : Path} (hfront : front.getLast? = some '/')
    (hname : '/' ∉ name) : basename (front ++ name) = name := by
  rw [basename, splitLast_append_eq hfront hname]

theorem stem_append {front name : Path} (hfront : front.getLast? = some '/')
    (hname : '/' ∉ name) : stem (front ++ name) = front ++ stem name := by
  rw [stem, splitExt_eq, basename_append hfront hname, splitLast_append_eq hfront hname]

/-- A path is split into its directory and its last step. -/
theorem split_eq (p : Path) : split p = (dirname p, basename p) := by
  refine Prod.ext rfl ?_
  unfold split basename
  dsimp only
  rw [apply_ite Prod.snd, ite_self]

/-- The slash between the directories and the last name of a path. -/
theorem exists_rooted_concat {n : Nat} (hn : n = 1 ∨ n = 2) (steps : List Text) :
    ∃ front, front.getLast? = some '/' ∧ ∀ s, rooted n (steps ++ [s]) = front ++ s := by
  refine ⟨_, ?_, rooted_concat n steps⟩
  split
  · rcases hn with rfl | rfl <;> rfl
  · exact List.getLast?_concat

theorem basename_rooted {n : Nat} {s : Text} (hn : n = 1 ∨ n = 2) (steps : List Text)
    (hs : '/' ∉ s) : basename (rooted n (steps ++ [s])) = s := by
  obtain ⟨front, hfront, hrooted⟩ := exists_rooted_concat hn steps
  rw [hrooted, basename_append hfront hs]

theorem stem_rooted {n : Nat} {s : Text} (hn : n = 1 ∨ n = 2) (steps : List Text)
    (hs : '/' ∉ s) : stem (rooted n (steps ++ [s])) = rooted n (steps ++ [stem s]) := by
  obtain ⟨front, hfront, hrooted⟩ := exists_rooted_concat hn steps
  rw [hrooted, hrooted, stem_append hfront hs]

theorem extension_rooted {n : Nat} {s : Text} (hn : n = 1 ∨ n = 2) (steps : List Text)
    (hs : '/' ∉ s) : extension (rooted n (steps ++ [s])) = extension s := by
  rw [← extension_basename, basename_rooted hn steps hs]

/-- A path of names is split before its last name. -/
theorem split_rooted {n : Nat} {steps : List Text} {s : Text} (hn : n = 1 ∨ n = 2)
    (hsteps : ∀ t ∈ steps ++ [s], IsName t) :
    split (rooted n (steps ++ [s])) = (rooted n steps, s) := by
  rw [split_eq, dirname_rooted hn hsteps,
    basename_rooted hn steps (hsteps s (by simp)).slash_notMem]

/-- A path of names has one root and one list of names. -/
theorem rooted_inj {n n' : Nat} {steps steps' : List Text} (hn : n = 1 ∨ n = 2)
    (hn' : n' = 1 ∨ n' = 2) (hsteps : ∀ t ∈ steps, IsName t) (hsteps' : ∀ t ∈ steps', IsName t)
    (h : rooted n steps = rooted n' steps') : n = n' ∧ steps = steps' := by
  have hroute := congrArg Route.ofPath h
  rw [ofPath_rooted hn hsteps, ofPath_rooted hn' hsteps'] at hroute
  exact Route.mk.inj hroute

/-- A dot and what is behind it are the extension unless only dots stand in front. -/
theorem splitExt_append_dot {s e : Text} (hs : '/' ∉ s) (he : '/' ∉ e) (hdot : '.' ∉ e) :
    splitExt (s ++ '.' :: e) =
      if s.all (· = '.') then (s ++ '.' :: e, []) else (s, '.' :: e) := by
  have hall := Text.forall_mem_reverse_ne hdot
  have hreverse : (s ++ '.' :: e).reverse = e.reverse ++ '.' :: s.reverse := by simp
  unfold splitExt
  rw [splitLast_of_notMem (by simp [hs, he])]
  dsimp only
  rw [hreverse, List.dropWhile_append_of_pos hall, List.takeWhile_append_of_pos hall]
  simp

/-- Joined to an absolute path, a relative one keeps its last step behind a slash. -/
theorem exists_join_append {base front : Path} (hbase : isAbsolute base = true)
    (hfront : front = [] ∨ front.getLast? = some '/') (hrelative : isAbsolute front = false) :
    ∃ whole, isAbsolute whole = true ∧ whole.getLast? = some '/' ∧
      ∀ s, '/' ∉ s → join base (front ++ s) = whole ++ s := by
  have hjoin : ∀ s, '/' ∉ s → isAbsolute (front ++ s) = false := by
    intro s hs
    by_cases hnil : front = []
    · rw [hnil]
      exact isAbsolute_of_notMem hs
    · rwa [isAbsolute_append hnil]
  have hlast : ∀ t : Path, (t ++ ['/'] ++ front).getLast? = some '/' := by
    intro t
    rcases hfront with rfl | hlast
    · simp
    · rw [List.getLast?_append, hlast]
      rfl
  -- Whether a slash is put between them depends on the first path alone.
  obtain ⟨init, hinit⟩ : ∃ init, ∀ s, '/' ∉ s →
      join base (front ++ s) = init ++ ['/'] ++ front ++ s := by
    by_cases hslash : base.getLast? = some '/'
    · obtain ⟨init, rfl⟩ := List.getLast?_eq_some_iff.mp hslash
      refine ⟨init, fun s hs => ?_⟩
      rw [join, if_neg (by simp [hjoin s hs]), if_pos (by simp), List.append_assoc _ front]
    · refine ⟨base, fun s hs => ?_⟩
      have hne : base ≠ [] := by
        rintro rfl
        simp [isAbsolute] at hbase
      rw [join, if_neg (by simp [hjoin s hs]), if_neg (by simp [hslash, hne])]
      simp
  refine ⟨init ++ ['/'] ++ front, ?_, hlast init, hinit⟩
  have habsolute := isAbsolute_join hbase (front ++ [])
  rw [hinit [] (by simp), List.append_nil] at habsolute
  exact habsolute

/-- Normalising leaves the last step of a path when it is a name. -/
theorem basename_normalize {cwd p : Path} (hcwd : isAbsolute cwd = true)
    (hname : IsName (basename p)) : basename (normalize cwd p) = basename p := by
  have hslash := hname.slash_notMem
  have happend : (splitLast p).1 ++ basename p = p := splitLast_append p
  obtain ⟨whole, habsolute, hlast, hwhole⟩ : ∃ whole, isAbsolute whole = true ∧
      whole.getLast? = some '/' ∧ (if isAbsolute p then p else join cwd p) =
        whole ++ basename p := by
    rcases splitLast_fst_cases p with hnil | hlast
    · rw [hnil, List.nil_append] at happend
      obtain ⟨whole, habsolute, hlast, hjoin⟩ := exists_join_append hcwd (.inl rfl) rfl
      have hrelative : isAbsolute p = false := by
        rw [← happend]
        exact isAbsolute_of_notMem hslash
      refine ⟨whole, habsolute, hlast, ?_⟩
      rw [if_neg (by simp [hrelative]), ← hjoin _ hslash, List.nil_append, happend]
    · have hne : (splitLast p).1 ≠ [] := by
        intro hnil
        simp [hnil] at hlast
      have hfront := isAbsolute_append hne (basename p)
      rw [happend] at hfront
      split
      next h => exact ⟨(splitLast p).1, hfront ▸ h, hlast, happend.symm⟩
      next h =>
        obtain ⟨whole, habsolute, hlast, hjoin⟩ :=
          exists_join_append hcwd (.inr hlast) (by simpa [hfront] using h)
        exact ⟨whole, habsolute, hlast, by rw [← hjoin _ hslash, happend]⟩
  have hcollapse := collapse_append_step habsolute hlast hslash
  rw [descend_of_isName hname] at hcollapse
  have hnormal : IsNormal (collapse (whole ++ basename p)) := isNormal_collapse (by
    rw [isAbsolute_append (by rintro rfl; simp at hlast), habsolute])
  rw [normalize, absolute, hwhole, hnormal.collapse_eq, hcollapse,
    basename_rooted (rootSlashes_of_isAbsolute habsolute) _ hslash]

end Path

end DocRefs
