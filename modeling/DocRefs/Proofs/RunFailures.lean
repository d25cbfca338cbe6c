import Mathlib
import DocRefs.Proofs.InPlace
import DocRefs.Proofs.PathParts

/-!
# When a run fails

A run over listed files fails while files are taken in, never later. Each function on the way has
one condition under which it answers: a file has an identity unless its module tag has no name and
no source root holds it, and an import has a path unless its directory cannot be listed because its
path is too long, or a name in it. Together they say for which disks a run returns.
-/

namespace DocRefs

/-! ## Files and their identities -/

/-- The setting names an encoding. -/
structure Encoding.Names (setting : Value) (enc : Encoding) : Prop where
  objection : objection? setting = none
  value : ofValue setting = .ok enc

/-- A path leads to a file that can be decoded, and this is its text. -/
def Disk.Holds (d : Disk) (enc : Encoding) (p : Path) (t : Text) : Prop :=
  ∃ content u, d.read p = .ok content ∧ enc.decode content = some u ∧ t = foldNewlines u

/-- The first module tag of a text has no name, and no root is a proper front of the path that ends
with a slash. -/
def FileIdentity.Unplaced (roots : List Path) (p : Path) (t : Text) : Prop :=
  firstModuleTag? (DocComment.scan t) = some [] ∧
    ∀ root ∈ roots, ¬Path.rootWithSlash root <+: p

theorem Path.below?_eq_none_iff {root p : Path} :
    below? root p = none ↔ ¬rootWithSlash root <+: p := by
  rw [below?, Option.eq_none_iff_forall_ne_some]
  constructor
  · rintro h ⟨rest, hrest⟩
    exact h rest (Text.after?_eq_some_iff.mpr hrest.symm)
  · intro h rest hrest
    exact h ⟨rest, (Text.after?_eq_some_iff.mp hrest).symm⟩

theorem FileIdentity.belowRoots?_stem_eq_none_iff {roots : List Path} {p : Path} :
    belowRoots? roots (Path.stem p) = none ↔ ∀ root ∈ roots, ¬Path.rootWithSlash root <+: p := by
  rw [belowRoots?, List.findSome?_eq_none_iff]
  refine forall₂_congr fun root _ => ?_
  rw [Path.below?_eq_none_iff, Path.isPrefix_stem_iff (Path.getLast?_rootWithSlash root)]

/-- A text gives an identity unless it is unplaced. -/
theorem FileIdentity.ofText_eq_ok_iff {roots : List Path} {p : Path} {t : Text} :
    (∃ info, ofText roots p t = .ok info) ↔ ¬Unplaced roots p t := by
  unfold ofText Unplaced derivedId
  cases htag : firstModuleTag? (DocComment.scan t) with
  | none => simp [htag, Bind.bind, Except.bind, Pure.pure, Except.pure]
  | some name =>
      cases name with
      | cons c name => simp [htag, Bind.bind, Except.bind, Pure.pure, Except.pure]
      | nil =>
          have hroots : belowRoots? roots (Path.stem p) = none ↔ _ := belowRoots?_stem_eq_none_iff
          cases hbelow : belowRoots? roots (Path.stem p) with
          | none =>
              rw [← hroots]
              simp [htag, hbelow, Bind.bind, Except.bind]
          | some id =>
              rw [← hroots]
              simp [htag, hbelow, Bind.bind, Except.bind, Pure.pure, Except.pure]

section Files

variable {scope : Scope} {disk : Disk} {enc : Encoding} {p : Path} {t u : Text}

theorem Disk.Holds.unique (h : disk.Holds enc p t) (h' : disk.Holds enc p u) : t = u := by
  obtain ⟨content, v, hread, hdecode, rfl⟩ := h
  obtain ⟨content', v', hread', hdecode', rfl⟩ := h'
  obtain rfl := Except.ok.inj (hread.symm.trans hread')
  rw [Option.some.inj (hdecode.symm.trans hdecode')]

theorem Disk.isFile_iff : disk.isFile p = true ↔ ∃ content, disk.read p = .ok content := by
  unfold isFile entry? read
  cases disk.entry p with
  | error why => simp [Except.toOption, Bind.bind, Except.bind]
  | ok e =>
      cases e <;> simp [Except.toOption, Entry.isFile, Bind.bind, Except.bind, Pure.pure,
        Except.pure, throw, throwThe, MonadExceptOf.throw]

/-- Reading a text at a normal path: it is there, or it cannot be decoded, or there is no file. -/
theorem Path.IsNormal.readText_cases (hp : IsNormal p) {encoding : Value}
    (henc : Encoding.Names encoding enc) (disk : Disk) :
    (∃ t, disk.Holds enc p t ∧ disk.readText encoding p = .ok t) ∨
      ((∀ t, ¬disk.Holds enc p t) ∧
        (disk.isFile p = true → disk.readText encoding p = .error .undecodable) ∧
        ∃ e, disk.readText encoding p = .error e) := by
  unfold Disk.readText
  rw [hp.toPath_ofPath, henc.objection, henc.value, Disk.isFile_iff]
  cases hread : disk.read p with
  | error why =>
      refine .inr ⟨?_, by simp, .disk why, rfl⟩
      rintro t ⟨content, u, hcontent, -⟩
      simp [hread] at hcontent
  | ok content =>
      cases hdecode : enc.decode content with
      | none =>
          refine .inr ⟨?_, fun _ => ?_, .undecodable, ?_⟩
          · rintro t ⟨content', u, hcontent, hu, -⟩
            obtain rfl := Except.ok.inj (hread.symm.trans hcontent)
            simp [hdecode] at hu
          · simp [Bind.bind, Except.bind, hdecode, throw, throwThe, MonadExceptOf.throw]
          · simp [Bind.bind, Except.bind, hdecode, throw, throwThe, MonadExceptOf.throw]
      | some u =>
          refine .inl ⟨foldNewlines u, ⟨content, u, hread, hdecode, rfl⟩, ?_⟩
          simp [Bind.bind, Except.bind, hdecode, Pure.pure, Except.pure]

theorem readText_eq_ok_iff (hp : Path.IsNormal p) {encoding : Value}
    (henc : Encoding.Names encoding enc) :
    disk.readText encoding p = .ok t ↔ disk.Holds enc p t := by
  rcases hp.readText_cases henc disk with ⟨u, hholds, hread⟩ | ⟨hnot, -, e, he⟩
  · rw [hread]
    constructor
    · intro h
      rwa [← Except.ok.inj h]
    · intro h
      rw [hholds.unique h]
  · exact iff_of_false (by simp [he]) (hnot t)

/-- A path has an identity unless a file with an unplaced text is there; a file that is missing or
cannot be decoded counts as empty. -/
theorem identityOf_eq_ok_iff (hp : Path.IsNormal p) (henc : Encoding.Names scope.encoding enc) :
    (∃ info, identityOf scope disk p = .ok info) ↔
      ∀ t, disk.Holds enc p t → ¬FileIdentity.Unplaced scope.roots p t := by
  have hempty : ∃ info, FileIdentity.ofText scope.roots p [] = .ok info :=
    FileIdentity.ofText_eq_ok_iff.mpr fun h => by
      have htag := h.1
      rw [DocComment.scan, DocComment.scanFrom] at htag
      simp [FileIdentity.firstModuleTag?] at htag
  unfold identityOf
  rcases hp.readText_cases henc disk with ⟨t, hholds, hread⟩ | ⟨hnot, hundecodable, -⟩
  · have hcounted : countedText scope disk p = .ok t := by
      rw [countedText, if_pos (hp.isFile_of_readText hread), hread]
    rw [hcounted]
    dsimp only
    rw [FileIdentity.ofText_eq_ok_iff]
    constructor
    · intro h u hu
      rwa [← hholds.unique hu]
    · intro h
      exact h t hholds
  · have hcounted : countedText scope disk p = .ok [] := by
      rw [countedText]
      split
      next hfile => rw [hundecodable hfile]
      next => rfl
    rw [hcounted]
    exact iff_of_true hempty fun t ht => absurd ht (hnot t)

end Files

/-! ## Imports -/

namespace Disk

variable {d : Disk} {p : Path} {why : Refusal}

theorem follow_eq_error {root : Dir} {place ss : List Text}
    (h : follow root place ss = .error why) :
    why = .notFound ∨ why = .notADirectory ∨ why = .nameTooLong := by
  induction ss generalizing place with
  | nil => simp [follow] at h
  | cons s ss ih =>
      rw [follow] at h
      split at h
      · exact .inl (Except.error.inj h).symm
      · exact .inr (.inl (Except.error.inj h).symm)
      · split at h
        · exact ih h
        · split at h
          · exact ih h
          · split at h
            · exact .inr (.inr (Except.error.inj h).symm)
            · exact ih h

theorem objection?_cases (hnul : '\x00' ∉ p) (h : objection? p = some why) :
    why = .notFound ∨ why = .nameTooLong := by
  unfold objection? at h
  split_ifs at h <;> simp_all

theorem list_eq_error (hnul : '\x00' ∉ p) (h : d.list p = .error why) :
    why = .notFound ∨ why = .notADirectory ∨ why = .nameTooLong := by
  unfold list entry at h
  cases hlocate : d.locate p with
  | error why' =>
      obtain rfl : why' = why := by simpa [hlocate, Bind.bind, Except.bind] using h
      unfold locate at hlocate
      split at hlocate
      next hobjection =>
        obtain rfl := Except.error.inj hlocate
        exact (objection?_cases hnul hobjection).imp_right .inr
      next => exact follow_eq_error hlocate
  | ok place =>
      simp only [hlocate, Bind.bind, Except.bind] at h
      cases hfind : d.root.find? place with
      | none =>
          simp only [hfind, throw, throwThe, MonadExceptOf.throw] at h
          exact .inl (Except.error.inj h).symm
      | some e =>
          cases e with
          | file content =>
              simp only [hfind, Pure.pure, Except.pure, throw, throwThe, MonadExceptOf.throw] at h
              exact .inr (.inl (Except.error.inj h).symm)
          | dir entries => simp [hfind, Pure.pure, Except.pure] at h

theorem listOrEmpty_eq_error_iff {e : Failure} :
    d.listOrEmpty p = .error e ↔
      ∃ why, d.list p = .error why ∧ why ≠ .notFound ∧ why ≠ .notADirectory ∧ e = .disk why := by
  unfold listOrEmpty
  cases hlist : d.list p with
  | ok names => simp
  | error why => cases why <;> simp [eq_comm]

/-- Listing a directory gives names unless its path, or a name in it, is too long. -/
theorem exists_listOrEmpty_iff (hnul : '\x00' ∉ p) :
    (∃ names, d.listOrEmpty p = .ok names) ↔ d.list p ≠ .error .nameTooLong := by
  unfold listOrEmpty
  cases hlist : d.list p with
  | ok names => simp
  | error why =>
      rcases list_eq_error hnul hlist with rfl | rfl | rfl
      · simp
      · simp
      · simp

theorem exists_listOrEmpty_of_isDir (h : d.isDir p = true) :
    ∃ names, d.listOrEmpty p = .ok names := by
  unfold isDir entry? at h
  unfold listOrEmpty list
  cases hentry : d.entry p with
  | error why => simp [hentry, Except.toOption] at h
  | ok e =>
      cases e with
      | file content => simp [hentry, Except.toOption, Entry.isDir] at h
      | dir entries => simp [Bind.bind, Except.bind, Pure.pure, Except.pure]

theorem isFile_rooted_nil {n : Nat} (hn : n = 1 ∨ n = 2) : d.isFile (Path.rooted n []) = false := by
  rcases hn with rfl | rfl <;> rfl

/-- The directory of a file can be listed, and the name of the file is among its names. -/
theorem exists_list_of_isFile {n : Nat} {steps : List Text} {s : Text} (hn : n = 1 ∨ n = 2)
    (hsteps : ∀ t ∈ steps ++ [s], Path.IsName t)
    (h : d.isFile (Path.rooted n (steps ++ [s])) = true) :
    ∃ names, d.list (Path.rooted n steps) = .ok names ∧ s ∈ names := by
  obtain ⟨content, hread⟩ := isFile_iff.mp h
  cases hlocate : d.locate (Path.rooted n (steps ++ [s])) with
  | error why => simp [read, entry, hlocate, Bind.bind, Except.bind] at hread
  | ok place =>
      rw [read_eq_ok_iff hlocate, Dir.content?_eq_some_iff] at hread
      obtain ⟨parent, entries, -, rfl, hparent, hentries⟩ := target_of_locate hn hsteps hlocate
      refine ⟨Text.sort entries.names, ?_, List.mem_mergeSort.mpr ?_⟩
      · rw [list, entry, hparent]
        simp [Bind.bind, Except.bind, hentries, Pure.pure, Except.pure]
      · rw [Dir.find?_concat hentries] at hread
        exact Dir.mem_names_of_get? hread

/-- The directory of a file can be listed. -/
theorem list_dirname_ne_error (hp : Path.IsNormal p) (h : d.isFile p = true) :
    d.list (Path.dirname p) ≠ .error why := by
  obtain ⟨n, steps, hn, hsteps, rfl⟩ := hp
  rcases List.eq_nil_or_concat steps with rfl | ⟨init, s, rfl⟩
  · simp [isFile_rooted_nil hn] at h
  · rw [List.concat_eq_append] at hsteps h ⊢
    obtain ⟨names, hnames, -⟩ := exists_list_of_isFile hn hsteps h
    simp [Path.dirname_rooted hn hsteps, hnames]

end Disk

section Imports

variable {scope : Scope} {disk : Disk} {p candidate : Path} {specifier : Text}

theorem exists_stemMatch?_iff (preferred : List Text) (directory : Path) (stem : Text) :
    (∃ found?, stemMatch? disk preferred directory stem = .ok found?) ↔
      ∃ names, disk.listOrEmpty directory = .ok names := by
  unfold stemMatch?
  cases disk.listOrEmpty directory with
  | error e => simp [Bind.bind, Except.bind]
  | ok names =>
      simp only [Bind.bind, Except.bind]
      split <;> simp [Pure.pure, Except.pure]

/-- Looking for the file that a path refers to fails just as listing the directory of the path
does. -/
theorem target?_eq_error_iff (hcandidate : Path.IsNormal candidate) (preferred : List Text)
    (e : Failure) :
    target? disk preferred candidate = .error e ↔
      disk.listOrEmpty (Path.dirname candidate) = .error e := by
  have hsplit : Path.dirname candidate = (Path.split candidate).1 := rfl
  unfold target?
  by_cases hfile : disk.isFile candidate = true
  · rw [if_pos hfile, Disk.listOrEmpty_eq_error_iff]
    refine iff_of_false (by simp [Pure.pure, Except.pure]) ?_
    rintro ⟨why, hwhy, -⟩
    exact Disk.list_dirname_ne_error hcandidate hfile hwhy
  · rw [if_neg hfile, hsplit]
    dsimp only
    cases hnames : disk.listOrEmpty (Path.split candidate).1 with
    | error e' => simp [stemMatch?, hnames, Bind.bind, Except.bind]
    | ok names =>
        obtain ⟨found?, hfound⟩ := (exists_stemMatch?_iff preferred (Path.split candidate).1
          (Path.split candidate).2).mpr ⟨names, hnames⟩
        refine iff_of_false ?_ (by simp)
        cases found? with
        | some name => simp [hfound, Bind.bind, Except.bind, Pure.pure, Except.pure]
        | none =>
            by_cases hdir : disk.isDir candidate = true
            · obtain ⟨index?, hindex⟩ := (exists_stemMatch?_iff preferred candidate indexStem).mpr
                (Disk.exists_listOrEmpty_of_isDir hdir)
              simp [hfound, Bind.bind, Except.bind, hdir, hindex, Pure.pure, Except.pure]
            · simp [hfound, Bind.bind, Except.bind, hdir, Pure.pure, Except.pure]

/-- Looking for the file that a path refers to answers unless the directory of the path cannot be
listed because its path is too long, or a name in it. -/
theorem exists_target?_iff (hcandidate : Path.IsNormal candidate) (hnul : '\x00' ∉ candidate)
    (preferred : List Text) :
    (∃ found?, target? disk preferred candidate = .ok found?) ↔
      disk.list (Path.dirname candidate) ≠ .error .nameTooLong := by
  have herror : ∀ e, target? disk preferred candidate = .error e ↔ _ :=
    target?_eq_error_iff hcandidate preferred
  rw [← Disk.exists_listOrEmpty_iff fun hmem => hnul (Path.mem_dirname hmem)]
  cases htarget : target? disk preferred candidate with
  | error e => simp [(herror e).mp htarget]
  | ok found? =>
      cases hnames : disk.listOrEmpty (Path.dirname candidate) with
      | error e => exact absurd (htarget.symm.trans ((herror e).mpr hnames)) (by simp)
      | ok names => simp

theorem isNormal_candidate (hp : Path.IsNormal p) (specifier : Text) :
    Path.IsNormal (Session.candidate p specifier) :=
  Path.isNormal_collapse (Path.isAbsolute_join (Path.isNormal_dirname hp).isAbsolute _)

theorem foldl_betterName_mem (preferred : List Text) (name : Text) (others : List Text) :
    others.foldl (betterName preferred) name ∈ name :: others := by
  induction others generalizing name with
  | nil => exact List.mem_singleton_self name
  | cons other others ih =>
      have hbetter : betterName preferred name other = name ∨
          betterName preferred name other = other := by
        unfold betterName
        split
        · exact .inr rfl
        · exact .inl rfl
      have hmem := ih (betterName preferred name other)
      rw [List.foldl_cons]
      rcases List.mem_cons.mp hmem with heq | hmem
      · rw [heq]
        rcases hbetter with h | h <;> simp [h]
      · exact List.mem_cons_of_mem _ (List.mem_cons_of_mem _ hmem)

/-- What is found by its stem is a file of the directory. -/
theorem of_stemMatch? {preferred : List Text} {directory : Path} {stem name : Text}
    (h : stemMatch? disk preferred directory stem = .ok (some name)) :
    Path.stem name = stem ∧ disk.isFile (Path.join directory name) = true := by
  unfold stemMatch? at h
  cases hnames : disk.listOrEmpty directory with
  | error e => simp [hnames, Bind.bind, Except.bind] at h
  | ok names =>
      simp only [hnames, Bind.bind, Except.bind] at h
      split at h
      · simp [Pure.pure, Except.pure] at h
      next first others hcandidates =>
        have hmem := foldl_betterName_mem preferred first others
        rw [← hcandidates, Option.some.inj (Except.ok.inj h), List.mem_filter] at hmem
        simp only [Bool.and_eq_true, decide_eq_true_eq] at hmem
        exact ⟨hmem.2.1.1, hmem.2.2⟩

/-- A file is found at the path itself, beside it by its stem, or as the index of a directory. -/
theorem target?_cases {preferred : List Text}
    (h : target? disk preferred candidate = .ok (some p)) :
    p = candidate ∨
      (∃ name, stemMatch? disk preferred (Path.split candidate).1 (Path.split candidate).2 =
        .ok (some name) ∧ p = Path.join (Path.split candidate).1 name) ∨
      ∃ name, stemMatch? disk preferred candidate indexStem = .ok (some name) ∧
        p = Path.join candidate name := by
  unfold target? at h
  split at h
  · exact .inl (Option.some.inj (Except.ok.inj h)).symm
  next =>
    dsimp only at h
    cases hsibling : stemMatch? disk preferred (Path.split candidate).1
        (Path.split candidate).2 with
    | error e => simp [hsibling, Bind.bind, Except.bind] at h
    | ok found? =>
        simp only [hsibling, Bind.bind, Except.bind] at h
        cases found? with
        | some name => exact .inr (.inl ⟨name, rfl, (Option.some.inj (Except.ok.inj h)).symm⟩)
        | none =>
            dsimp only at h
            split at h
            · cases hindex : stemMatch? disk preferred candidate indexStem with
              | error e => simp [hindex] at h
              | ok index? =>
                  simp only [hindex, Pure.pure, Except.pure, Except.ok.injEq] at h
                  obtain ⟨name, rfl, rfl⟩ := Option.map_eq_some_iff.mp h
                  exact .inr (.inr ⟨name, rfl, rfl⟩)
            · simp [Pure.pure, Except.pure] at h

/-- What shares its stem with a normal path, and is a file beside it, is named. -/
theorem isName_of_sibling (hcandidate : Path.IsNormal candidate) {name : Text}
    (hstem : Path.stem name = (Path.split candidate).2)
    (hfile : disk.isFile (Path.join (Path.split candidate).1 name) = true) : Path.IsName name := by
  obtain ⟨n, steps, hn, hsteps, rfl⟩ := hcandidate
  rcases List.eq_nil_or_concat steps with rfl | ⟨init, s, rfl⟩
  -- The root has no name, and a file without a name would be the root itself.
  · have hroot : Path.split (Path.rooted n []) = (Path.rooted n [], []) := by
      rcases hn with rfl | rfl <;> rfl
    rw [hroot] at hstem hfile
    have hname : name = [] := by
      have happend := Path.stem_append_extension name
      rcases Path.extension_cases name with hnone | ⟨hne, -⟩
      · rw [← happend, hstem, hnone]
        rfl
      · exact absurd hstem hne
    subst hname
    exact absurd hfile (by rcases hn with rfl | rfl <;> simp <;> rfl)
  · rw [List.concat_eq_append] at hsteps hstem
    rw [Path.split_rooted hn hsteps] at hstem
    exact Path.isName_of_isName_stem (hstem ▸ hsteps s (by simp))

theorem isName_indexStem : Path.IsName indexStem :=
  ⟨by decide, by decide, by decide, by decide⟩

/-- The file that a normal path refers to is given by a normal path. -/
theorem isNormal_of_target? (hcandidate : Path.IsNormal candidate) {preferred : List Text}
    (h : target? disk preferred candidate = .ok (some p)) : Path.IsNormal p := by
  have hjoin : ∀ {n : Nat} {steps : List Text} {name : Text}, (n = 1 ∨ n = 2) →
      (∀ s ∈ steps, Path.IsName s) → Path.IsName name →
      Path.IsNormal (Path.join (Path.rooted n steps) name) := by
    intro n steps name hn hsteps hname
    rw [Path.join_rooted hn hsteps hname]
    refine ⟨n, steps ++ [name], hn, ?_, rfl⟩
    simpa [or_imp, forall_and] using ⟨hsteps, hname⟩
  rcases target?_cases h with rfl | ⟨name, hmatch, rfl⟩ | ⟨name, hmatch, rfl⟩
  · exact hcandidate
  · obtain ⟨hstem, hfile⟩ := of_stemMatch? hmatch
    have hname := isName_of_sibling hcandidate hstem hfile
    obtain ⟨n, steps, hn, hsteps, hdirname⟩ := Path.isNormal_dirname hcandidate
    rw [show (Path.split candidate).1 = Path.rooted n steps from hdirname]
    exact hjoin hn hsteps hname
  · obtain ⟨n, steps, hn, hsteps, rfl⟩ := hcandidate
    have hindex := isName_indexStem
    rw [← (of_stemMatch? hmatch).1] at hindex
    exact hjoin hn hsteps (Path.isName_of_isName_stem hindex)

theorem isNormal_targetOf (hp : Path.IsNormal p) {q : Path}
    (h : targetOf scope disk p specifier = .ok q) : Path.IsNormal q := by
  have hcandidate := isNormal_candidate hp specifier
  unfold targetOf at h
  split at h
  next found? hfound =>
    obtain rfl := Except.ok.inj h
    cases found? with
    | none => exact hcandidate
    | some q => exact isNormal_of_target? hcandidate hfound
  next => simp at h

/-- Asked first, a relative import is resolved as the disk says. -/
theorem resolvePath_fresh (hp : Path.IsNormal p)
    (hrelative : Specifier.isRelative specifier = true) :
    ((Session.resolvePath scope (.still disk) p specifier).run .fresh).answer =
      (targetOf scope disk p specifier).map some := by
  have hmeets : (Session.resolvePath scope (.still disk) p specifier).Meets .fresh _ :=
    Session.meets_resolvePath_of_new hrelative rfl
  have hanswer := (hmeets []).1
  rwa [show scope.normalize p = p from hp.normalize_eq scope.cwd] at hanswer

theorem nul_notMem_candidate (hp : '\x00' ∉ p) (hspecifier : '\x00' ∉ specifier) :
    '\x00' ∉ Session.candidate p specifier := by
  intro h
  rcases Path.mem_collapse h with h | h | h
  · simp at h
  · simp at h
  · have hdirname : '\x00' ∉ Path.dirname p := fun hmem => hp (Path.mem_dirname hmem)
    unfold Path.join at h
    split at h
    · exact hspecifier h
    · split at h
      · simp [hdirname, hspecifier] at h
      · simp [hdirname, hspecifier] at h

theorem targetOf_eq_ok_iff (hp : Path.IsNormal p) (hnul : '\x00' ∉ p)
    (hspecifier : '\x00' ∉ specifier) :
    (∃ q, targetOf scope disk p specifier = .ok q) ↔
      disk.list (Path.dirname (Session.candidate p specifier)) ≠ .error .nameTooLong := by
  rw [← exists_target?_iff (isNormal_candidate hp specifier)
    (nul_notMem_candidate hnul hspecifier) (preferredBy p scope.extensions)]
  unfold targetOf
  cases target? disk (preferredBy p scope.extensions) (Session.candidate p specifier) <;> simp

/-- The module of a relative import is found when its path is, and the file there has an
identity. -/
theorem moduleOf_eq_ok_iff :
    (∃ id, moduleOf scope disk p specifier = .ok id) ↔
      (Specifier.isRelative specifier = true → ∃ q, targetOf scope disk p specifier = .ok q ∧
        ∃ info, identityOf scope disk (scope.normalize q) = .ok info) := by
  unfold moduleOf importedIdentity
  by_cases hrelative : Specifier.isRelative specifier = true
  · rw [if_pos hrelative]
    cases targetOf scope disk p specifier with
    | error e => simp [hrelative, Except.map]
    | ok q => cases hidentity : identityOf scope disk (scope.normalize q) <;>
        simp [hrelative, Except.map, hidentity]
  · simp [hrelative]

theorem nul_notMem_of_mem_commentRefs {t : Text} {r : Nat × ImportRef} (hr : r ∈ commentRefs t) :
    '\x00' ∉ r.2.specifier := by
  intro hmem
  exact ImportRef.isNameChar_ne ((shaped_of_mem_commentRefs hr).specifier_chars _ hmem) rfl rfl

theorem Disk.Holds.nul_notMem {enc : Encoding} {t : Text} (h : disk.Holds enc p t) :
    '\x00' ∉ p := by
  obtain ⟨content, -, hread, -⟩ := h
  cases hlocate : disk.locate p with
  | error why => simp [read, entry, hlocate, Bind.bind, Except.bind] at hread
  | ok place => exact (objection?_eq_none_iff.mp (locate_eq_ok_iff.mp hlocate).1).1

/-- The directory of an import can be listed, and the file that it leads to is not unplaced. -/
def Resolvable (scope : Scope) (disk : Disk) (enc : Encoding) (p : Path) (specifier : Text) :
    Prop :=
  disk.list (Path.dirname (Session.candidate p specifier)) ≠ .error .nameTooLong ∧
    ∀ q, targetOf scope disk p specifier = .ok q → ∀ t, disk.Holds enc (scope.normalize q) t →
      ¬FileIdentity.Unplaced scope.roots (scope.normalize q) t

variable {enc : Encoding}

theorem exists_moduleOf_iff (hp : Path.IsNormal p)
    (hnormal : ∀ q, Path.IsNormal (scope.normalize q))
    (henc : Encoding.Names scope.encoding enc) (hnul : '\x00' ∉ p)
    (hspecifier : '\x00' ∉ specifier) :
    (∃ id, moduleOf scope disk p specifier = .ok id) ↔
      (Specifier.isRelative specifier = true → Resolvable scope disk enc p specifier) := by
  rw [moduleOf_eq_ok_iff, Resolvable, ← targetOf_eq_ok_iff hp hnul hspecifier]
  refine imp_congr_right fun _ => ?_
  constructor
  · rintro ⟨q, hq, hidentity⟩
    refine ⟨⟨q, hq⟩, fun q' hq' => ?_⟩
    obtain rfl := Except.ok.inj (hq.symm.trans hq')
    exact (identityOf_eq_ok_iff (hnormal q) henc).mp hidentity
  · rintro ⟨⟨q, hq⟩, hplaced⟩
    exact ⟨q, hq, (identityOf_eq_ok_iff (hnormal q) henc).mpr (hplaced q hq)⟩

theorem sourceOf_eq (hp : Path.IsNormal p) (henc : Encoding.Names scope.encoding enc) {t : Text}
    (h : disk.Holds enc p t) : sourceOf scope disk p = t := by
  rw [sourceOf, (readText_eq_ok_iff hp henc).mpr h]
  rfl

/-- A file can be staged when it can be decoded, is not unplaced, and its relative imports can be
resolved. -/
theorem stageable_iff (hp : Path.IsNormal p) (hnormal : ∀ q, Path.IsNormal (scope.normalize q))
    (henc : Encoding.Names scope.encoding enc) :
    Stageable scope disk p ↔ ∃ t, disk.Holds enc p t ∧ ¬FileIdentity.Unplaced scope.roots p t ∧
      ∀ r ∈ commentRefs t, Specifier.isRelative r.2.specifier = true →
        Resolvable scope disk enc p r.2.specifier := by
  -- Linking asks for the module of each reference.
  have hlinkable : ∀ t, disk.Holds enc p t → (Linkable scope disk p t ↔ ∀ r ∈ commentRefs t,
      Specifier.isRelative r.2.specifier = true → Resolvable scope disk enc p r.2.specifier) :=
    fun t ht => forall₂_congr fun r hr =>
      exists_moduleOf_iff hp hnormal henc ht.nul_notMem (nul_notMem_of_mem_commentRefs hr)
  unfold Stageable
  rw [identityOf_eq_ok_iff hp henc]
  simp only [readText_eq_ok_iff hp henc]
  constructor
  · rintro ⟨⟨t, ht⟩, hplaced, hlinks⟩
    rw [sourceOf_eq hp henc ht] at hlinks
    exact ⟨t, ht, hplaced t ht, (hlinkable t ht).mp hlinks⟩
  · rintro ⟨t, ht, hplaced, hlinks⟩
    rw [sourceOf_eq hp henc ht]
    refine ⟨⟨t, ht⟩, fun u hu => ?_, (hlinkable t ht).mpr hlinks⟩
    rwa [hu.unique ht]

end Imports

/-! ## Runs -/

namespace Batch

section Conditions

variable (scope : Scope) (disk : Disk) (enc : Encoding) (listed : List Path)

/-- A doc comment of a listed file has a relative import reference with this specifier. -/
def Refers (importer : Path) (specifier : Text) : Prop :=
  importer ∈ listed ∧ Specifier.isRelative specifier = true ∧
    ∃ t, disk.Holds enc importer t ∧ ∃ r ∈ commentRefs t, r.2.specifier = specifier

/-- A relative import reference of a listed file is resolved to this path. -/
def Imported (p : Path) : Prop :=
  ∃ importer specifier, Refers disk enc listed importer specifier ∧
    ∃ q, ((Session.resolvePath scope (.still disk) importer specifier).run .fresh).answer =
      .ok (some q) ∧ p = disk.normalize q

/-- What a run over listed paths needs. Nothing is asked of the files that imported files refer to,
nor of an imported file that is missing or cannot be decoded. -/
structure Runnable : Prop where
  /-- Every listed path leads to a file that can be decoded. -/
  readable : ∀ p ∈ listed, ∃ t, disk.Holds enc p t
  /-- No listed or imported file has a first module tag without a name while it is below no root. -/
  placed : ∀ p, p ∈ listed ∨ Imported scope disk enc listed p →
    ∀ t, disk.Holds enc p t → ¬FileIdentity.Unplaced scope.roots p t
  /-- No listed file imports from a directory whose path, or a name in it, is too long to be looked
  up. -/
  listable : ∀ importer specifier, Refers disk enc listed importer specifier →
    disk.list (Path.dirname (Session.candidate importer specifier)) ≠ .error .nameTooLong

end Conditions

variable {scope : Scope} {disk : Disk} {settings : Settings} {enc : Encoding} {listed : List Path}

/-- All listed files can be staged exactly when the run has what it needs. -/
theorem stageable_iff_runnable (hnormal : ∀ q, Path.IsNormal (scope.normalize q))
    (hnormalize : scope.normalize = disk.normalize) (henc : Encoding.Names scope.encoding enc)
    (hlisted : ∀ p ∈ listed, Path.IsNormal p) :
    (∀ p ∈ listed, Stageable scope disk p) ↔ Runnable scope disk enc listed := by
  rw [forall₂_congr fun p hp => stageable_iff (hlisted p hp) hnormal henc]
  constructor
  · intro h
    -- A file holds one text, so its references are those of the text that was staged.
    have hresolvable : ∀ importer specifier, Refers disk enc listed importer specifier →
        Resolvable scope disk enc importer specifier := by
      rintro importer specifier ⟨himporter, hrelative, t, ht, r, hr, rfl⟩
      obtain ⟨u, hu, -, hlinks⟩ := h importer himporter
      obtain rfl := hu.unique ht
      exact hlinks r hr hrelative
    refine ⟨fun p hp => ?_, ?_, fun importer specifier hr => (hresolvable importer specifier hr).1⟩
    · obtain ⟨t, ht, -⟩ := h p hp
      exact ⟨t, ht⟩
    · rintro p (hp | ⟨importer, specifier, hr, q, hq, rfl⟩)
      · obtain ⟨t, ht, hplaced, -⟩ := h p hp
        intro u hu
        rwa [hu.unique ht]
      · rw [resolvePath_fresh (hlisted importer hr.1) hr.2.1] at hq
        cases htarget : targetOf scope disk importer specifier with
        | error e => simp [htarget, Except.map] at hq
        | ok q' =>
            obtain rfl : q' = q := by simpa [htarget, Except.map] using hq
            rw [← hnormalize]
            exact (hresolvable importer specifier hr).2 q' htarget
  · intro h p hp
    obtain ⟨t, ht⟩ := h.readable p hp
    refine ⟨t, ht, h.placed p (.inl hp) t ht, fun r hr hrelative => ?_⟩
    have hrefers : Refers disk enc listed p r.2.specifier := ⟨hp, hrelative, t, ht, r, hr, rfl⟩
    refine ⟨h.listable p _ hrefers, fun q hq => ?_⟩
    refine h.placed _ (.inr ⟨p, _, hrefers, q, ?_, by rw [hnormalize]⟩)
    rw [resolvePath_fresh (hlisted p hp) hrelative, hq]
    rfl

theorem exists_scope_of_list (disk : Disk) {vs : List Value}
    (hextensions : settings.extensions = .list vs) :
    ∃ scope, Scope.ofSettings disk.cwdPath settings = .ok scope := by
  unfold Scope.ofSettings Settings.preferredExtensions
  rw [hextensions]
  split
  · exact ⟨_, rfl⟩
  · exact ⟨_, rfl⟩

/-- **When a run returns.** With an encoding that is known and a list of extensions, a run over
listed files returns exactly when it has what it needs, and when the first phase returns, so does
the run. -/
theorem run_returns_iff (disk : Disk) {vs : List Value}
    (henc : Encoding.Names settings.encoding enc) (hextensions : settings.extensions = .list vs)
    (files : List Path) :
    ∃ scope, Scope.ofSettings disk.cwdPath settings = .ok scope ∧
      ((∃ r, ((run (.still disk) settings (some files)).run ()).answer = .ok r) ↔
        Runnable scope disk enc (files.map disk.normalize)) ∧
      ∀ staged, ((Op.collect (stage scope (.still disk)) (files.map disk.normalize)).run
          .fresh).answer = .ok staged →
        ∃ r, ((run (.still disk) settings (some files)).run ()).answer = .ok r := by
  obtain ⟨scope, hscope⟩ := exists_scope_of_list disk hextensions
  have hnormalize := normalize_of_scope hscope
  have hlisted : ∀ p ∈ files.map disk.normalize, Path.IsNormal p := by
    intro p hp
    obtain ⟨f, -, rfl⟩ := List.mem_map.mp hp
    exact Path.isNormal_normalize rfl f
  have hreturns : (∃ r, ((run (.still disk) settings (some files)).run ()).answer = .ok r) ↔
      ∀ p ∈ files.map disk.normalize, Stageable scope disk p := by
    simp only [run_eq_ok_iff, hscope, Except.ok.injEq, exists_eq_left', hnormalize]
    exact exists_and_left.trans (and_iff_left ⟨_, rfl⟩)
  refine ⟨scope, hscope, ?_, fun staged hstaged => ?_⟩
  · rw [hreturns]
    apply stageable_iff_runnable (isNormal_normalize hscope) hnormalize _ hlisted
    rw [encoding_of_scope hscope]
    exact henc
  · rw [hreturns]
    by_contra hnot
    have hstages : (Op.collect (stage scope (.still disk)) (files.map disk.normalize)).Answers
        .fresh _ _ _ := answers_stages hlisted
    obtain ⟨e, he⟩ := (hstages []).2 hnot
    exact absurd (hstaged.symm.trans he) (by simp)

theorem sample_encoding : Encoding.Names sampleSettings.encoding .utf8 :=
  ⟨by decide +kernel, by decide +kernel⟩

/-! An import from a directory whose name no disk can hold: the file can be read and has a name, and
there is no file to be imported, yet the run fails. -/

def longName : Text := List.replicate 256 'a'

def longText : Text :=
  "/** @type \x7bimport('./".toList ++ longName ++ "/b').T\x7d */".toList

def longDisk : Disk :=
  ⟨.sub ['p'] (.file ['a', '.', 'j', 's'] (Encoding.encodeUtf8 longText) .empty) .empty, [['p']]⟩

theorem holds_longText : longDisk.Holds .utf8 samplePath longText :=
  ⟨Encoding.encodeUtf8 longText, longText, by decide +kernel, by decide +kernel,
    by decide +kernel⟩

set_option maxRecDepth 100000 in
theorem resolvePath_longText : ∀ r ∈ commentRefs longText,
    ((Session.resolvePath sampleScope (.still longDisk) samplePath r.2.specifier).run
      .fresh).answer = .error (.disk .nameTooLong) := by
  decide +kernel

/-- Nothing is imported through a name that is too long, and the file itself needs no root. -/
theorem not_unplaced_longDisk {p : Path}
    (hp : p ∈ [samplePath] ∨ Imported sampleScope longDisk .utf8 [samplePath] p) {t : Text}
    (ht : longDisk.Holds .utf8 p t) : ¬FileIdentity.Unplaced sampleScope.roots p t := by
  rcases hp with hp | ⟨importer, specifier, ⟨himporter, -, u, hu, r, hr, rfl⟩, q, hq, rfl⟩
  · obtain rfl := List.mem_singleton.mp hp
    obtain rfl := ht.unique holds_longText
    exact fun hunplaced => absurd hunplaced.1 (by decide +kernel)
  · obtain rfl := List.mem_singleton.mp himporter
    obtain rfl := hu.unique holds_longText
    rw [resolvePath_longText r hr] at hq
    simp at hq

set_option maxRecDepth 100000 in
/-- The sample has what a run needs. The other file can be read, and neither it nor an imported one
lacks a root, but the directory that it imports from cannot be listed, so the run fails. -/
theorem long_name_run_fails :
    Runnable sampleScope sampleDisk .utf8 [samplePath] ∧
      (∀ p ∈ [samplePath], ∃ t, longDisk.Holds .utf8 p t) ∧
      (∀ p, p ∈ [samplePath] ∨ Imported sampleScope longDisk .utf8 [samplePath] p →
        ∀ t, longDisk.Holds .utf8 p t → ¬FileIdentity.Unplaced sampleScope.roots p t) ∧
      ¬Runnable sampleScope longDisk .utf8 [samplePath] ∧
      ((run (.still longDisk) sampleSettings (some ["a.js".toList])).run ()).answer =
        .error (.disk .nameTooLong) := by
  have hreturns : ∀ disk : Disk, Scope.ofSettings disk.cwdPath sampleSettings = .ok sampleScope →
      ["a.js".toList].map disk.normalize = [samplePath] →
      ((∃ r, ((run (.still disk) sampleSettings (some ["a.js".toList])).run ()).answer = .ok r) ↔
        Runnable sampleScope disk .utf8 [samplePath]) := by
    intro disk hdisk hlisted
    obtain ⟨scope, hscope, hreturns, -⟩ := run_returns_iff disk sample_encoding rfl ["a.js".toList]
    obtain rfl := Except.ok.inj (hdisk.symm.trans hscope)
    rwa [hlisted] at hreturns
  have hfails : ((run (.still longDisk) sampleSettings (some ["a.js".toList])).run ()).answer =
      .error (.disk .nameTooLong) := by
    decide +kernel
  refine ⟨(hreturns sampleDisk rfl (by decide +kernel)).mp ⟨sampleResult, sample_run⟩,
    fun p hp => ?_, fun p hp t ht => not_unplaced_longDisk hp ht, ?_, hfails⟩
  · obtain rfl := List.mem_singleton.mp hp
    exact ⟨longText, holds_longText⟩
  · rw [← hreturns longDisk rfl (by decide +kernel), hfails]
    simp

end Batch

end DocRefs
