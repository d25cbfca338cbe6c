import Mathlib
import DocRefs.Batch.Write
import DocRefs.Proofs.Encodings
import DocRefs.Proofs.Operations
import DocRefs.Proofs.Paths

/-!
# Overwriting files

Writing a result in place puts new contents into files that are there. No file or directory comes or
goes, so every path leads to the same place as before, directories list the same names, and a file
holds its old content or the one written last.
-/

namespace DocRefs

namespace Dir

/-- The same names of the same kinds in the same order; contents may differ. -/
inductive Alike : Dir → Dir → Prop
  | empty : Alike .empty .empty
  | file (name : Text) {content content' : Bytes} {rest rest' : Dir} (h : Alike rest rest') :
      Alike (.file name content rest) (.file name content' rest')
  | sub (name : Text) {entries entries' rest rest' : Dir} (hentries : Alike entries entries')
      (hrest : Alike rest rest') : Alike (.sub name entries rest) (.sub name entries' rest')

/-- Two files, or two directories that are alike. -/
inductive EntryAlike : Option Entry → Option Entry → Prop
  | none : EntryAlike none none
  | file (content content' : Bytes) : EntryAlike (some (.file content)) (some (.file content'))
  | dir {entries entries' : Dir} (h : Alike entries entries') :
      EntryAlike (some (.dir entries)) (some (.dir entries'))

variable {d d' d'' : Dir} {content content' : Bytes}

theorem Alike.refl (d : Dir) : Alike d d := by
  induction d with
  | empty => exact .empty
  | file name content rest ih => exact .file name ih
  | sub name entries rest ihEntries ih => exact .sub name ihEntries ih

theorem Alike.trans (h : Alike d d') (h' : Alike d' d'') : Alike d d'' := by
  induction h generalizing d'' with
  | empty => exact h'
  | file name _ ih =>
      cases h' with
      | file _ hrest => exact .file name (ih hrest)
  | sub name _ _ ihEntries ih =>
      cases h' with
      | sub _ hentries hrest => exact .sub name (ihEntries hentries) (ih hrest)

theorem Alike.names_eq (h : Alike d d') : d'.names = d.names := by
  induction h with
  | empty => rfl
  | file name _ ih => rw [names, names, ih]
  | sub name _ _ _ ih => rw [names, names, ih]

theorem Alike.sources_eq (h : Alike d d') (extensions exclude : List Text) :
    d'.sources extensions exclude = d.sources extensions exclude := by
  induction h with
  | empty => rfl
  | file name _ ih => rw [sources, sources, ih]
  | sub name _ _ ihEntries ih => rw [sources, sources, ihEntries, ih]

theorem Alike.get? (h : Alike d d') (name : Text) : EntryAlike (d.get? name) (d'.get? name) := by
  induction h with
  | empty => exact .none
  | file n _ ih =>
      rw [Dir.get?, Dir.get?]
      split
      · exact .file _ _
      · exact ih
  | sub n hentries _ _ ih =>
      rw [Dir.get?, Dir.get?]
      split
      · exact .dir hentries
      · exact ih

theorem Alike.find? (h : Alike d d') (place : List Text) :
    EntryAlike (d.find? place) (d'.find? place) := by
  induction place generalizing d d' with
  | nil => exact .dir h
  | cons name place ih =>
      have hget := h.get? name
      unfold Dir.find?
      generalize d.get? name = e, d'.get? name = e' at hget
      cases hget with
      | none => exact .none
      | file content content' =>
          dsimp only
          split
          · exact .file _ _
          · exact .none
      | dir hentries => exact ih hentries

theorem alike_put_file {name : Text} (h : d.get? name = some (.file content)) :
    Alike d (d.put name (.file content')) := by
  induction d with
  | empty => simp [Dir.get?] at h
  | file n old rest ih =>
      rw [put]
      split
      next heq => exact heq ▸ .file n (.refl rest)
      next hne =>
        rw [Dir.get?, if_neg hne] at h
        exact .file n (ih h)
  | sub n entries rest _ ih =>
      rw [put]
      split
      next heq => simp [Dir.get?, heq] at h
      next hne =>
        rw [Dir.get?, if_neg hne] at h
        exact .sub n (.refl entries) (ih h)

theorem alike_put_dir {name : Text} {entries entries' : Dir}
    (h : d.get? name = some (.dir entries)) (hentries : Alike entries entries') :
    Alike d (d.put name (.dir entries')) := by
  induction d with
  | empty => simp [Dir.get?] at h
  | file n old rest ih =>
      rw [put]
      split
      next heq => simp [Dir.get?, heq] at h
      next hne =>
        rw [Dir.get?, if_neg hne] at h
        exact .file n (ih h)
  | sub n old rest _ ih =>
      rw [put]
      split
      next heq =>
        rw [Dir.get?, if_pos heq] at h
        obtain rfl : old = entries := by simpa using h
        exact heq ▸ .sub n hentries (.refl rest)
      next hne =>
        rw [Dir.get?, if_neg hne] at h
        exact .sub n (.refl old) (ih h)

/-- What a path of names through a directory says of its first step. -/
theorem find?_cons_cons {name next : Text} {place : List Text} {e : Entry}
    (h : d.find? (name :: next :: place) = some e) :
    ∃ entries, d.get? name = some (.dir entries) ∧ entries.find? (next :: place) = some e := by
  rw [Dir.find?] at h
  split at h
  · simp at h
  · simp at h
  next entries hget => exact ⟨entries, hget, h⟩

theorem find?_singleton {name : Text} {content : Bytes}
    (h : d.find? [name] = some (.file content)) : d.get? name = some (.file content) := by
  rw [Dir.find?] at h
  split at h
  · simp at h
  next content' hget => simpa [hget] using h
  next entries hget => simp [Dir.find?] at h

/-- Putting a file in the place of a file changes neither names nor kinds. -/
theorem alike_putAt {place : List Text} (h : d.find? place = some (.file content)) :
    Alike d (d.putAt (.file content') place) := by
  induction place generalizing d with
  | nil => exact .refl d
  | cons name place ih =>
      cases place with
      | nil => exact alike_put_file (find?_singleton h)
      | cons next place =>
          obtain ⟨entries, hget, hfind⟩ := find?_cons_cons h
          rw [putAt, hget]
          exact alike_put_dir hget (ih hfind)

/-- The file put at a place is found there, and every other file is found as before. -/
theorem find?_putAt_file {place other : List Text} {old : Bytes}
    (h : d.find? place = some (.file content)) (hother : d.find? other = some (.file old)) :
    (d.putAt (.file content') place).find? other =
      some (.file (if place = other then content' else old)) := by
  induction place generalizing d other with
  | nil => simp [Dir.find?] at h
  | cons name place ih =>
      cases other with
      | nil => simp [Dir.find?] at hother
      | cons first other =>
          cases place with
          | nil =>
              have hget := find?_singleton h
              rw [putAt, Dir.find?, get?_put]
              by_cases hname : name = first
              · subst hname
                rw [Dir.find?, hget] at hother
                dsimp only at hother
                split at hother
                next hnil => simp [hnil]
                next => simp at hother
              · rw [if_neg hname, if_neg (by simp [hname]), ← Dir.find?.eq_2]
                exact hother
          | cons next place =>
              -- The directory on the way is put back with the file changed in it.
              obtain ⟨entries, hget, hfind⟩ := find?_cons_cons h
              rw [putAt, hget]
              dsimp only
              rw [Dir.find?, get?_put]
              by_cases hname : name = first
              · subst hname
                rw [Dir.find?, hget] at hother
                rw [if_pos rfl]
                dsimp only at hother ⊢
                rw [ih hfind hother]
                simp
              · rw [if_neg hname, if_neg (by simp [hname]), ← Dir.find?.eq_2]
                exact hother

end Dir

namespace Disk

/-! ## Where paths lead -/

theorem follow_append (root : Dir) (place : List Text) (ss ss' : List Text) :
    follow root place (ss ++ ss') =
      match follow root place ss with
      | .ok q => follow root q ss'
      | .error why => .error why := by
  induction ss generalizing place with
  | nil => rfl
  | cons s ss ih =>
      rw [List.cons_append, follow.eq_def, follow.eq_def root place (s :: ss)]
      dsimp only
      cases root.find? place with
      | none => rfl
      | some e =>
          cases e with
          | file content => rfl
          | dir entries =>
              dsimp only
              split
              · exact ih place
              · split
                · exact ih place.dropLast
                · split
                  · rfl
                  · exact ih (place ++ [s])

/-- Empty steps are taken in a directory and lead nowhere. -/
theorem follow_replicate (root : Dir) (n : Nat) (ss : List Text) :
    follow root [] (List.replicate n [] ++ ss) = follow root [] ss := by
  induction n with
  | zero => rfl
  | succ n ih =>
      rw [List.replicate_succ, List.cons_append, follow, Dir.find?]
      simpa using ih

/-- A step that is a name leads one name further. -/
theorem follow_name {root : Dir} {place q : List Text} {s : Text} (hs : Path.IsName s)
    (h : follow root place [s] = .ok q) :
    q = place ++ [s] ∧ (∃ entries, root.find? place = some (.dir entries)) ∧
      (Encoding.encodeUtf8 s).length ≤ nameLimit := by
  rw [follow] at h
  split at h
  · simp at h
  · simp at h
  next entries hentries =>
    rw [if_neg (by simp [hs.ne_nil, hs.ne_here]), if_neg hs.ne_up] at h
    split at h
    · simp at h
    next hlimit =>
      rw [follow] at h
      exact ⟨(Except.ok.inj h).symm, ⟨entries, hentries⟩, Nat.not_lt.mp hlimit⟩

theorem objection?_eq_none_iff {p : Path} :
    objection? p = none ↔ '\x00' ∉ p ∧ fits p = true ∧ p ≠ [] := by
  unfold objection?
  split_ifs <;> simp_all

theorem fits_iff {p : Path} : fits p = true ↔ (Encoding.encodeUtf8 p).length ≤ pathLimit :=
  decide_eq_true_iff

theorem fits_of_isPrefix {p q : Path} (hfront : q <+: p) (h : fits p = true) : fits q = true := by
  obtain ⟨rest, rfl⟩ := hfront
  rw [fits_iff, Encoding.encodeUtf8, List.flatMap_append, List.length_append] at h
  exact fits_iff.mpr ((Nat.le_add_right _ _).trans h)

/-- What is said against a path is said against every longer one, unless it is that it is empty. -/
theorem objection?_of_isPrefix {p q : Path} (hfront : q <+: p) (hq : q ≠ [])
    (h : objection? p = none) : objection? q = none := by
  obtain ⟨hnul, hfits, -⟩ := objection?_eq_none_iff.mp h
  exact objection?_eq_none_iff.mpr
    ⟨fun hmem => hnul (hfront.subset hmem), fits_of_isPrefix hfront hfits, hq⟩

theorem locate_eq_ok_iff {d : Disk} {p : Path} {place : List Text} :
    d.locate p = .ok place ↔ objection? p = none ∧
      follow d.root (if Path.isAbsolute p then [] else d.cwd) (Text.splitOn '/' p) = .ok place := by
  unfold locate
  cases objection? p <;> simp

/-- A path leads to what stands at the place where it ends. -/
theorem entry?_eq_some_iff {d : Disk} {p : Path} {e : Entry} :
    d.entry? p = some e ↔ ∃ place, d.locate p = .ok place ∧ d.root.find? place = some e := by
  unfold entry? entry
  cases d.locate p with
  | error why => simp [Bind.bind, Except.bind, Except.toOption]
  | ok place =>
      cases hfind : d.root.find? place <;> simp [hfind, Bind.bind, Except.bind, Pure.pure,
        Except.pure, Except.toOption, throw, throwThe, MonadExceptOf.throw]

theorem isFile_eq_true_iff {d : Disk} {p : Path} : d.isFile p = true ↔
    ∃ place content, d.locate p = .ok place ∧ d.root.find? place = some (.file content) := by
  rw [isFile, Option.any_eq_true]
  simp only [entry?_eq_some_iff]
  constructor
  · rintro ⟨e, ⟨place, hplace, hfind⟩, he⟩
    cases e with
    | file content => exact ⟨place, content, hplace, hfind⟩
    | dir entries => simp [Entry.isFile] at he
  · rintro ⟨place, content, hplace, hfind⟩
    exact ⟨_, ⟨place, hplace, hfind⟩, rfl⟩

/-- The parts of a path of names are followed as the names. -/
theorem follow_splitOn_rooted {n : Nat} {steps : List Text} (hn : n = 1 ∨ n = 2)
    (hsteps : ∀ s ∈ steps, Path.IsName s) (d : Disk) :
    follow d.root (if Path.isAbsolute (Path.rooted n steps) then [] else d.cwd)
      (Text.splitOn '/' (Path.rooted n steps)) = follow d.root [] steps := by
  have habsolute : Path.isAbsolute (Path.rooted n steps) = true := by
    rcases hn with rfl | rfl <;> rfl
  rw [if_pos habsolute, Path.splitOn_rooted hsteps, follow_replicate]
  split
  next hnil =>
    subst hnil
    simp [follow, Dir.find?]
  next => rfl

theorem locate_rooted_eq_ok_iff {d : Disk} {n : Nat} {steps place : List Text}
    (hn : n = 1 ∨ n = 2) (hsteps : ∀ s ∈ steps, Path.IsName s) :
    d.locate (Path.rooted n steps) = .ok place ↔
      objection? (Path.rooted n steps) = none ∧ follow d.root [] steps = .ok place := by
  rw [locate_eq_ok_iff, follow_splitOn_rooted hn hsteps]

section Target

variable {d : Disk} {n : Nat} {steps place : List Text} {s : Text}

theorem rooted_isPrefix (n : Nat) (steps names : List Text) :
    Path.rooted n steps <+: Path.rooted n (steps ++ names) := by
  rw [Path.rooted, Path.rooted, List.prefix_append_right_inj]
  induction steps with
  | nil => exact List.nil_prefix
  | cons t ts ih =>
      cases ts with
      | nil => cases names <;> simp [Text.join]
      | cons u us => simpa [Text.join] using ih

/-- The directory of a path that leads somewhere, and the name in it. -/
theorem target_of_locate (hn : n = 1 ∨ n = 2) (hsteps : ∀ t ∈ steps ++ [s], Path.IsName t)
    (h : d.locate (Path.rooted n (steps ++ [s])) = .ok place) :
    ∃ parent entries, d.target (Path.rooted n (steps ++ [s])) = .ok (parent, some s) ∧
      place = parent ++ [s] ∧ d.locate (Path.rooted n steps) = .ok parent ∧
      d.root.find? parent = some (.dir entries) := by
  have hs : Path.IsName s := hsteps s (by simp)
  have hparent : ∀ t ∈ steps, Path.IsName t := fun t ht => hsteps t (List.mem_append_left _ ht)
  have habsolute : Path.isAbsolute (Path.rooted n (steps ++ [s])) = true := by
    rcases hn with rfl | rfl <;> rfl
  obtain ⟨hobjection, hfollow⟩ := (locate_rooted_eq_ok_iff hn hsteps).mp h
  rw [follow_append] at hfollow
  split at hfollow
  next parent hparentFollow =>
    obtain ⟨rfl, ⟨entries, hentries⟩, hlimit⟩ := follow_name hs hfollow
    refine ⟨parent, entries, ?_, rfl, ?_, hentries⟩
    · -- Behind the empty parts of the slashes the parts are the steps, and the last is the name.
      have hdrop : (Text.splitOn '/' (Path.rooted n (steps ++ [s]))).dropLast =
          List.replicate n [] ++ steps := by
        rw [Path.splitOn_rooted hsteps, if_neg (by simp), ← List.append_assoc,
          List.dropLast_concat]
      have hlast : (Text.splitOn '/' (Path.rooted n (steps ++ [s]))).getLast? = some s := by
        rw [Path.splitOn_rooted hsteps, if_neg (by simp), ← List.append_assoc,
          List.getLast?_concat]
      unfold target
      rw [hobjection, if_pos habsolute]
      dsimp only
      rw [hdrop, hlast, follow_replicate, hparentFollow]
      simp only [Bind.bind, Except.bind, hentries]
      rw [if_neg (by simp [hs.ne_nil, hs.ne_here, hs.ne_up]), if_neg (Nat.not_lt.mpr hlimit)]
      rfl
    · exact (locate_rooted_eq_ok_iff hn hparent).mpr
        ⟨objection?_of_isPrefix (rooted_isPrefix n steps [s]) (Path.rooted_ne_nil hn steps)
          hobjection, hparentFollow⟩
  · simp at hfollow

/-- A directory that is there is not made again. -/
theorem makeDir_of_dir {entries : Dir} (hn : n = 1 ∨ n = 2) (hsteps : ∀ t ∈ steps, Path.IsName t)
    (h : d.locate (Path.rooted n steps) = .ok place)
    (hentries : d.root.find? place = some (.dir entries)) :
    d.makeDir (Path.rooted n steps) = .error .alreadyExists := by
  rcases List.eq_nil_or_concat steps with rfl | ⟨init, s, rfl⟩
  · have htarget : d.target (Path.rooted n []) = .ok ([], none) := by
      rcases hn with rfl | rfl <;> rfl
    rw [makeDir, htarget]
    rfl
  · rw [List.concat_eq_append] at hsteps h ⊢
    obtain ⟨parent, -, htarget, rfl, -, -⟩ := target_of_locate hn hsteps h
    rw [makeDir, htarget]
    simp only [Bind.bind, Except.bind, hentries]
    rfl

theorem isDir_of_dir {p : Path} {entries : Dir} (h : d.locate p = .ok place)
    (hentries : d.root.find? place = some (.dir entries)) : d.isDir p = true := by
  rw [isDir, entry?_eq_some_iff.mpr ⟨place, h, hentries⟩]
  rfl

theorem write_of_locate {content old : Bytes} (hn : n = 1 ∨ n = 2)
    (hsteps : ∀ t ∈ steps ++ [s], Path.IsName t)
    (h : d.locate (Path.rooted n (steps ++ [s])) = .ok place)
    (hold : d.root.find? place = some (.file old)) :
    d.write (Path.rooted n (steps ++ [s])) content =
      .ok { d with root := d.root.putAt (.file content) place } := by
  obtain ⟨parent, -, htarget, rfl, -, -⟩ := target_of_locate hn hsteps h
  rw [write, htarget]
  simp only [Bind.bind, Except.bind, hold]
  rfl

end Target

/-! ## Disks that differ in the contents of files -/

/-- The second disk is the first one with new contents in some files, by their places. -/
structure Overwritten (d : Disk) (content : List Text → Option Bytes) (d' : Disk) : Prop where
  cwd : d'.cwd = d.cwd
  alike : d.root.Alike d'.root
  file : ∀ place old, d.root.find? place = some (.file old) →
    d'.root.find? place = some (.file ((content place).getD old))

variable {d d' : Disk} {content : List Text → Option Bytes}

theorem overwritten_refl (d : Disk) : Overwritten d (fun _ => none) d :=
  ⟨rfl, .refl _, fun _ _ h => h⟩

theorem Overwritten.put (h : Overwritten d content d') {place : List Text} {old : Bytes}
    (hold : d.root.find? place = some (.file old)) (new : Bytes) :
    Overwritten d (fun q => if place = q then some new else content q)
      { d' with root := d'.root.putAt (.file new) place } := by
  have hnow := h.file place old hold
  refine ⟨h.cwd, h.alike.trans (Dir.alike_putAt hnow), fun other content' hother => ?_⟩
  rw [Dir.find?_putAt_file hnow (h.file other content' hother)]
  split <;> rfl

namespace Overwritten

theorem follow_eq (h : Overwritten d content d') (place ss : List Text) :
    follow d'.root place ss = follow d.root place ss := by
  induction ss generalizing place with
  | nil => rfl
  | cons s ss ih =>
      have hfind := h.alike.find? place
      unfold follow
      generalize d.root.find? place = e, d'.root.find? place = e' at hfind
      cases hfind with
      | none => rfl
      | file => rfl
      | dir => simp only [ih]

theorem locate_eq (h : Overwritten d content d') (p : Path) : d'.locate p = d.locate p := by
  rw [locate, locate, h.cwd, h.follow_eq]

/-- A path leads to the same kind of entry on both disks, or nowhere for the same reason. -/
theorem entry_cases (h : Overwritten d content d') (p : Path) :
    (∃ why, d.entry p = .error why ∧ d'.entry p = .error why) ∨
    (∃ place old, d.locate p = .ok place ∧ d.entry p = .ok (.file old) ∧
      d'.entry p = .ok (.file ((content place).getD old))) ∨
    ∃ entries entries', Dir.Alike entries entries' ∧ d.entry p = .ok (.dir entries) ∧
      d'.entry p = .ok (.dir entries') := by
  rw [entry, entry, h.locate_eq]
  cases hplace : d.locate p with
  | error why => exact .inl ⟨why, rfl, rfl⟩
  | ok place =>
      have hfind := h.alike.find? place
      have hfile := h.file place
      simp only [Bind.bind, Except.bind]
      cases he : d.root.find? place with
      | none =>
          rw [he] at hfind
          generalize d'.root.find? place = e' at hfind
          cases hfind
          exact .inl ⟨.notFound, rfl, rfl⟩
      | some e =>
          cases e with
          | file old =>
              rw [hfile old he]
              exact .inr (.inl ⟨place, old, rfl, rfl, rfl⟩)
          | dir entries =>
              rw [he] at hfind
              generalize d'.root.find? place = e' at hfind
              cases hfind with
              | dir hentries => exact .inr (.inr ⟨entries, _, hentries, rfl, rfl⟩)

theorem isFile_eq (h : Overwritten d content d') (p : Path) : d'.isFile p = d.isFile p := by
  unfold isFile entry?
  rcases h.entry_cases p with ⟨why, h1, h2⟩ | ⟨place, old, -, h1, h2⟩ | ⟨_, _, -, h1, h2⟩
  · rw [h1, h2]
  · rw [h1, h2]
    rfl
  · rw [h1, h2]
    rfl

theorem isDir_eq (h : Overwritten d content d') (p : Path) : d'.isDir p = d.isDir p := by
  unfold isDir entry?
  rcases h.entry_cases p with ⟨why, h1, h2⟩ | ⟨place, old, -, h1, h2⟩ | ⟨_, _, -, h1, h2⟩
  · rw [h1, h2]
  · rw [h1, h2]
    rfl
  · rw [h1, h2]
    rfl

theorem listOrEmpty_eq (h : Overwritten d content d') (p : Path) :
    d'.listOrEmpty p = d.listOrEmpty p := by
  unfold listOrEmpty list
  rcases h.entry_cases p with ⟨why, h1, h2⟩ | ⟨place, old, -, h1, h2⟩ | ⟨_, _, halike, h1, h2⟩
  · rw [h1, h2]
  · rw [h1, h2]
    rfl
  · rw [h1, h2]
    simp only [Bind.bind, Except.bind]
    rw [halike.names_eq]

theorem normalize_eq (h : Overwritten d content d') : d'.normalize = d.normalize := by
  funext p
  rw [normalize, normalize, cwdPath, cwdPath, h.cwd]

/-- What is read from a file is its old content, or the new one of its place. -/
theorem read_cases (h : Overwritten d content d') (p : Path) :
    (∃ why, d.read p = .error why ∧ d'.read p = .error why) ∨
    ∃ place old, d.locate p = .ok place ∧ d.read p = .ok old ∧
      d'.read p = .ok ((content place).getD old) := by
  unfold read
  rcases h.entry_cases p with ⟨why, h1, h2⟩ | ⟨place, old, hplace, h1, h2⟩ | ⟨_, _, -, h1, h2⟩
  · exact .inl ⟨why, by rw [h1]; rfl, by rw [h2]; rfl⟩
  · exact .inr ⟨place, old, hplace, by rw [h1]; rfl, by rw [h2]; rfl⟩
  · exact .inl ⟨.isADirectory, by rw [h1]; rfl, by rw [h2]; rfl⟩

end Overwritten

end Disk

section Resolve

variable {d d' : Disk} {content : List Text → Option Bytes}

theorem Disk.Overwritten.target?_eq (h : d.Overwritten content d') (preferred : List Text)
    (candidate : Path) : target? d' preferred candidate = target? d preferred candidate := by
  have hstem : ∀ directory stem, stemMatch? d' preferred directory stem =
      stemMatch? d preferred directory stem := by
    intro directory stem
    unfold stemMatch?
    simp only [h.listOrEmpty_eq, h.isFile_eq]
  unfold target?
  simp only [h.isFile_eq, h.isDir_eq, hstem]

end Resolve

namespace Batch

/-- The sources that one root contributes on a disk. -/
def sourcesUnder (disk : Disk) (extensions exclude : List Text) (root : Path) : List Path :=
  match disk.entry? root with
  | some (.file _) => [disk.normalize root]
  | some (.dir entries) => (filesBelow extensions exclude root entries).map disk.normalize
  | none => []

/-- The source files under the roots of settings. -/
def sourcesOn (disk : Disk) (settings : Settings) : Except Failure (List Path) := do
  let extensions ← Settings.textSet settings.extensions
  let exclude ← Settings.textSet settings.exclude
  return Text.sortedSet (settings.roots.map (sourcesUnder disk extensions exclude)).flatten

theorem answers_rootSources (disk : Disk) (extensions exclude : List Text) (root : Path) :
    (rootSources (.still disk) extensions exclude root).Answers () True
      (sourcesUnder disk extensions exclude root) fun _ => True := by
  unfold rootSources sourcesUnder
  apply Op.meets_see_bind
  cases disk.entry? root with
  | none => exact Op.meets_log_bind (Op.answers_pure trivial)
  | some e =>
      cases e with
      | file content => exact Op.answers_pure trivial
      | dir entries => exact Op.answers_pure trivial

theorem meets_discover (disk : Disk) (settings : Settings) :
    (discover (.still disk) settings).Meets () fun r _ => r = sourcesOn disk settings := by
  unfold discover sourcesOn
  cases Settings.textSet settings.extensions with
  | error e => exact fun _ => rfl
  | ok extensions =>
      cases Settings.textSet settings.exclude with
      | error e => exact fun _ => rfl
      | ok exclude =>
          have hcollect : (Op.collect (rootSources (.still disk) extensions exclude)
              settings.roots).Answers () (∀ root ∈ settings.roots, True)
              (settings.roots.map (sourcesUnder disk extensions exclude)) fun _ => True :=
            Op.answers_collect (fun _ _ => True)
              (fun _ root _ _ _ => answers_rootSources disk extensions exclude root) trivial
          exact hcollect.bindMeets (fun hnot => absurd (fun _ _ => trivial) hnot)
            fun _ _ _ => Op.meets_log_bind (Op.meets_pure rfl)

theorem sourcesOn_eq {d d' : Disk} {content : List Text → Option Bytes}
    (h : d.Overwritten content d') (settings : Settings) :
    sourcesOn d' settings = sourcesOn d settings := by
  have hroot : ∀ extensions exclude root,
      sourcesUnder d' extensions exclude root = sourcesUnder d extensions exclude root := by
    intro extensions exclude root
    unfold sourcesUnder Disk.entry?
    rw [h.normalize_eq]
    rcases h.entry_cases root with ⟨why, h1, h2⟩ | ⟨place, old, -, h1, h2⟩ | ⟨_, _, halike, h1, h2⟩
    · rw [h1, h2]
    · rw [h1, h2]
      rfl
    · rw [h1, h2]
      simp only [Except.toOption, filesBelow, halike.sources_eq]
  unfold sourcesOn
  simp only [funext (hroot _ _)]

/-- The bytes that a text is written as, if the setting names an encoding that can write it. -/
def written? (encoding : Value) (t : Text) : Option Bytes :=
  (Encoding.ofValue encoding).toOption.bind fun e => e.encode t

theorem written?_of_ofValue {encoding : Value} {enc : Encoding}
    (h : Encoding.ofValue encoding = .ok enc) (t : Text) :
    written? encoding t = enc.encode t := by
  rw [written?, h]
  rfl

theorem written?_of_error {encoding : Value} {e : Failure}
    (h : Encoding.ofValue encoding = .error e) (t : Text) : written? encoding t = none := by
  rw [written?, h]
  rfl

theorem answers_writeTarget {d : Disk} {encoding : Value} {p : Path} {place : List Text}
    {old : Bytes} (hp : Path.IsNormal p) (hplace : d.locate p = .ok place)
    (hold : d.root.find? place = some (.file old)) (hencoding : Encoding.objection? encoding = none)
    (t : Text) :
    (writeTarget encoding p t).Answers d (∃ content, written? encoding t = some content) p
      fun d' => ∃ content, written? encoding t = some content ∧
        d' = { d with root := d.root.putAt (.file content) place } := by
  obtain ⟨n, steps, hn, hsteps, rfl⟩ := hp
  rcases List.eq_nil_or_concat steps with rfl | ⟨init, s, rfl⟩
  · -- The root is a directory.
    obtain ⟨-, hfollow⟩ := (Disk.locate_rooted_eq_ok_iff hn hsteps).mp hplace
    obtain rfl := Except.ok.inj hfollow
    simp [Dir.find?] at hold
  · rw [List.concat_eq_append] at hsteps hplace ⊢
    obtain ⟨parent, entries, -, rfl, hparent, hentries⟩ :=
      Disk.target_of_locate hn hsteps hplace
    have hinit : ∀ u ∈ init, Path.IsName u := fun u hu => hsteps u (List.mem_append_left _ hu)
    -- The directory above the file is there, so nothing is made.
    have hmake : d.makePath ⟨n, init⟩ = (none, d) := by
      unfold Disk.makePath
      rw [Disk.makeDirs.eq_def, Path.toPath_rooted hn,
        Disk.makeDir_of_dir hn hinit hparent hentries]
      dsimp only
      rw [if_pos (Disk.isDir_of_dir hparent hentries)]
    have hroute : (Route.ofPath (Path.rooted n (init ++ [s]))).parent = ⟨n, init⟩ := by
      rw [Path.ofPath_rooted hn hsteps, Route.parent, List.dropLast_concat]
    have htoPath : (Route.ofPath (Path.rooted n (init ++ [s]))).toPath =
        Path.rooted n (init ++ [s]) := by
      rw [Path.ofPath_rooted hn hsteps, Path.toPath_rooted hn]
    have hwrite : ∀ content, d.write (Path.rooted n (init ++ [s])) content =
        .ok { d with root := d.root.putAt (.file content) (parent ++ [s]) } :=
      fun content => Disk.write_of_locate hn hsteps hplace hold
    intro log
    unfold writeTarget
    simp only [hroute, hmake, htoPath, Disk.writeText, hencoding, hwrite, written?]
    cases Encoding.ofValue encoding with
    | error e => simp [Except.toOption]
    | ok enc =>
        simp only [Except.toOption, Option.bind_some]
        cases enc.encode t with
        | none => simp
        | some content => simp

/-- What the paths of a list put at a place, where the last one wins. -/
def contentAt (disk : Disk) (encoding : Value) (text : Path → Text) (paths : List Path)
    (place : List Text) : Option Bytes :=
  paths.reverse.findSome? fun p =>
    if disk.locate p = .ok place then written? encoding (text p) else none

theorem contentAt_append {disk : Disk} {encoding : Value} {text : Path → Text} {p : Path}
    {place : List Text} {content : Bytes} (hplace : disk.locate p = .ok place)
    (hcontent : written? encoding (text p) = some content) (paths : List Path) :
    contentAt disk encoding text (paths ++ [p]) =
      fun q => if place = q then some content else contentAt disk encoding text paths q := by
  funext q
  rw [contentAt, List.reverse_append, List.reverse_singleton, List.singleton_append,
    List.findSome?_cons, hplace, hcontent]
  by_cases hq : place = q
  · simp [hq]
  · rw [if_neg (fun heq => hq (Except.ok.inj heq)), if_neg hq]
    rfl

/-- Writing files that are there one after the other. -/
theorem answers_writeTargets {disk : Disk} {encoding : Value} (text : Path → Text)
    {targets : List (Path × Path)}
    (hencoding : targets ≠ [] → Encoding.objection? encoding = none)
    (hsame : ∀ e ∈ targets, e.2 = e.1) (hnormal : ∀ e ∈ targets, Path.IsNormal e.1)
    (hfile : ∀ e ∈ targets, ∃ place old, disk.locate e.1 = .ok place ∧
      disk.root.find? place = some (.file old)) :
    (Op.collect (fun e : Path × Path => writeTarget encoding e.2 (text e.1)) targets).Answers disk
      (∀ e ∈ targets, ∃ content, written? encoding (text e.1) = some content)
      (targets.map (·.1))
      (disk.Overwritten (contentAt disk encoding text (targets.map (·.1)))) := by
  refine Op.answers_collect (fun done : List (Path × Path) =>
    disk.Overwritten (contentAt disk encoding text (done.map (·.1)))) ?_
    (Disk.overwritten_refl disk)
  intro done e he d hd
  obtain ⟨place, old, hplace, hold⟩ := hfile e he
  rw [hsame e he]
  have hplace' : d.locate e.1 = .ok place := (hd.locate_eq e.1).trans hplace
  refine (answers_writeTarget (hnormal e he) hplace' (hd.file place old hold)
    (hencoding (List.ne_nil_of_mem he)) (text e.1)).mono fun d' hd' => ?_
  obtain ⟨content, hcontent, rfl⟩ := hd'
  rw [List.map_append, List.map_singleton, contentAt_append hplace hcontent]
  exact hd.put hold content

end Batch

end DocRefs
