import Mathlib
import DocRefs.Proofs.Overwriting

/-!
# Places on a disk

Writing under a directory makes files and directories that were not there. What stays is that
directories are directories, so a path that leads to a place goes on leading there, and that every
file but the one written holds what it held before.
-/

namespace DocRefs

/-- The content of an entry that is a file. -/
def Entry.content? : Entry → Option Bytes
  | .file content => some content
  | .dir _ => none

namespace Dir

/-- The content of the file at the end of a list of names. -/
def content? (d : Dir) (place : List Text) : Option Bytes := (d.find? place).bind Entry.content?

/-- Whether a directory is at the end of a list of names. -/
def HasDir (d : Dir) (place : List Text) : Prop := ∃ entries, d.find? place = some (.dir entries)

variable {d : Dir} {name : Text} {place other parent : List Text}

@[simp] theorem content?_nil (d : Dir) : d.content? [] = none := rfl

theorem hasDir_nil (d : Dir) : d.HasDir [] := ⟨d, rfl⟩

theorem content?_cons (d : Dir) (name : Text) (place : List Text) :
    d.content? (name :: place) =
      match d.get? name with
      | none => none
      | some (.file content) => if place = [] then some content else none
      | some (.dir entries) => entries.content? place := by
  rw [content?, find?]
  cases d.get? name with
  | none => rfl
  | some e =>
      cases e with
      | file content =>
          dsimp only
          split <;> rfl
      | dir entries => rfl

theorem hasDir_cons_iff : d.HasDir (name :: place) ↔
    ∃ entries, d.get? name = some (.dir entries) ∧ entries.HasDir place := by
  unfold HasDir
  rw [find?]
  cases d.get? name with
  | none => simp
  | some e =>
      cases e with
      | file content =>
          dsimp only
          split <;> simp
      | dir entries => simp

/-- Behind the names that lead to a directory stands the name of one of its entries. -/
theorem find?_concat {entries : Dir} (h : d.find? parent = some (.dir entries)) (name : Text) :
    d.find? (parent ++ [name]) = entries.get? name := by
  induction parent generalizing d with
  | nil =>
      obtain rfl : d = entries := by simpa [find?] using h
      rw [List.nil_append, find?]
      cases d.get? name with
      | none => rfl
      | some e => cases e <;> rfl
  | cons first parent ih =>
      obtain ⟨inner, hget, -⟩ := hasDir_cons_iff.mp ⟨entries, h⟩
      rw [find?, hget] at h
      rw [List.cons_append, find?, hget]
      exact ih h

theorem mem_names_of_get? {e : Entry} (h : d.get? name = some e) : name ∈ d.names := by
  induction d with
  | empty => simp [get?] at h
  | file n content rest ih =>
      rw [get?] at h
      split at h
      next heq => simp [names, heq]
      next => exact List.mem_cons_of_mem n (ih h)
  | sub n entries rest _ ih =>
      rw [get?] at h
      split at h
      next heq => simp [names, heq]
      next => exact List.mem_cons_of_mem n (ih h)

theorem content?_eq_some_iff {content : Bytes} :
    d.content? place = some content ↔ d.find? place = some (.file content) := by
  unfold content?
  cases d.find? place with
  | none => simp
  | some e => cases e <;> simp [Entry.content?]

theorem putAt_cons {entries : Dir} (h : d.get? name = some (.dir entries)) (hne : place ≠ [])
    (e : Entry) : d.putAt e (name :: place) = d.put name (.dir (entries.putAt e place)) := by
  obtain ⟨next, place, rfl⟩ := List.exists_cons_of_ne_nil hne
  rw [putAt, h]

/-- Where no directory is there is at most a file, and nothing below it. -/
theorem content?_cons_of_not_hasDir (h : ¬d.HasDir [name]) (place : List Text) :
    d.content? (name :: place) = if place = [] then d.content? [name] else none := by
  rw [content?_cons, content?_cons]
  cases hget : d.get? name with
  | none => simp
  | some e =>
      cases e with
      | file content => rfl
      | dir entries => exact absurd (hasDir_cons_iff.mpr ⟨entries, hget, hasDir_nil _⟩) h

/-- An entry put into a directory is found there, and every other file is found as before. -/
theorem content?_putAt (hparent : d.HasDir parent) (hplace : ¬d.HasDir (parent ++ [name]))
    {e : Entry} (hbare : ∀ entries, e = .dir entries → entries = .empty) (other : List Text) :
    (d.putAt e (parent ++ [name])).content? other =
      if parent ++ [name] = other then e.content? else d.content? other := by
  induction parent generalizing d other with
  | nil =>
      cases other with
      | nil => simp
      | cons first other =>
          rw [List.nil_append, putAt]
          by_cases hname : name = first
          · subst hname
            rw [content?_cons_of_not_hasDir hplace, content?_cons, get?_put, if_pos rfl]
            cases e with
            | file content => by_cases hother : other = [] <;> simp [hother, Entry.content?]
            | dir entries =>
                -- A directory that is put is empty, so it brings in no file.
                obtain rfl := hbare entries rfl
                cases other with
                | nil => simp [Entry.content?]
                | cons second other => simp [content?_cons, get?]
          · rw [content?_cons, content?_cons, get?_put, if_neg hname, if_neg (by simp [hname])]
  | cons first parent ih =>
      obtain ⟨entries, hget, hparent⟩ := hasDir_cons_iff.mp hparent
      have hplace' : ¬entries.HasDir (parent ++ [name]) := fun h =>
        hplace (hasDir_cons_iff.mpr ⟨entries, hget, h⟩)
      rw [List.cons_append, putAt_cons hget (by simp)]
      cases other with
      | nil => simp
      | cons second other =>
          rw [content?_cons, content?_cons, get?_put]
          by_cases hname : first = second
          · subst hname
            rw [if_pos rfl, hget]
            dsimp only
            rw [ih hparent hplace']
            simp
          · rw [if_neg hname, if_neg (by simp [hname])]

/-- Directories stay directories when an entry is put where none of them is. -/
theorem HasDir.putAt (hother : d.HasDir other) (hparent : d.HasDir parent)
    (hplace : ¬d.HasDir (parent ++ [name])) (e : Entry) :
    (d.putAt e (parent ++ [name])).HasDir other := by
  induction parent generalizing d other with
  | nil =>
      cases other with
      | nil => exact hasDir_nil _
      | cons first other =>
          obtain ⟨entries, hget, hother⟩ := hasDir_cons_iff.mp hother
          have hname : name ≠ first := by
            rintro rfl
            exact hplace (hasDir_cons_iff.mpr ⟨entries, hget, hasDir_nil _⟩)
          refine hasDir_cons_iff.mpr ⟨entries, ?_, hother⟩
          rw [List.nil_append, Dir.putAt, get?_put, if_neg hname, hget]
  | cons first parent ih =>
      obtain ⟨entries, hget, hparent⟩ := hasDir_cons_iff.mp hparent
      have hplace' : ¬entries.HasDir (parent ++ [name]) := fun h =>
        hplace (hasDir_cons_iff.mpr ⟨entries, hget, h⟩)
      rw [List.cons_append, putAt_cons hget (by simp)]
      cases other with
      | nil => exact hasDir_nil _
      | cons second other =>
          obtain ⟨entries', hget', hother⟩ := hasDir_cons_iff.mp hother
          rw [hasDir_cons_iff, get?_put]
          by_cases hname : first = second
          · subst hname
            obtain rfl : entries = entries' := by simpa [hget] using hget'
            exact ⟨_, if_pos rfl, ih hother hparent hplace'⟩
          · exact ⟨entries', by rw [if_neg hname, hget'], hother⟩

end Dir

namespace Disk

/-! ## Directories that stay -/

/-- The working directory is the same, and every directory is still there. -/
structure Grew (d d' : Disk) : Prop where
  cwd : d'.cwd = d.cwd
  dirs : ∀ place, d.root.HasDir place → d'.root.HasDir place

theorem Grew.refl (d : Disk) : d.Grew d := ⟨rfl, fun _ h => h⟩

theorem Grew.trans {d d' d'' : Disk} (h : d.Grew d') (h' : d'.Grew d'') : d.Grew d'' :=
  ⟨h'.cwd.trans h.cwd, fun place hplace => h'.dirs place (h.dirs place hplace)⟩

variable {d d' d'' : Disk} {p : Path} {place q ss : List Text} {s : Text} {root : Dir}

/-- A step is taken in a directory. -/
theorem follow_cons_of_hasDir (h : root.HasDir place) (s : Text) (ss : List Text) :
    follow root place (s :: ss) =
      if s = [] ∨ s = Path.here then follow root place ss
      else if s = Path.up then follow root place.dropLast ss
      else if nameLimit < (Encoding.encodeUtf8 s).length then .error .nameTooLong
      else follow root (place ++ [s]) ss := by
  obtain ⟨entries, hentries⟩ := h
  rw [follow, hentries]

theorem hasDir_of_follow (h : follow root place (s :: ss) = .ok q) : root.HasDir place := by
  rw [follow] at h
  split at h
  · simp at h
  · simp at h
  next entries hentries => exact ⟨entries, hentries⟩

namespace Grew

theorem follow_eq (h : d.Grew d') (hq : follow d.root place ss = .ok q) :
    follow d'.root place ss = .ok q := by
  induction ss generalizing place with
  | nil => exact hq
  | cons s ss ih =>
      have hdir := hasDir_of_follow hq
      rw [follow_cons_of_hasDir hdir] at hq
      rw [follow_cons_of_hasDir (h.dirs place hdir)]
      split at hq
      next hskip =>
        rw [if_pos hskip]
        exact ih hq
      next hskip =>
        rw [if_neg hskip]
        split at hq
        next hup =>
          rw [if_pos hup]
          exact ih hq
        next hup =>
          rw [if_neg hup]
          split at hq
          · simp at hq
          next hlimit =>
            rw [if_neg hlimit]
            exact ih hq

/-- A path goes on leading to its place. -/
theorem locate_eq (h : d.Grew d') (hplace : d.locate p = .ok place) :
    d'.locate p = .ok place := by
  obtain ⟨hobjection, hfollow⟩ := locate_eq_ok_iff.mp hplace
  refine locate_eq_ok_iff.mpr ⟨hobjection, ?_⟩
  rw [h.cwd]
  exact h.follow_eq hfollow

end Grew

/-- A path is read as the file at its place. -/
theorem read_eq_ok_iff {content : Bytes} (hplace : d.locate p = .ok place) :
    d.read p = .ok content ↔ d.root.content? place = some content := by
  rw [Dir.content?_eq_some_iff, read, entry, hplace]
  simp only [Bind.bind, Except.bind]
  cases d.root.find? place with
  | none => simp [throw, throwThe, MonadExceptOf.throw]
  | some e => cases e <;> simp [Pure.pure, Except.pure, throw, throwThe, MonadExceptOf.throw]

/-! ## Making directories and writing files -/

/-- The second disk has the content in the file at the place; other files are as before, and
directories may have been made. -/
structure Put (d : Disk) (place : List Text) (content : Bytes) (d' : Disk) : Prop where
  grew : d.Grew d'
  content : ∀ other, d'.root.content? other =
    if place = other then some content else d.root.content? other

/-- Directories may have been made, and files are as before. -/
structure Widened (d d' : Disk) : Prop where
  grew : d.Grew d'
  content : ∀ place, d'.root.content? place = d.root.content? place

theorem Widened.refl (d : Disk) : d.Widened d := ⟨.refl d, fun _ => rfl⟩

theorem Widened.trans (h : d.Widened d') (h' : d'.Widened d'') : d.Widened d'' :=
  ⟨h.grew.trans h'.grew, fun place => (h'.content place).trans (h.content place)⟩

theorem Widened.put {content : Bytes} (h : d.Widened d') (h' : d'.Put place content d'') :
    d.Put place content d'' :=
  ⟨h.grew.trans h'.grew, fun other => by rw [h'.content, h.content]⟩

/-- The directory and the name that a path is written under are where it leads. -/
theorem locate_of_target {parent : List Text} (h : d.target p = .ok (parent, some s)) :
    d.locate p = .ok (parent ++ [s]) ∧ d.root.HasDir parent := by
  have hobjection : objection? p = none := by
    cases hwhy : objection? p with
    | none => rfl
    | some why => simp [target, hwhy] at h
  unfold target at h
  rw [hobjection] at h
  dsimp only at h
  -- The target follows all parts but the last, and checks that one as following it would.
  cases hfollow : follow d.root (if Path.isAbsolute p then [] else d.cwd)
      (Text.splitOn '/' p).dropLast with
  | error why => simp [hfollow, Bind.bind, Except.bind] at h
  | ok place =>
      simp only [hfollow, Bind.bind, Except.bind] at h
      split at h
      · simp [throw, throwThe, MonadExceptOf.throw] at h
      · simp [throw, throwThe, MonadExceptOf.throw] at h
      next entries hentries =>
        split at h
        · simp [Pure.pure, Except.pure] at h
        next last hlast =>
          split at h
          · simp [Pure.pure, Except.pure] at h
          next hname =>
            split at h
            · simp [throw, throwThe, MonadExceptOf.throw] at h
            next hlimit =>
              obtain ⟨rfl, rfl⟩ : place = parent ∧ last = s := by
                simpa [Pure.pure, Except.pure] using h
              rw [not_or, not_or] at hname
              have hdir : d.root.HasDir place := ⟨entries, hentries⟩
              refine ⟨locate_eq_ok_iff.mpr ⟨hobjection, ?_⟩, hdir⟩
              rw [← List.dropLast_append_getLast? last hlast, follow_append, hfollow]
              dsimp only
              rw [follow_cons_of_hasDir hdir, if_neg (by simp [hname.1, hname.2.1]),
                if_neg hname.2.2, if_neg hlimit, follow]

/-- Whether a file can be written at a path does not depend on its content. -/
theorem write_cases (d : Disk) (p : Path) :
    (∃ why, ∀ content, d.write p content = .error why) ∨
    ∃ place, d.locate p = .ok place ∧
      ∀ content, ∃ d', d.write p content = .ok d' ∧ d.Put place content d' := by
  unfold write
  cases htarget : d.target p with
  | error why => exact .inl ⟨why, fun _ => rfl⟩
  | ok target =>
      obtain ⟨parent, name?⟩ := target
      cases name? with
      | none => exact .inl ⟨.isADirectory, fun _ => rfl⟩
      | some name =>
          obtain ⟨hlocate, hparent⟩ := locate_of_target htarget
          by_cases hdir : d.root.HasDir (parent ++ [name])
          · obtain ⟨entries, hentries⟩ := hdir
            refine .inl ⟨.isADirectory, fun content => ?_⟩
            simp only [Bind.bind, Except.bind, hentries]
            rfl
          · refine .inr ⟨parent ++ [name], hlocate, fun content =>
              ⟨{ d with root := d.root.putAt (.file content) (parent ++ [name]) }, ?_, ?_⟩⟩
            · simp only [Bind.bind, Except.bind]
              split
              next entries hentries => exact absurd ⟨entries, hentries⟩ hdir
              next => rfl
            · exact ⟨⟨rfl, fun place hplace => hplace.putAt hparent hdir _⟩,
                Dir.content?_putAt hparent hdir (by simp)⟩

theorem widened_makeDir (h : d.makeDir p = .ok d') : d.Widened d' := by
  unfold makeDir at h
  cases htarget : d.target p with
  | error why => simp [htarget, Bind.bind, Except.bind] at h
  | ok target =>
      obtain ⟨parent, name?⟩ := target
      cases name? with
      | none => simp [htarget, Bind.bind, Except.bind, throw, throwThe, MonadExceptOf.throw] at h
      | some name =>
          obtain ⟨-, hparent⟩ := locate_of_target htarget
          simp only [htarget, Bind.bind, Except.bind] at h
          split at h
          · simp [throw, throwThe, MonadExceptOf.throw] at h
          next hnone =>
            obtain rfl := Except.ok.inj h
            have hdir : ¬d.root.HasDir (parent ++ [name]) := fun hdir => by
              obtain ⟨entries, hentries⟩ := hdir
              simp [hnone] at hentries
            refine ⟨⟨rfl, fun place hplace => hplace.putAt hparent hdir _⟩, fun place => ?_⟩
            dsimp only
            rw [Dir.content?_putAt hparent hdir (by simp)]
            split
            next heq => rw [← heq, Dir.content?, hnone]; rfl
            next => rfl

/-- Making the directories above a file changes no file, whether it succeeds or not. -/
theorem widened_makeDirs (depth : Nat) (d : Disk) (r : Route) :
    d.Widened (makeDirs depth d r).2 := by
  induction depth generalizing d r with
  | zero =>
      unfold makeDirs
      split
      next hmake => exact widened_makeDir hmake
      · exact .refl d
      · split <;> exact .refl d
  | succ depth ih =>
      have habove := ih d r.parent
      unfold makeDirs
      split
      next hmake => exact widened_makeDir hmake
      · dsimp only
        split
        next hmade =>
          rw [hmade] at habove
          exact habove
        next hmade =>
          rw [hmade] at habove
          split
          next hmake => exact habove.trans (widened_makeDir hmake)
          next => split <;> exact habove
      · split <;> exact .refl d

end Disk

end DocRefs
