import Mathlib
import DocRefs.Proofs.Rewriting

/-!
# Qualifying inserts marks

Qualifying a word puts a mark in front of it and changes nothing else. So the comments of a text are
qualified by inserting the mark at certain places, and every such place is the start of a bare word.
-/

namespace DocRefs

namespace Text

/-- The text, which stands at an offset, with `mark` in front of every marked character. -/
def insertAt (mark : Text) (marked : Nat → Bool) : Nat → Text → Text
  | _, [] => []
  | k, c :: t => (if marked k then mark else []) ++ c :: insertAt mark marked (k + 1) t

/-- Whether `mark` was put in front of some characters of a text. -/
inductive Inserts (mark : Text) : Text → Text → Prop
  | nil : Inserts mark [] []
  | keep {t u : Text} (c : Char) (h : Inserts mark t u) : Inserts mark (c :: t) (c :: u)
  | insert {t u : Text} (c : Char) (h : Inserts mark t u) : Inserts mark (c :: t) (mark ++ c :: u)

variable {mark : Text} {marked : Nat → Bool}

theorem inserts_insertAt (k : Nat) (t : Text) : Inserts mark t (insertAt mark marked k t) := by
  induction t generalizing k with
  | nil => exact .nil
  | cons c t ih =>
      rw [insertAt]
      split
      · exact .insert c (ih (k + 1))
      · exact .keep c (ih (k + 1))

theorem insertAt_append (k : Nat) (t u : Text) :
    insertAt mark marked k (t ++ u) =
      insertAt mark marked k t ++ insertAt mark marked (k + t.length) u := by
  induction t generalizing k with
  | nil => rfl
  | cons c t ih =>
      rw [List.cons_append, insertAt, insertAt, ih, List.length_cons,
        show k + 1 + t.length = k + (t.length + 1) by omega]
      simp

theorem insertAt_congr {marked' : Nat → Bool} {k : Nat} {t : Text}
    (h : ∀ i, k ≤ i → marked i = marked' i) :
    insertAt mark marked k t = insertAt mark marked' k t := by
  induction t generalizing k with
  | nil => rfl
  | cons c t ih =>
      rw [insertAt, insertAt, h k (Nat.le_refl k), ih fun i hi => h i (by omega)]

/-- Nothing is put into a text without a marked character. -/
theorem insertAt_of_unmarked {k : Nat} {t : Text}
    (h : ∀ i, k ≤ i → i < k + t.length → marked i = false) : insertAt mark marked k t = t := by
  induction t generalizing k with
  | nil => rfl
  | cons c t ih =>
      rw [List.length_cons] at h
      rw [insertAt, h k (Nat.le_refl k) (by omega), ih fun i hi hlt => h i (by omega) (by omega)]
      simp

end Text

namespace Piece

/-- Whether one of the selected pieces begins at a place. -/
def beginsAt {ι : Type} (piece : ι → Piece) (selected : ι → Bool) (xs : List ι) (k : Nat) : Bool :=
  xs.any fun x => selected x && (piece x).start == k

section Begins

variable {ι : Type} {piece : ι → Piece} {selected : ι → Bool} {xs : List ι} {k : Nat}

theorem beginsAt_of_lt (h : ∀ x ∈ xs, k < (piece x).start) :
    beginsAt piece selected xs k = false := by
  rw [beginsAt, List.any_eq_false]
  intro x hx
  have hlt := h x hx
  simp only [Bool.and_eq_true, beq_iff_eq, not_and]
  omega

theorem beginsAt_cons_of_ne {x : ι} (h : (piece x).start ≠ k) :
    beginsAt piece selected (x :: xs) k = beginsAt piece selected xs k := by
  rw [beginsAt, List.any_cons, beq_eq_false_iff_ne.mpr h, Bool.and_false, Bool.false_or, beginsAt]

theorem beginsAt_cons_self {x : ι} (h : ∀ y ∈ xs, (piece x).start < (piece y).start) :
    beginsAt piece selected (x :: xs) (piece x).start = selected x := by
  have hrest : beginsAt piece selected xs (piece x).start = false := beginsAt_of_lt h
  rw [beginsAt] at hrest
  rw [beginsAt, List.any_cons, hrest, beq_self_eq_true, Bool.and_true, Bool.or_false]

end Begins

/-- Weaving a mark in front of selected pieces inserts it where these begin. -/
theorem weave_eq_insertAt {ι : Type} {offset : Nat} {t : Text} {xs : List ι} {piece : ι → Piece}
    (mark : Text) (selected : ι → Bool) (h : Tile offset t (xs.map piece))
    (hne : ∀ x ∈ xs, (piece x).text ≠ []) :
    Text.weave (gaps offset t (xs.map piece))
        (xs.map fun x => (if selected x then mark else []) ++ (piece x).text) =
      Text.insertAt mark (beginsAt piece selected xs) offset t := by
  induction xs generalizing offset t with
  | nil =>
      symm
      apply Text.insertAt_of_unmarked
      simp [beginsAt]
  | cons x xs ih =>
      obtain ⟨gap, rest, rfl, hstart, hstop, hrest⟩ := h
      have hxs : ∀ y ∈ xs, (piece x).stop ≤ (piece y).start :=
        fun y hy => (hrest.le_start (List.mem_map_of_mem hy)).1
      obtain ⟨c, u, hcu⟩ := List.exists_cons_of_ne_nil (hne x List.mem_cons_self)
      have hlength : (piece x).text.length = u.length + 1 := by rw [hcu, List.length_cons]
      -- Up to the end of the first piece, a mark is put in only where this piece begins.
      have hbefore : ∀ i, i < (piece x).stop → (piece x).start ≠ i →
          beginsAt piece selected (x :: xs) i = false := by
        intro i hi hstart
        rw [beginsAt_cons_of_ne hstart]
        exact beginsAt_of_lt fun y hy => Nat.lt_of_lt_of_le hi (hxs y hy)
      have hgap : Text.insertAt mark (beginsAt piece selected (x :: xs)) offset gap = gap := by
        apply Text.insertAt_of_unmarked
        intro i _ hi
        exact hbefore i (by omega) (by omega)
      have htext : Text.insertAt mark (beginsAt piece selected (x :: xs)) (piece x).start
          (piece x).text = (if selected x then mark else []) ++ (piece x).text := by
        rw [hcu, Text.insertAt, beginsAt_cons_self, Text.insertAt_of_unmarked]
        · intro i hle hi
          exact hbefore i (by omega) (by omega)
        · intro y hy
          have hle := hxs y hy
          omega
      have htail : Text.insertAt mark (beginsAt piece selected (x :: xs)) (piece x).stop rest =
          Text.insertAt mark (beginsAt piece selected xs) (piece x).stop rest := by
        apply Text.insertAt_congr
        intro i hi
        exact beginsAt_cons_of_ne (by omega)
      rw [List.map_cons, List.map_cons, gaps_cons _ hstart hstop, Text.weave,
        ih hrest fun y hy => hne y (List.mem_cons_of_mem x hy), Text.insertAt_append, hgap,
        ← hstart, Text.insertAt_append, htext, ← hstop, htail]

end Piece

/-! ## Marks in comments -/

/-- What qualifying puts in front of a word. -/
def wordMark (id : Text) : Text := moduleMark ++ id ++ ['~']

theorem moduleReference_eq {name : Text} (hname : name ≠ []) (id : Text) :
    moduleReference id (some name) = wordMark id ++ name := by
  rw [moduleReference_some hname, wordMark]
  simp

/-- A word keeps its text behind the mark that it may get. -/
theorem getD_qualifiedWord? (id : Text) (names : List Text) {w : TypeWord} (hw : w.token ≠ []) :
    (qualifiedWord? id names w).getD w.token =
      (if names.contains w.token then wordMark id else []) ++ w.token := by
  unfold qualifiedWord?
  split
  · exact moduleReference_eq hw id
  · rfl

/-- Whether qualifying the comments of a text puts a mark at a place. -/
def isMarked (names : List Text) (t : Text) : Nat → Bool :=
  Piece.beginsAt (fun r : Nat × TypeWord => r.2.piece.shift r.1)
    (fun r => names.contains r.2.token) (inComments (slotWords 0) t)

theorem mapComments_qualifiedComment (id : Text) (names : List Text) (t : Text) :
    mapComments (qualifiedComment id names) t =
      Text.insertAt (wordMark id) (isMarked names t) 0 t := by
  have hword : ∀ r ∈ inComments (slotWords 0) t, IsDotted r.2.token := by
    intro r hr
    obtain ⟨c, -, hr⟩ := List.mem_flatMap.mp hr
    obtain ⟨w, hw, rfl⟩ := List.mem_map.mp hr
    exact isDotted_of_mem_slotWords hw
  have hweave := weave_inComments (tile_slotWords 0)
    (fun w => (qualifiedWord? id names w).getD w.token) t
  have hinsert := Piece.weave_eq_insertAt (wordMark id)
    (fun r : Nat × TypeWord => names.contains r.2.token)
    (tile_inComments (tile_slotWords 0) t) fun r hr => (hword r hr).1
  refine hweave.symm.trans (Eq.trans ?_ hinsert)
  congr 1
  exact List.map_congr_left fun r hr => getD_qualifiedWord? id names (hword r hr).1

/-- A marked place is the start of a bare word that is among the names. -/
theorem bare_of_isMarked {names : List Text} {t : Text} {k : Nat} (h : isMarked names t k = true) :
    ∃ pre name post, t = pre ++ (name ++ post) ∧ pre.length = k ∧ name ∈ names ∧
      Bare pre name post := by
  obtain ⟨r, hr, hmarked⟩ := List.any_eq_true.mp h
  rw [Bool.and_eq_true, List.contains_iff_mem, beq_iff_eq] at hmarked
  obtain ⟨hname, hstart⟩ := hmarked
  obtain ⟨c, hc, hr⟩ := List.mem_flatMap.mp hr
  obtain ⟨w, hw, rfl⟩ := List.mem_map.mp hr
  obtain ⟨front, rest, ht, hfront, -⟩ :=
    (DocComment.tile_scanFrom 0 t).exists_of_mem (List.mem_map_of_mem hc)
  obtain ⟨pre, post, hcomment, hpre, hbare⟩ := bare_of_mem_slotWords hw
  refine ⟨front ++ pre, w.token, post ++ rest, ?_, ?_, hname, hbare front rest⟩
  · rw [ht]
    simp [DocComment.piece, hcomment]
  · rw [← hstart, List.length_append]
    simp only [DocComment.piece] at hfront
    simp only [Piece.shift, TypeWord.piece]
    omega

end DocRefs
