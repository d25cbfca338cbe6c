import Mathlib
import DocRefs.Comment.Block
import DocRefs.Proofs.Weave

/-!
# Doc comments and the text around them

The search for doc comments cuts a text into comments and gaps. The main statement is that the cut
is stable: whatever whole doc comments are put in the place of those of a text, the search finds
exactly them, between the same gaps. What keeps a comment whole is that the texts put into it hold
no `*` and do not begin with a slash, so they neither make nor break a closing `*/`.
-/

namespace DocRefs

namespace Text

/-- A first occurrence stays the first when text is added at the end. -/
theorem cut?_append {word t before rest : Text} (more : Text)
    (h : cut? word t = some (before, rest)) :
    cut? word (t ++ more) = some (before, rest ++ more) := by
  induction t generalizing before with
  | nil =>
      by_cases hword : word = []
      · subst hword
        simp only [cut?, List.isEmpty_nil, if_true, Option.some.injEq, Prod.mk.injEq] at h
        obtain ⟨rfl, rfl⟩ := h
        cases more <;> simp [cut?, after?]
      · simp [cut?, hword] at h
  | cons c t ih =>
      unfold cut? at h
      split at h
      next r hr =>
        simp only [Option.some.injEq, Prod.mk.injEq] at h
        obtain ⟨rfl, rfl⟩ := h
        have hafter : after? word (c :: (t ++ more)) = some (r ++ more) := by
          rw [after?_eq_some_iff, ← List.cons_append, after?_eq_some_iff.mp hr, List.append_assoc]
        rw [List.cons_append, cut?, hafter]
      next hnone =>
        obtain ⟨p, hp, hq⟩ := Option.map_eq_some_iff.mp h
        simp only [Prod.mk.injEq] at hq
        obtain ⟨rfl, rfl⟩ := hq
        -- The word stands in the shorter text, so the longer one has no room to begin with it here.
        have hafter : after? word (c :: (t ++ more)) = none := by
          by_contra hsome
          obtain ⟨r, hr⟩ := Option.ne_none_iff_exists'.mp hsome
          have heq := after?_eq_some_iff.mp hr
          have hlength : word.length ≤ (c :: t).length := by
            rw [eq_of_cut? hp]
            simp only [List.length_cons, List.length_append]
            omega
          have hword : word ++ (c :: t).drop word.length = c :: t := by
            have htake := congrArg (List.take word.length) heq
            rw [List.take_left, ← List.cons_append, List.take_append_of_le_length hlength] at htake
            nth_rewrite 1 [← htake]
            exact List.take_append_drop _ _
          rw [after?_eq_some_iff.mpr hword.symm] at hnone
          simp at hnone
        rw [List.cons_append, cut?, hafter, ih hp]
        rfl

end Text

namespace DocComment

/-- The comment as a piece of the text around it. -/
def piece (c : DocComment) : Piece := ⟨c.start, c.stop, c.text⟩

/-- Whether the first `*/` of a text stands at its end. -/
def Closed (t : Text) : Prop := ∃ body, Text.cut? close t = some (body, [])

/-- Whether a text is one doc comment from its first to its last character: it opens with `/**`, is
not the empty comment `/**/`, and the first `*/` behind the opening ends it. -/
def IsWhole (d : Text) : Prop :=
  ∃ t, d = '/' :: '*' :: '*' :: t ∧ t.head? ≠ some '/' ∧ Closed t

theorem after?_close (c : Char) (t rest : Text) :
    Text.after? close (c :: t) = some rest ↔ c = '*' ∧ t = '/' :: rest := by
  rw [Text.after?_eq_some_iff]
  simp [close]

theorem cut?_close_cons (c : Char) (t : Text) :
    Text.cut? close (c :: t) =
      if c = '*' ∧ t.head? = some '/' then some ([], t.tail)
      else (Text.cut? close t).map fun p => (c :: p.1, p.2) := by
  rw [Text.cut?]
  split
  next rest hrest =>
    obtain ⟨rfl, rfl⟩ := (after?_close c t rest).mp hrest
    simp
  next hnone =>
    rw [if_neg]
    rintro ⟨rfl, hhead⟩
    obtain ⟨rest, rfl⟩ := List.head?_eq_some_iff.mp hhead
    rw [(after?_close '*' ('/' :: rest) rest).mpr ⟨rfl, rfl⟩] at hnone
    simp at hnone

/-- Behind a text that holds no `*/` of its own, and in front of one that does not begin with a
slash, the end of the whole decides. -/
theorem closed_append_iff {front t : Text} (hne : t ≠ []) (hhead : t.head? ≠ some '/') :
    Closed (front ++ t) ↔ Text.cut? close front = none ∧ Closed t := by
  induction front with
  | nil => simp [Text.cut?, close]
  | cons c front ih =>
      have hheads : (front ++ t).head? = some '/' ↔ front.head? = some '/' := by
        cases front with
        | nil => simp [hhead]
        | cons d front => simp
      unfold Closed at ih ⊢
      rw [List.cons_append, cut?_close_cons, cut?_close_cons]
      by_cases hclose : c = '*' ∧ front.head? = some '/'
      · rw [if_pos ⟨hclose.1, hheads.mpr hclose.2⟩, if_pos hclose]
        obtain ⟨rest, rfl⟩ := List.head?_eq_some_iff.mp hclose.2
        simp [hne]
      · rw [if_neg (by rw [hheads]; exact hclose), if_neg hclose]
        simpa using ih

theorem closed_append_of_notMem {front t : Text} (hstar : '*' ∉ front) :
    Closed (front ++ t) ↔ Closed t := by
  induction front with
  | nil => rfl
  | cons c front ih =>
      rw [List.mem_cons, not_or] at hstar
      rw [← ih hstar.2]
      unfold Closed
      rw [List.cons_append, cut?_close_cons, if_neg fun h => hstar.1 h.1.symm]
      simp

/-- A text that can stand anywhere in a comment without making or breaking its closing. -/
structure Inert (t : Text) : Prop where
  ne_nil : t ≠ []
  head_ne : t.head? ≠ some '/'
  star_notMem : '*' ∉ t

section Weave

variable {ι : Type} {offset : Nat} {t : Text} {xs : List ι} {piece : ι → Piece} {new : ι → Text}

theorem head?_weave_ne (htile : Piece.Tile offset t (xs.map piece))
    (hnew : ∀ x ∈ xs, Inert (new x)) (hhead : t.head? ≠ some '/') :
    (Text.weave (Piece.gaps offset t (xs.map piece)) (xs.map new)).head? ≠ some '/' := by
  cases xs with
  | nil => exact hhead
  | cons x xs =>
      obtain ⟨gap, rest, rfl, hstart, hstop, hrest⟩ := htile
      rw [List.map_cons, List.map_cons, Piece.gaps_cons _ hstart hstop, Text.weave]
      have hx := hnew x List.mem_cons_self
      obtain ⟨c, u, hcu⟩ := List.exists_cons_of_ne_nil hx.ne_nil
      have hc := hx.head_ne
      rw [hcu] at hc ⊢
      cases gap with
      | nil => simpa using hc
      | cons d gap => simpa using hhead

/-- Exchanging inert pieces for inert texts keeps the closing at the end. -/
theorem closed_weave (htile : Piece.Tile offset t (xs.map piece))
    (hold : ∀ x ∈ xs, Inert (piece x).text) (hnew : ∀ x ∈ xs, Inert (new x)) (ht : Closed t) :
    Closed (Text.weave (Piece.gaps offset t (xs.map piece)) (xs.map new)) := by
  induction xs generalizing offset t with
  | nil => exact ht
  | cons x xs ih =>
      obtain ⟨gap, rest, rfl, hstart, hstop, hrest⟩ := htile
      have hx := hold x List.mem_cons_self
      have hx' := hnew x List.mem_cons_self
      have hfront : ∀ {u v : Text}, Inert u → u ++ v ≠ [] ∧ (u ++ v).head? ≠ some '/' := by
        intro u v hu
        obtain ⟨c, u, rfl⟩ := List.exists_cons_of_ne_nil hu.ne_nil
        exact ⟨by simp, by simpa using hu.head_ne⟩
      -- No closing crosses the border in front of a piece, and none lies in it.
      obtain ⟨hgap, htail⟩ := (closed_append_iff (hfront hx).1 (hfront hx).2).mp ht
      have hclosed := ih hrest (fun y hy => hold y (List.mem_cons_of_mem x hy))
        (fun y hy => hnew y (List.mem_cons_of_mem x hy))
        ((closed_append_of_notMem hx.star_notMem).mp htail)
      rw [List.map_cons, List.map_cons, Piece.gaps_cons _ hstart hstop, Text.weave,
        closed_append_iff (hfront hx').1 (hfront hx').2, closed_append_of_notMem hx'.star_notMem]
      exact ⟨hgap, hclosed⟩

/-- A whole doc comment stays whole when inert pieces behind its opening are exchanged for inert
texts. -/
theorem isWhole_weave (htile : Piece.Tile 3 t (xs.map piece))
    (hold : ∀ x ∈ xs, Inert (piece x).text) (hnew : ∀ x ∈ xs, Inert (new x))
    (hwhole : IsWhole ('/' :: '*' :: '*' :: t)) :
    IsWhole (Text.weave (Piece.gaps 0 ('/' :: '*' :: '*' :: t) (xs.map piece)) (xs.map new)) := by
  obtain ⟨t', heq, hhead, hclosed⟩ := hwhole
  simp only [List.cons.injEq, true_and] at heq
  subst heq
  refine ⟨_, Piece.weave_gaps_skip ['/', '*', '*'] htile _, ?_, ?_⟩
  · exact head?_weave_ne htile hnew hhead
  · exact closed_weave htile hold hnew hclosed

end Weave

/-! ## The search -/

theorem scanFrom_append_of_isWhole {d : Text} (hd : IsWhole d) (offset : Nat) (t : Text) :
    scanFrom offset (d ++ t) =
      ⟨offset, offset + d.length, d⟩ :: scanFrom (offset + d.length) t := by
  obtain ⟨u, rfl, hhead, body, hbody⟩ := hd
  have hu : u = body ++ close := by simpa using Text.eq_of_cut? hbody
  have hcut := Text.cut?_append t hbody
  rw [List.cons_append, List.cons_append, List.cons_append, scanFrom]
  · split
    next hnone => simp [hnone] at hcut
    next body' after hsome =>
      rw [hsome] at hcut
      simp only [Option.some.injEq, Prod.mk.injEq, List.nil_append] at hcut
      obtain ⟨rfl, rfl⟩ := hcut
      simp [hu]
  · intro rest hrest
    apply hhead
    cases u with
    | nil => simp [Text.cut?, close] at hbody
    | cons c u =>
        rw [List.cons_append, List.cons.injEq] at hrest
        rw [hrest.1, List.head?_cons]

theorem scanFrom_cons {c : Char} {t : Text} (h : ¬(c = '/' ∧ t.take 2 = ['*', '*']))
    (offset : Nat) : scanFrom offset (c :: t) = scanFrom (offset + 1) t := by
  rw [scanFrom]
  · rintro rest rfl rfl
    exact h ⟨rfl, rfl⟩
  · rintro rest rfl rfl
    exact h ⟨rfl, rfl⟩

/-- The comments found are pieces of the text. -/
theorem tile_scanFrom (offset : Nat) (t : Text) :
    Piece.Tile offset t ((scanFrom offset t).map piece) := by
  fun_induction scanFrom offset t with
  | case1 => trivial
  | case2 offset rest ih =>
      rw [show '/' :: '*' :: '*' :: '/' :: rest = ['/', '*', '*', '/'] ++ rest from rfl]
      exact ih.skip
  | case3 => trivial
  | case4 offset rest _ body after hcut _ text ih =>
      refine ⟨[], after, ?_, rfl, rfl, ih⟩
      simp [piece, text, Text.eq_of_cut? hcut]
  | case5 offset c rest _ _ ih =>
      rw [← List.singleton_append]
      exact ih.skip

/-- The comments of a text are in order and apart. -/
theorem pairwise_scan (t : Text) : (scan t).Pairwise fun c c' => c.stop ≤ c'.start :=
  List.pairwise_map.mp (tile_scanFrom 0 t).pairwise

/-- The first occurrence in a text is the first in the text up to its end. -/
theorem cut?_close_body {t body after : Text} (h : Text.cut? close t = some (body, after)) :
    Text.cut? close (body ++ close) = some (body, []) := by
  induction t generalizing body with
  | nil => simp [Text.cut?, close] at h
  | cons c t ih =>
      rw [cut?_close_cons] at h
      split at h
      next hclose =>
        simp only [Option.some.injEq, Prod.mk.injEq] at h
        obtain ⟨rfl, rfl⟩ := h
        rfl
      next hclose =>
        obtain ⟨⟨body', after'⟩, hp, hq⟩ := Option.map_eq_some_iff.mp h
        simp only [Prod.mk.injEq] at hq
        obtain ⟨rfl, rfl⟩ := hq
        rw [List.cons_append, cut?_close_cons, ih hp, if_neg]
        · rfl
        · rintro ⟨rfl, hhead⟩
          apply hclose
          refine ⟨rfl, ?_⟩
          rw [Text.eq_of_cut? hp]
          cases body' with
          | nil => simp [close] at hhead
          | cons d body' => simpa using hhead

/-- An opening and what stands behind it up to the first closing are a whole comment. -/
theorem isWhole_of_cut? {rest body after : Text} (hslash : ∀ u, rest ≠ '/' :: u)
    (hcut : Text.cut? close rest = some (body, after)) :
    IsWhole ('/' :: '*' :: '*' :: (body ++ close)) := by
  refine ⟨body ++ close, rfl, ?_, ?_⟩
  · intro hhead
    obtain ⟨tail, htail⟩ := List.head?_eq_some_iff.mp hhead
    apply hslash (tail ++ after)
    rw [Text.eq_of_cut? hcut, htail, List.cons_append]
  · exact ⟨body, cut?_close_body hcut⟩

/-- Every comment found is whole. -/
theorem isWhole_of_mem_scanFrom {offset : Nat} {t : Text} {c : DocComment}
    (hc : c ∈ scanFrom offset t) : IsWhole c.text := by
  fun_induction scanFrom offset t with
  | case1 => simp at hc
  | case2 offset rest ih => exact ih hc
  | case3 => simp at hc
  | case4 offset rest hslash body after hcut _ text ih =>
      rcases List.mem_cons.mp hc with rfl | hc
      · exact isWhole_of_cut? hslash hcut
      · exact ih hc
  | case5 offset c rest _ _ ih => exact ih hc

/-! ## Exchanging comments -/

/-- Between whole comments no opening arises that was not there before. -/
theorem take_two_of_weave {offset : Nat} {t : Text} {cs : List DocComment} {ds : List Text}
    (htile : Piece.Tile offset t (cs.map piece)) (hds : ∀ d ∈ ds, IsWhole d)
    (hlength : ds.length = cs.length)
    (h : (Text.weave (Piece.gaps offset t (cs.map piece)) ds).take 2 = ['*', '*']) :
    t.take 2 = ['*', '*'] := by
  cases cs with
  | nil =>
      obtain rfl := List.length_eq_zero_iff.mp hlength
      exact h
  | cons c cs =>
      cases ds with
      | nil => simp at hlength
      | cons d ds =>
          obtain ⟨gap, rest, rfl, hstart, hstop, -⟩ := htile
          obtain ⟨u, rfl, -⟩ := hds _ List.mem_cons_self
          rw [List.map_cons, Piece.gaps_cons _ hstart hstop, Text.weave] at h
          cases gap with
          | nil => simp at h
          | cons g gap =>
              cases gap with
              | nil => simp at h
              | cons g' gap => simpa using h

/-- Whether the search cuts a text into these gaps and comments, wherever the text stands. -/
def Splits (t : Text) (gaps ds : List Text) : Prop :=
  ∀ offset, (scanFrom offset t).map DocComment.text = ds ∧
    Piece.gaps offset t ((scanFrom offset t).map piece) = gaps

namespace Splits

variable {t d : Text} {c : Char} {gaps ds : List Text}

/-- The empty comment belongs to the gap. -/
theorem block (h : Splits t gaps ds) :
    Splits ('/' :: '*' :: '*' :: '/' :: t) (gaps.modifyHead (['/', '*', '*', '/'] ++ ·)) ds := by
  intro offset
  obtain ⟨htexts, hgaps⟩ := h (offset + 4)
  rw [scanFrom]
  refine ⟨htexts, ?_⟩
  rw [← hgaps]
  exact Piece.gaps_skip ['/', '*', '*', '/'] (tile_scanFrom _ t)

theorem char (hc : ¬(c = '/' ∧ t.take 2 = ['*', '*'])) (h : Splits t gaps ds) :
    Splits (c :: t) (gaps.modifyHead ([c] ++ ·)) ds := by
  intro offset
  obtain ⟨htexts, hgaps⟩ := h (offset + 1)
  rw [scanFrom_cons hc]
  refine ⟨htexts, ?_⟩
  rw [← hgaps]
  exact Piece.gaps_skip [c] (tile_scanFrom _ t)

theorem comment (hd : IsWhole d) (h : Splits t gaps ds) :
    Splits (d ++ t) ([] :: gaps) (d :: ds) := by
  intro offset
  obtain ⟨htexts, hgaps⟩ := h (offset + d.length)
  rw [scanFrom_append_of_isWhole hd]
  refine ⟨congrArg (d :: ·) htexts, ?_⟩
  rw [← hgaps]
  exact Piece.gaps_cons_self offset d t _

/-- An opening that is never closed ends the search. -/
theorem unclosed (hhead : ∀ u, t ≠ '/' :: u) (hcut : Text.cut? close t = none) :
    Splits ('/' :: '*' :: '*' :: t) ['/' :: '*' :: '*' :: t] [] := by
  intro offset
  have hscan : scanFrom offset ('/' :: '*' :: '*' :: t) = [] := by
    rw [scanFrom]
    · split
      · rfl
      next hsome => simp [hcut] at hsome
    · exact hhead
  rw [hscan]
  exact ⟨rfl, rfl⟩

theorem nil : Splits [] [[]] [] := fun offset => by simp [scanFrom, Piece.gaps]

end Splits

/-- Whole comments put in the place of those of a text are the comments of the new text, between
the gaps of the old one. -/
theorem splits_weave {offset : Nat} {t : Text} {ds : List Text} (hds : ∀ d ∈ ds, IsWhole d)
    (hlength : ds.length = (scanFrom offset t).length) :
    Splits (Text.weave (Piece.gaps offset t ((scanFrom offset t).map piece)) ds)
      (Piece.gaps offset t ((scanFrom offset t).map piece)) ds := by
  fun_induction scanFrom offset t generalizing ds with
  | case1 offset =>
      obtain rfl := List.length_eq_zero_iff.mp hlength
      exact Splits.nil
  | case2 offset rest ih =>
      have hgaps : Piece.gaps offset ('/' :: '*' :: '*' :: '/' :: rest)
          ((scanFrom (offset + 4) rest).map piece) = _ :=
        Piece.gaps_skip ['/', '*', '*', '/'] (tile_scanFrom _ rest)
      rw [hgaps, Text.weave_modifyHead _ (Piece.gaps_ne_nil _ _ _)]
      exact (ih hds hlength).block
  | case3 offset rest hslash hcut =>
      obtain rfl := List.length_eq_zero_iff.mp hlength
      exact Splits.unclosed hslash hcut
  | case4 offset rest _ body after hcut _ text =>
      rename_i ih
      have hrest : '/' :: '*' :: '*' :: rest = text ++ after := by
        simp [text, Text.eq_of_cut? hcut]
      have hgaps : Piece.gaps offset (text ++ after) (piece ⟨offset, offset + text.length, text⟩ ::
          (scanFrom (offset + text.length) after).map piece) = _ :=
        Piece.gaps_cons_self offset text after _
      cases ds with
      | nil => simp at hlength
      | cons d ds =>
          rw [hrest, List.map_cons, hgaps, Text.weave]
          refine Splits.comment (hds d List.mem_cons_self) (ih ?_ (by simpa using hlength))
          exact fun e he => hds e (List.mem_cons_of_mem d he)
  | case5 offset c rest _ hopen ih =>
      have hgaps : Piece.gaps offset (c :: rest) ((scanFrom (offset + 1) rest).map piece) = _ :=
        Piece.gaps_skip [c] (tile_scanFrom _ rest)
      rw [hgaps, Text.weave_modifyHead _ (Piece.gaps_ne_nil _ _ _)]
      refine Splits.char ?_ (ih hds hlength)
      -- A comment that opens here in the new text would have opened here in the old one.
      rintro ⟨rfl, htake⟩
      have hrest := take_two_of_weave (tile_scanFrom _ rest) hds hlength htake
      apply hopen (rest.drop 2) rfl
      rw [← List.take_append_drop 2 rest, hrest]
      rfl

end DocComment

end DocRefs
