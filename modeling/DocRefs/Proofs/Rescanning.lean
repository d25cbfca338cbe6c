import Mathlib
import DocRefs.Proofs.Comments

/-!
# Searching a text again

The comments of a text can be replaced by any others. The main statement is that the search in the
new text finds exactly the new comments, each where the gaps and comments in front of it end,
whatever the gaps hold: no border between a gap and a comment makes or hides an opening.
-/

namespace DocRefs

theorem Text.after?_eq_none_iff {word t : Text} : after? word t = none ↔ ¬word <+: t := by
  constructor
  · rintro hnone ⟨rest, rfl⟩
    rw [after?_eq_some_iff.mpr rfl] at hnone
    simp at hnone
  · intro hnot
    by_contra hsome
    obtain ⟨rest, hrest⟩ := Option.ne_none_iff_exists'.mp hsome
    exact hnot ⟨rest, (after?_eq_some_iff.mp hrest).symm⟩

/-- The first occurrence of a word is the one that stands at the least offset. -/
theorem Text.cut?_eq_some_iff {word t before rest : Text} (hword : word ≠ []) :
    cut? word t = some (before, rest) ↔
      t = before ++ word ++ rest ∧ ∀ k < before.length, ¬word <+: t.drop k := by
  induction t generalizing before with
  | nil => simp [cut?, hword]
  | cons c t ih =>
      rw [cut?]
      split
      next r hr =>
        have hfront : c :: t = word ++ r := after?_eq_some_iff.mp hr
        constructor
        · intro heq
          obtain ⟨rfl, rfl⟩ := Prod.mk.inj (Option.some.inj heq)
          exact ⟨by simpa using hfront, by simp⟩
        · rintro ⟨hsplit, hleast⟩
          obtain rfl : before = [] := by
            by_contra hne
            exact hleast 0 (List.length_pos_iff.mpr hne) ⟨r, hfront.symm⟩
          rw [List.nil_append, hfront, List.append_cancel_left_eq] at hsplit
          rw [hsplit]
      next hnone =>
        have hfront : ¬word <+: c :: t := after?_eq_none_iff.mp hnone
        cases before with
        | nil =>
            refine iff_of_false (by simp) ?_
            rintro ⟨hsplit, -⟩
            exact hfront ⟨rest, by simpa using hsplit.symm⟩
        | cons d before =>
            -- The word does not stand at the front, so only the offsets behind it count.
            have hshift : (∀ k < (d :: before).length, ¬word <+: (c :: t).drop k) ↔
                ∀ k < before.length, ¬word <+: t.drop k := by
              rw [List.length_cons]
              constructor
              · intro h k hk
                exact h (k + 1) (by omega)
              · intro h k hk
                cases k with
                | zero => exact hfront
                | succ k => exact h k (by omega)
            rw [hshift, List.cons_append, List.cons_append, List.cons.injEq, and_assoc, ← ih]
            cases cut? word t with
            | none => simp
            | some p => simp [Prod.ext_iff, and_assoc]

namespace DocComment

/-! ## Texts that are one comment -/

/-- A text is one doc comment from end to end: it opens with `/**` and not with `/**/`, and the
first `*/` behind the opening is its last two characters. -/
structure IsComplete (d : Text) : Prop where
  opens : ['/', '*', '*'] <+: d
  not_block : ¬['/', '*', '*', '/'] <+: d
  closes : ∃ k, 3 ≤ k ∧ k + 2 = d.length ∧ close <+: d.drop k ∧
    ∀ j, 3 ≤ j → j < k → ¬close <+: d.drop j

theorem closed_iff {t : Text} :
    Closed t ↔ ∃ k, k + 2 = t.length ∧ close <+: t.drop k ∧ ∀ j < k, ¬close <+: t.drop j := by
  unfold Closed
  simp only [Text.cut?_eq_some_iff (show close ≠ [] by decide), List.append_nil]
  constructor
  · rintro ⟨body, rfl, hleast⟩
    exact ⟨body.length, by simp [close], by simp, hleast⟩
  · rintro ⟨k, hlength, hclose, hleast⟩
    have hend : close = t.drop k := by
      apply hclose.eq_of_length
      rw [List.length_drop, ← hlength, Nat.add_sub_cancel_left]
      rfl
    have htake : (t.take k).length = k := List.length_take_of_le (by omega)
    refine ⟨t.take k, ?_, ?_⟩
    · rw [hend, List.take_append_drop]
    · rwa [htake]

/-- The two descriptions agree: behind the opening, offsets count from three on. -/
theorem isComplete_iff {d : Text} : IsComplete d ↔ IsWhole d := by
  have hhead : ∀ t : Text, ['/', '*', '*', '/'] <+: '/' :: '*' :: '*' :: t ↔
      t.head? = some '/' := by
    intro t
    rw [List.head?_eq_some_iff]
    simp [List.IsPrefix, eq_comm]
  have hbehind : ∀ (t : Text) (k : Nat), ('/' :: '*' :: '*' :: t).drop (k + 3) = t.drop k :=
    fun _ _ => rfl
  constructor
  · rintro ⟨⟨t, rfl⟩, hblock, k, hk, hlength, hclose, hleast⟩
    obtain ⟨k, rfl⟩ := Nat.exists_eq_add_of_le' hk
    refine ⟨t, rfl, (hhead t).not.mp hblock, closed_iff.mpr ⟨k, ?_, hclose, fun j hj => ?_⟩⟩
    · simp only [List.cons_append, List.nil_append, List.length_cons] at hlength
      omega
    · exact hleast (j + 3) (by omega) (by omega)
  · rintro ⟨t, rfl, hblock, hclosed⟩
    obtain ⟨k, hlength, hclose, hleast⟩ := closed_iff.mp hclosed
    refine ⟨⟨t, rfl⟩, (hhead t).not.mpr hblock, k + 3, by omega, ?_, hclose, fun j hj hlt => ?_⟩
    · simp only [List.length_cons]
      omega
    · obtain ⟨j, rfl⟩ := Nat.exists_eq_add_of_le' hj
      rw [hbehind]
      exact hleast j (by omega)

end DocComment

/-! ## Where woven pieces stand -/

namespace Piece

/-- The pieces of a woven text: each begins behind the gaps and pieces in front of it. -/
def placed (offset : Nat) (gaps pieces : List Text) : List Piece :=
  pieces.mapIdx fun i d =>
    let start := offset + (Text.weave (gaps.take (i + 1)) (pieces.take i)).length
    ⟨start, start + d.length, d⟩

theorem placed_cons (offset : Nat) (gap d : Text) (gaps ds : List Text) :
    placed offset (gap :: gaps) (d :: ds) =
      ⟨offset + gap.length, offset + gap.length + d.length, d⟩ ::
        placed (offset + gap.length + d.length) gaps ds := by
  have hstart : ∀ i, offset + (Text.weave ((gap :: gaps).take (i + 2))
      ((d :: ds).take (i + 1))).length =
      offset + gap.length + d.length + (Text.weave (gaps.take (i + 1)) (ds.take i)).length := by
    intro i
    rw [List.take_succ_cons, List.take_succ_cons, Text.weave, List.length_append,
      List.length_append]
    omega
  unfold placed
  rw [List.mapIdx_cons]
  simp only [hstart]
  rfl

/-- There is one gap more than pieces. -/
theorem length_gaps (offset : Nat) (t : Text) (ps : List Piece) :
    (gaps offset t ps).length = ps.length + 1 := by
  induction ps generalizing offset t with
  | nil => rfl
  | cons p ps ih => rw [gaps, List.length_cons, ih, List.length_cons]

/-- Pieces in their order stand where their texts and the gaps put them. -/
theorem Tile.eq_placed {offset : Nat} {t : Text} {ps : List Piece} (h : Tile offset t ps) :
    ps = placed offset (gaps offset t ps) (ps.map Piece.text) := by
  induction ps generalizing offset t with
  | nil => rfl
  | cons p ps ih =>
      obtain ⟨gap, rest, rfl, hstart, hstop, hrest⟩ := h
      rw [List.map_cons, gaps_cons ps hstart hstop, placed_cons, ← hstart, ← hstop, ← ih hrest]

end Piece

namespace DocComment

/-- Splicing a text for every comment weaves them with the gaps around the comments. -/
theorem splice_zipWith (t : Text) {ds : List Text} (hlength : ds.length = (scan t).length) :
    Replacement.splice t (List.zipWith (fun c d => ⟨c.start, c.stop, d⟩) (scan t) ds) =
      Text.weave (Piece.gaps 0 t ((scan t).map piece)) ds := by
  have hfst : ((scan t).zip ds).map Prod.fst = scan t := List.map_fst_zip (by omega)
  have hsnd : ((scan t).zip ds).map Prod.snd = ds := List.map_snd_zip (by omega)
  have hpieces : ((scan t).zip ds).map (fun x => piece x.1) = (scan t).map piece := by
    nth_rewrite 2 [← hfst]
    rw [List.map_map]
    rfl
  have htile : Piece.Tile 0 t (((scan t).zip ds).map fun x => piece x.1) := by
    rw [hpieces]
    exact tile_scanFrom 0 t
  have hne : ∀ x ∈ (scan t).zip ds, (piece x.1).text ≠ [] := by
    intro x hx
    obtain ⟨u, hu, -⟩ := isWhole_of_mem_scanFrom (List.of_mem_zip hx).1
    simp [piece, hu]
  have hsplice := Replacement.splice_tile htile hne fun x => some x.2
  simp only [hpieces, Option.map_some, List.filterMap_eq_map', Option.getD_some, hsnd] at hsplice
  rw [← hsplice, ← List.map_uncurry_zip_eq_zipWith]
  rfl

/-- **Replacing and searching again.** The search cuts a text into gaps and complete comments.
Whatever complete comments are put in the place of these, splicing puts them between the same gaps,
and the search finds in the new text exactly them, each where the gaps and comments in front of it
end. -/
theorem scan_replaced (t : Text) {ds : List Text} (hlength : ds.length = (scan t).length)
    (hds : ∀ d ∈ ds, IsComplete d) :
    let gaps := Piece.gaps 0 t ((scan t).map piece)
    (∀ c ∈ scan t, IsComplete c.text) ∧
      gaps.length = (scan t).length + 1 ∧
      Text.weave gaps ((scan t).map DocComment.text) = t ∧
      Replacement.splice t (List.zipWith (fun c d => ⟨c.start, c.stop, d⟩) (scan t) ds) =
        Text.weave gaps ds ∧
      (scan (Text.weave gaps ds)).map piece = Piece.placed 0 gaps ds := by
  intro gaps
  refine ⟨fun c hc => isComplete_iff.mpr (isWhole_of_mem_scanFrom hc), ?_, ?_,
    splice_zipWith t hlength, ?_⟩
  · rw [Piece.length_gaps, List.length_map]
  · have hweave := Piece.weave_gaps (tile_scanFrom 0 t)
    rwa [List.map_map] at hweave
  · have hwhole : ∀ d ∈ ds, IsWhole d := fun d hd => isComplete_iff.mp (hds d hd)
    obtain ⟨htexts, hgaps⟩ := splits_weave hwhole hlength 0
    have hplaced := (tile_scanFrom 0 (Text.weave gaps ds)).eq_placed
    rw [List.map_map] at hplaced
    rw [scan, hplaced]
    exact congrArg₂ (Piece.placed 0) hgaps htexts

/-- A text with an empty comment, two doc comments that touch, and an opening without an end. -/
def seams : Text := "*/**/ /** a *//** b*/ /**".toList

theorem seams_replaced :
    (["/***/".toList, "/** * / /** */".toList].length = (scan seams).length ∧
        ∀ d ∈ ["/***/".toList, "/** * / /** */".toList], IsComplete d) ∧
      (scan "*/**/ /***//** * / /** */ /**".toList).map piece =
        [⟨6, 11, "/***/".toList⟩, ⟨11, 25, "/** * / /** */".toList⟩] := by
  have hlength : ["/***/".toList, "/** * / /** */".toList].length = (scan seams).length := by
    decide +kernel
  have hcomplete : ∀ d ∈ ["/***/".toList, "/** * / /** */".toList], IsComplete d := by
    simp only [List.mem_cons, List.not_mem_nil, or_false, forall_eq_or_imp, forall_eq]
    exact ⟨⟨by decide, by decide, 3, by decide, by decide, by decide, by decide⟩,
      ⟨by decide, by decide, 12, by decide, by decide, by decide, by decide⟩⟩
  obtain ⟨-, -, -, -, hfound⟩ := scan_replaced seams hlength hcomplete
  refine ⟨⟨hlength, hcomplete⟩, ?_⟩
  have hgaps : Piece.gaps 0 seams ((scan seams).map piece) =
      ["*/**/ ".toList, [], " /**".toList] := by
    decide +kernel
  rw [hgaps] at hfound
  exact hfound

end DocComment

end DocRefs
