import Mathlib
import DocRefs.Splice

/-!
# Pieces and gaps

Pieces are spans of a text in their order. They cut the text into the pieces and the gaps around
them, and the text is woven from both. The main statement is that splicing new texts for some of the
pieces weaves the same gaps with the new texts; pieces inside pieces weave level by level.
-/

namespace DocRefs

/-- A span of a text and the characters there. -/
structure Piece where
  start : Nat
  stop : Nat
  text : Text

/-- A gap, a piece, a gap, and so on; gaps and pieces without a counterpart are dropped, so there
should be one gap more than pieces. -/
def Text.weave : List Text → List Text → Text
  | [], _ => []
  | gap :: _, [] => gap
  | gap :: gaps, piece :: pieces => gap ++ (piece ++ weave gaps pieces)

theorem Text.weave_modifyHead (front : Text) {gaps : List Text} (h : gaps ≠ [])
    (pieces : List Text) :
    weave (gaps.modifyHead (front ++ ·)) pieces = front ++ weave gaps pieces := by
  obtain ⟨gap, gaps, rfl⟩ := List.exists_cons_of_ne_nil h
  cases pieces <;> simp [weave]

/-- What stands behind a piece. -/
theorem Text.drop_stop {t gap text rest : Text} {offset start stop : Nat}
    (h : t.drop offset = gap ++ (text ++ rest)) (hstart : start = offset + gap.length)
    (hstop : stop = start + text.length) : t.drop stop = rest := by
  have hlength : stop = offset + (gap ++ text).length := by
    rw [List.length_append]
    omega
  rw [hlength, ← List.drop_drop, h, ← List.append_assoc, List.drop_left]

namespace Piece

/-- The piece `k` characters further on. -/
def shift (k : Nat) (p : Piece) : Piece := ⟨k + p.start, k + p.stop, p.text⟩

/-- Pieces in their order in a text that stands at `offset`: every piece is what the text holds at
its span, and begins where the piece before it ends or further on. -/
def Tile : Nat → Text → List Piece → Prop
  | _, _, [] => True
  | offset, t, p :: ps => ∃ gap rest, t = gap ++ (p.text ++ rest) ∧
      p.start = offset + gap.length ∧ p.stop = p.start + p.text.length ∧ Tile p.stop rest ps

/-- What a text that stands at `offset` holds before, between and behind its pieces. -/
def gaps : Nat → Text → List Piece → List Text
  | _, t, [] => [t]
  | offset, t, p :: ps =>
      t.take (p.start - offset) :: gaps p.stop (t.drop (p.stop - offset)) ps

theorem gaps_cons {offset : Nat} {gap rest : Text} {p : Piece} (ps : List Piece)
    (hstart : p.start = offset + gap.length) (hstop : p.stop = p.start + p.text.length) :
    gaps offset (gap ++ (p.text ++ rest)) (p :: ps) = gap :: gaps p.stop rest ps := by
  have htake : p.start - offset = gap.length := by omega
  have hdrop : p.stop - offset = (gap ++ p.text).length := by
    rw [List.length_append]
    omega
  rw [gaps, htake, hdrop, List.take_left, ← List.append_assoc, List.drop_left]

/-- A piece at the start of the text has an empty gap in front of it. -/
theorem gaps_cons_self (offset : Nat) (d rest : Text) (ps : List Piece) :
    gaps offset (d ++ rest) (⟨offset, offset + d.length, d⟩ :: ps) =
      [] :: gaps (offset + d.length) rest ps := by
  simp [gaps]

theorem gaps_ne_nil (offset : Nat) (t : Text) (ps : List Piece) : gaps offset t ps ≠ [] := by
  cases ps <;> simp [gaps]

/-- Nothing is lost: the gaps and the pieces are the text. -/
theorem weave_gaps {offset : Nat} {t : Text} {ps : List Piece} (h : Tile offset t ps) :
    Text.weave (gaps offset t ps) (ps.map Piece.text) = t := by
  induction ps generalizing offset t with
  | nil => rfl
  | cons p ps ih =>
      obtain ⟨gap, rest, rfl, hstart, hstop, hrest⟩ := h
      rw [gaps_cons ps hstart hstop, List.map_cons, Text.weave, ih hrest]

namespace Tile

/-- Characters in front of a text belong to its first gap. -/
theorem skip {offset : Nat} {front t : Text} {ps : List Piece}
    (h : Tile (offset + front.length) t ps) : Tile offset (front ++ t) ps := by
  cases ps with
  | nil => trivial
  | cons p ps =>
      obtain ⟨gap, rest, rfl, hstart, hstop, hrest⟩ := h
      refine ⟨front ++ gap, rest, by simp, ?_, hstop, hrest⟩
      rw [List.length_append]
      omega

theorem skip_sub {offset : Nat} {front t : Text} {ps : List Piece} (hle : front.length ≤ offset)
    (h : Tile offset t ps) : Tile (offset - front.length) (front ++ t) ps := by
  apply skip
  rwa [Nat.sub_add_cancel hle]

theorem append {offset : Nat} {t u : Text} {ps qs : List Piece} (hps : Tile offset t ps)
    (hqs : Tile (offset + t.length) u qs) : Tile offset (t ++ u) (ps ++ qs) := by
  induction ps generalizing offset t with
  | nil => exact skip hqs
  | cons p ps ih =>
      obtain ⟨gap, rest, rfl, hstart, hstop, hrest⟩ := hps
      refine ⟨gap, rest ++ u, by simp, hstart, hstop, ih hrest ?_⟩
      simp only [List.length_append] at hqs
      rwa [show p.stop + rest.length = offset + (gap.length + (p.text.length + rest.length)) by
        omega]

/-- The pieces inside the pieces of a text are pieces of the text. -/
theorem flatMap {ι : Type} {offset : Nat} {t : Text} {xs : List ι} {outer : ι → Piece}
    {inner : ι → List Piece} (houter : Tile offset t (xs.map outer))
    (hinner : ∀ x ∈ xs, Tile (outer x).start (outer x).text (inner x)) :
    Tile offset t (xs.flatMap inner) := by
  induction xs generalizing offset t with
  | nil => trivial
  | cons x xs ih =>
      obtain ⟨gap, rest, rfl, hstart, hstop, hrest⟩ := houter
      have hx := hinner x List.mem_cons_self
      rw [hstart] at hx
      apply skip
      rw [List.flatMap_cons]
      apply append hx
      rw [← hstart, ← hstop]
      exact ih hrest fun y hy => hinner y (List.mem_cons_of_mem _ hy)

theorem shift {offset : Nat} {t : Text} {ps : List Piece} (h : Tile offset t ps) (k : Nat) :
    Tile (k + offset) t (ps.map (Piece.shift k)) := by
  induction ps generalizing offset t with
  | nil => trivial
  | cons p ps ih =>
      obtain ⟨gap, rest, rfl, hstart, hstop, hrest⟩ := h
      refine ⟨gap, rest, rfl, ?_, ?_, ih hrest⟩
      · simp only [Piece.shift]
        omega
      · simp only [Piece.shift]
        omega

theorem le_start {offset : Nat} {t : Text} {ps : List Piece} (h : Tile offset t ps) {p : Piece}
    (hp : p ∈ ps) : offset ≤ p.start ∧ p.start ≤ p.stop := by
  induction ps generalizing offset t with
  | nil => simp at hp
  | cons q ps ih =>
      obtain ⟨gap, rest, rfl, hstart, hstop, hrest⟩ := h
      rcases List.mem_cons.mp hp with rfl | hp
      · omega
      · have := ih hrest hp
        omega

theorem exists_of_mem {offset : Nat} {t : Text} {ps : List Piece} (h : Tile offset t ps)
    {p : Piece} (hp : p ∈ ps) :
    ∃ front rest, t = front ++ (p.text ++ rest) ∧ p.start = offset + front.length ∧
      p.stop = p.start + p.text.length := by
  induction ps generalizing offset t with
  | nil => simp at hp
  | cons q ps ih =>
      obtain ⟨gap, rest, rfl, hstart, hstop, hrest⟩ := h
      rcases List.mem_cons.mp hp with rfl | hp
      · exact ⟨gap, rest, rfl, hstart, hstop⟩
      · obtain ⟨front, behind, rfl, hp, hlength⟩ := ih hrest hp
        refine ⟨gap ++ (q.text ++ front), behind, by simp, ?_, hlength⟩
        simp only [List.length_append]
        omega

/-- The span of a piece lies in the text and holds its characters. -/
theorem span_of_mem {t : Text} {ps : List Piece} (h : Tile 0 t ps) {p : Piece} (hp : p ∈ ps) :
    p.stop = p.start + p.text.length ∧ p.stop ≤ t.length ∧
      t.slice p.start p.stop = p.text := by
  obtain ⟨front, rest, rfl, hstart, hstop⟩ := h.exists_of_mem hp
  rw [Nat.zero_add] at hstart
  refine ⟨hstop, ?_, ?_⟩
  · simp only [List.length_append]
    omega
  · rw [Text.slice, hstop, hstart, List.drop_left, Nat.add_sub_cancel_left, List.take_left]

/-- The pieces stand in order and apart. -/
theorem pairwise {offset : Nat} {t : Text} {ps : List Piece} (h : Tile offset t ps) :
    ps.Pairwise fun p q => p.stop ≤ q.start := by
  induction ps generalizing offset t with
  | nil => exact .nil
  | cons p ps ih =>
      obtain ⟨gap, rest, rfl, -, -, hrest⟩ := h
      exact .cons (fun q hq => (hrest.le_start hq).1) (ih hrest)

end Tile

theorem gaps_shift (k offset : Nat) (t : Text) (ps : List Piece) :
    gaps (k + offset) t (ps.map (shift k)) = gaps offset t ps := by
  induction ps generalizing offset t with
  | nil => rfl
  | cons p ps ih =>
      simp only [List.map_cons, gaps, shift, Nat.add_sub_add_left]
      rw [ih]

/-- Characters in front of a text belong to the first gap. -/
theorem gaps_skip {offset : Nat} {t : Text} {ps : List Piece} (front : Text)
    (h : Tile (offset + front.length) t ps) :
    gaps offset (front ++ t) ps =
      (gaps (offset + front.length) t ps).modifyHead (front ++ ·) := by
  cases ps with
  | nil => rfl
  | cons p ps =>
      obtain ⟨gap, rest, rfl, hstart, hstop, hrest⟩ := h
      have hfront : p.start = offset + (front ++ gap).length := by
        rw [List.length_append]
        omega
      rw [← List.append_assoc, gaps_cons ps hfront hstop, gaps_cons ps hstart hstop,
        List.modifyHead_cons]

theorem weave_gaps_skip {offset : Nat} {t : Text} {ps : List Piece} (front : Text)
    (h : Tile (offset + front.length) t ps) (us : List Text) :
    Text.weave (gaps offset (front ++ t) ps) us =
      front ++ Text.weave (gaps (offset + front.length) t ps) us := by
  rw [gaps_skip front h]
  exact Text.weave_modifyHead front (gaps_ne_nil _ t ps) us

theorem weave_gaps_append {offset : Nat} {t u : Text} {ps qs : List Piece} {us vs : List Text}
    (hps : Tile offset t ps) (hqs : Tile (offset + t.length) u qs) (hus : us.length = ps.length) :
    Text.weave (gaps offset (t ++ u) (ps ++ qs)) (us ++ vs) =
      Text.weave (gaps offset t ps) us ++ Text.weave (gaps (offset + t.length) u qs) vs := by
  induction ps generalizing offset t us with
  | nil =>
      obtain rfl := List.length_eq_zero_iff.mp hus
      exact weave_gaps_skip t hqs vs
  | cons p ps ih =>
      obtain ⟨gap, rest, rfl, hstart, hstop, hrest⟩ := hps
      cases us with
      | nil => simp at hus
      | cons v us =>
          have hlength : offset + (gap ++ (p.text ++ rest)).length = p.stop + rest.length := by
            simp only [List.length_append]
            omega
          rw [hlength] at hqs ⊢
          rw [gaps_cons ps hstart hstop, List.append_assoc, List.append_assoc, List.cons_append,
            gaps_cons _ hstart hstop, List.cons_append, Text.weave, Text.weave,
            ih hrest hqs (by simpa using hus)]
          simp

/-- Weaving the inner pieces of a text at once, or first inside each outer piece, is the same. -/
theorem weave_flatMap {ι κ : Type} {offset : Nat} {t : Text} {xs : List ι} {outer : ι → Piece}
    {inner : ι → List κ} {piece : κ → Piece} (new : κ → Text)
    (houter : Tile offset t (xs.map outer))
    (hinner : ∀ x ∈ xs, Tile (outer x).start (outer x).text ((inner x).map piece)) :
    Text.weave (gaps offset t ((xs.flatMap inner).map piece)) ((xs.flatMap inner).map new) =
      Text.weave (gaps offset t (xs.map outer)) (xs.map fun x =>
        Text.weave (gaps (outer x).start (outer x).text ((inner x).map piece))
          ((inner x).map new)) := by
  induction xs generalizing offset t with
  | nil => rfl
  | cons x xs ih =>
      obtain ⟨gap, rest, rfl, hstart, hstop, hrest⟩ := houter
      have hx := hinner x List.mem_cons_self
      have hxs := fun y hy => hinner y (List.mem_cons_of_mem x hy)
      have hflat : Tile (outer x).stop rest ((xs.flatMap inner).map piece) := by
        rw [List.map_flatMap]
        exact hrest.flatMap hxs
      rw [hstart] at hx
      rw [hstop, hstart] at hflat
      rw [List.map_cons, List.map_cons, gaps_cons _ hstart hstop, Text.weave, List.flatMap_cons,
        List.map_append, List.map_append, weave_gaps_skip gap (hx.append hflat),
        weave_gaps_append hx hflat (by simp), ← hstart, ← hstop, ih hrest hxs]

end Piece

namespace Replacement

/-- Text in front of the first span is kept as it is. -/
theorem splice.go_skip {t : Text} {last : Nat} {rs : List Replacement} (next : Nat)
    (hnext : last ≤ next) (hrs : ∀ r ∈ rs, next ≤ r.start) :
    splice.go t last rs = Text.slice t last next ++ splice.go t next rs := by
  have hdrop : t.drop next = (t.drop last).drop (next - last) := by
    rw [List.drop_drop, Nat.add_sub_cancel' hnext]
  cases rs with
  | nil => rw [splice.go, splice.go, Text.slice, hdrop, List.take_append_drop]
  | cons r rs =>
      have hr := hrs r List.mem_cons_self
      have hslice : Text.slice t last r.start =
          Text.slice t last next ++ Text.slice t next r.start := by
        rw [Text.slice, Text.slice, Text.slice, hdrop,
          show r.start - last = (next - last) + (r.start - next) by omega, List.take_add]
      rw [splice.go, splice.go, hslice]
      simp

/-- Replacements of pieces are in the order in which they are applied. -/
theorem pairwise_le_of_tile {ι : Type} {offset : Nat} {t : Text} {xs : List ι} {piece : ι → Piece}
    (h : Piece.Tile offset t (xs.map piece)) (hne : ∀ x ∈ xs, (piece x).text ≠ [])
    (new : ι → Option Text) :
    (xs.filterMap fun x => (new x).map (Replacement.mk (piece x).start (piece x).stop)).Pairwise
      fun a b => le a b = true := by
  induction xs generalizing offset t with
  | nil => exact List.Pairwise.nil
  | cons x xs ih =>
      obtain ⟨gap, rest, rfl, hstart, hstop, hrest⟩ := h
      have hxs := ih hrest fun y hy => hne y (List.mem_cons_of_mem x hy)
      rw [List.filterMap_cons]
      split
      · exact hxs
      next r hr =>
        refine List.pairwise_cons.mpr ⟨?_, hxs⟩
        intro b hb
        obtain ⟨u, -, rfl⟩ := Option.map_eq_some_iff.mp hr
        obtain ⟨y, hy, hb⟩ := List.mem_filterMap.mp hb
        obtain ⟨v, -, rfl⟩ := Option.map_eq_some_iff.mp hb
        have hbound := (hrest.le_start (List.mem_map_of_mem hy)).1
        have hpos := List.length_pos_iff.mpr (hne x List.mem_cons_self)
        have hlt : (piece x).start < (piece y).start := by omega
        simp [le, hlt, Nat.ne_of_lt hlt]

theorem splice.go_tile {ι : Type} {last : Nat} {t : Text} {xs : List ι} {piece : ι → Piece}
    (h : Piece.Tile last (t.drop last) (xs.map piece)) (new : ι → Option Text) :
    splice.go t last
        (xs.filterMap fun x => (new x).map (Replacement.mk (piece x).start (piece x).stop)) =
      Text.weave (Piece.gaps last (t.drop last) (xs.map piece))
        (xs.map fun x => (new x).getD (piece x).text) := by
  induction xs generalizing last with
  | nil => rfl
  | cons x xs ih =>
      obtain ⟨gap, rest, hdrop, hstart, hstop, hrest⟩ := h
      have hslice : Text.slice t last (piece x).start = gap := by
        rw [Text.slice, hdrop, hstart, Nat.add_sub_cancel_left, List.take_left]
      have hstopDrop : t.drop (piece x).stop = rest := Text.drop_stop hdrop hstart hstop
      rw [← hstopDrop] at hrest
      rw [List.map_cons, List.map_cons, hdrop, Piece.gaps_cons _ hstart hstop, Text.weave,
        ← hstopDrop, ← ih hrest, List.filterMap_cons]
      cases hnew : new x with
      | some u =>
          simp only [Option.map_some, Option.getD_some]
          rw [splice.go, hslice, List.append_assoc]
      | none =>
          -- A piece without a new text is part of what is copied up to the next replacement.
          simp only [Option.map_none, Option.getD_none]
          rw [splice.go_skip (piece x).stop (by omega)]
          · rw [← List.append_assoc]
            congr 1
            rw [Text.slice, hdrop, show (piece x).stop - last = (gap ++ (piece x).text).length by
              rw [List.length_append]; omega, ← List.append_assoc, List.take_left]
          · intro r hr
            obtain ⟨y, hy, hr⟩ := List.mem_filterMap.mp hr
            obtain ⟨v, -, rfl⟩ := Option.map_eq_some_iff.mp hr
            exact (hrest.le_start (List.mem_map_of_mem hy)).1

/-- Splicing new texts for some of the pieces of a text keeps the gaps and the other pieces. -/
theorem splice_tile {ι : Type} {t : Text} {xs : List ι} {piece : ι → Piece}
    (h : Piece.Tile 0 t (xs.map piece)) (hne : ∀ x ∈ xs, (piece x).text ≠ [])
    (new : ι → Option Text) :
    splice t (xs.filterMap fun x => (new x).map (Replacement.mk (piece x).start (piece x).stop)) =
      Text.weave (Piece.gaps 0 t (xs.map piece)) (xs.map fun x => (new x).getD (piece x).text) := by
  rw [splice, List.mergeSort_of_pairwise (pairwise_le_of_tile h hne new)]
  exact splice.go_tile h new

end Replacement

end DocRefs
