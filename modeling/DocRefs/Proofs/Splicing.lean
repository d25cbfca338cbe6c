import Mathlib
import DocRefs.Proofs.Sorting
import DocRefs.Proofs.Weave

/-!
# Splicing in one pass and one by one

Splicing copies a text once from left to right. The main statement is that this is the same as
replacing the spans one after another from the last to the first, for spans that stand in order and
do not overlap: a replacement moves nothing that stands in front of it, so the spans that are still
to be replaced are where they were. What stands between the spans is kept, and the order in which
the replacements are listed does not matter.
-/

namespace DocRefs

/-- A span is cut where any offset inside it lies. -/
theorem Text.slice_append_slice (t : Text) {i j k : Nat} (hij : i ≤ j) (hjk : j ≤ k) :
    slice t i j ++ slice t j k = slice t i k := by
  have hdrop : t.drop j = (t.drop i).drop (j - i) := by
    rw [List.drop_drop, Nat.add_sub_cancel' hij]
  rw [slice, slice, slice, hdrop, ← List.take_add, show j - i + (k - j) = k - i by omega]

theorem Text.take_append_slice (t : Text) {i j : Nat} (h : i ≤ j) :
    t.take i ++ slice t i j = t.take j := by
  have hwhole := slice_append_slice t (Nat.zero_le i) h
  simpa [slice] using hwhole

theorem Text.slice_append_drop (t : Text) {i j : Nat} (h : i ≤ j) :
    slice t i j ++ t.drop j = t.drop i := by
  rw [slice, ← Nat.add_sub_cancel' h, ← List.drop_drop, Nat.add_sub_cancel_left,
    List.take_append_drop]

theorem Text.slice_length (t : Text) (i : Nat) : slice t i t.length = t.drop i :=
  List.take_of_length_le (by rw [List.length_drop])

namespace Replacement

/-! ## The order of replacements -/

theorem le_iff {a b : Replacement} : le a b = true ↔
    a.start < b.start ∨ a.start = b.start ∧
      (a.stop < b.stop ∨ a.stop = b.stop ∧ Text.le a.text b.text = true) := by
  unfold le
  split
  next hstart =>
    split
    next hstop => simp [hstart, hstop]
    next hstop => simp [hstart, hstop]
  next hstart => simp [hstart]

theorem le_total (a b : Replacement) : le a b = true ∨ le b a = true := by
  rw [le_iff, le_iff]
  have htext := Text.le_total a.text b.text
  grind

theorem le_antisymm {a b : Replacement} (hab : le a b = true) (hba : le b a = true) : a = b := by
  rw [le_iff] at hab hba
  have hstart : a.start = b.start := by grind
  have hstop : a.stop = b.stop := by grind
  have htext : a.text = b.text := Text.le_antisymm (by grind) (by grind)
  cases a
  cases b
  rw [mk.injEq]
  exact ⟨hstart, hstop, htext⟩

theorem le_trans {a b c : Replacement} (hab : le a b = true) (hbc : le b c = true) :
    le a c = true := by
  rw [le_iff] at hab hbc ⊢
  have htext : Text.le a.text b.text = true → Text.le b.text c.text = true →
      Text.le a.text c.text = true := Text.le_trans
  grind

theorem pairwise_mergeSort (rs : List Replacement) :
    (rs.mergeSort le).Pairwise fun a b => le a b = true := by
  apply List.pairwise_mergeSort
  · intro a b c
    exact le_trans
  · intro a b
    rw [Bool.or_eq_true]
    exact le_total a b

/-- There is one way to put replacements in order. -/
theorem mergeSort_eq {rs ss : List Replacement} (hperm : ss.Perm rs)
    (hsorted : ss.Pairwise fun a b => le a b = true) : rs.mergeSort le = ss :=
  ((List.mergeSort_perm rs le).trans hperm.symm).eq_of_pairwise (fun _ _ _ _ => le_antisymm)
    (pairwise_mergeSort rs) hsorted

/-- Splicing does not depend on the order of the list. -/
theorem splice_eq_of_perm (t : Text) {rs ss : List Replacement} (h : rs.Perm ss) :
    splice t rs = splice t ss := by
  have hperm : (ss.mergeSort le).Perm rs := (List.mergeSort_perm ss le).trans h.symm
  rw [splice, mergeSort_eq hperm (pairwise_mergeSort ss), splice]

/-! ## Spans in order -/

/-- The spans stand in a text in the order of the list: each ends at or before the next. -/
structure Fits (t : Text) (rs : List Replacement) : Prop where
  start_le : ∀ r ∈ rs, r.start ≤ r.stop
  stop_le : ∀ r ∈ rs, r.stop ≤ t.length
  ordered : rs.IsChain fun a b => a.stop ≤ b.start

/-- The first span begins at an offset or behind it. -/
def BeginsFrom (k : Nat) (rs : List Replacement) : Prop := ∀ r ∈ rs.head?, k ≤ r.start

/-- The text with one span replaced. -/
def apply (r : Replacement) (t : Text) : Text := t.take r.start ++ r.text ++ t.drop r.stop

/-- The text with the spans replaced one after another, the last of the list first. -/
def applyAll (rs : List Replacement) (t : Text) : Text := rs.foldr apply t

/-- What stands before, between and behind the spans. -/
def gaps (t : Text) (rs : List Replacement) : List Text :=
  List.zipWith (Text.slice t) (0 :: rs.map stop) (rs.map start ++ [t.length])

/-- What stands in the spans. -/
def spans (t : Text) (rs : List Replacement) : List Text :=
  rs.map fun r => Text.slice t r.start r.stop

section Spans

variable {t : Text} {r : Replacement} {rs : List Replacement} {k : Nat}

theorem Fits.tail (h : Fits t (r :: rs)) : Fits t rs where
  start_le := fun s hs => h.start_le s (List.mem_cons_of_mem r hs)
  stop_le := fun s hs => h.stop_le s (List.mem_cons_of_mem r hs)
  ordered := h.ordered.tail

theorem Fits.beginsFrom_stop (h : Fits t (r :: rs)) : BeginsFrom r.stop rs := by
  intro s hs
  obtain ⟨rest, rfl⟩ := List.head?_eq_some_iff.mp hs
  exact (List.isChain_cons_cons.mp h.ordered).1

/-- A replacement in a text that is changed from its end on keeps what stands in front of it. -/
theorem apply_take_append (hstart : r.start ≤ r.stop) (hstop : r.stop ≤ t.length) (u : Text) :
    r.apply (t.take r.stop ++ u) = t.take r.start ++ r.text ++ u := by
  have hlength : (t.take r.stop).length = r.stop := List.length_take_of_le hstop
  rw [apply, List.take_append_of_le_length (by omega), List.take_take, Nat.min_eq_left hstart,
    List.drop_left' hlength]

/-- Replacing the last span first leaves the text up to the first span alone. -/
theorem applyAll_eq (h : Fits t rs) (hk : BeginsFrom k rs) :
    applyAll rs t = t.take k ++ splice.go t k rs := by
  induction rs generalizing k with
  | nil => exact (List.take_append_drop k t).symm
  | cons r rs ih =>
      have hrest : applyAll rs t = t.take r.stop ++ splice.go t r.stop rs :=
        ih h.tail h.beginsFrom_stop
      have hstart : r.start ≤ r.stop := h.start_le r List.mem_cons_self
      have hstop : r.stop ≤ t.length := h.stop_le r List.mem_cons_self
      calc applyAll (r :: rs) t = r.apply (applyAll rs t) := rfl
        _ = t.take r.start ++ r.text ++ splice.go t r.stop rs := by
          rw [hrest, apply_take_append hstart hstop]
        _ = t.take k ++ splice.go t k (r :: rs) := by
          rw [splice.go, ← Text.take_append_slice t (hk r rfl)]
          simp only [List.append_assoc]

/-- What one pass writes from an offset on: what stands between the spans, and the new texts. -/
theorem splice.go_eq_weave (t : Text) (k : Nat) (rs : List Replacement) :
    splice.go t k rs =
      Text.weave (List.zipWith (Text.slice t) (k :: rs.map stop) (rs.map start ++ [t.length]))
        (rs.map Replacement.text) := by
  induction rs generalizing k with
  | nil => exact (Text.slice_length t k).symm
  | cons r rs ih =>
      rw [splice.go, ih]
      simp [Text.weave]

/-- Putting back what stands in the spans gives the text. -/
theorem weave_spans (h : Fits t rs) (hk : BeginsFrom k rs) :
    Text.weave (List.zipWith (Text.slice t) (k :: rs.map stop) (rs.map start ++ [t.length]))
      (spans t rs) = t.drop k := by
  induction rs generalizing k with
  | nil => exact Text.slice_length t k
  | cons r rs ih =>
      have hrest := ih h.tail h.beginsFrom_stop
      have hstart : r.start ≤ r.stop := h.start_le r List.mem_cons_self
      calc Text.weave _ (spans t (r :: rs)) =
            Text.slice t k r.start ++ (Text.slice t r.start r.stop ++ t.drop r.stop) := by
              rw [← hrest]
              rfl
        _ = t.drop k := by
          rw [← List.append_assoc, Text.slice_append_slice t (hk r rfl) hstart]
          exact Text.slice_append_drop t (Nat.le_trans (hk r rfl) hstart)

end Spans

/-- **One pass, or one by one.** When the replacements, in their order, have spans that fit the
text, splicing is replacing the spans one by one from the last to the first; it is the same for
every order of the list; and the text before, between and behind the spans is kept in its place. -/
theorem splice_eq_applyAll {t : Text} {rs ss : List Replacement} (hperm : ss.Perm rs)
    (hsorted : ss.Pairwise fun a b => le a b = true) (hfits : Fits t ss) :
    splice t rs = applyAll ss t ∧
      (∀ rs' : List Replacement, rs'.Perm rs → splice t rs' = splice t rs) ∧
      Text.weave (gaps t ss) (spans t ss) = t ∧
      Text.weave (gaps t ss) (ss.map Replacement.text) = splice t rs := by
  have hsplice : splice t rs = splice.go t 0 ss := by rw [splice, mergeSort_eq hperm hsorted]
  have hfrom : BeginsFrom 0 ss := fun r _ => Nat.zero_le r.start
  refine ⟨?_, fun rs' h => splice_eq_of_perm t h, weave_spans hfits hfrom, ?_⟩
  · rw [hsplice, applyAll_eq hfits hfrom, List.take_zero, List.nil_append]
  · rw [hsplice, splice.go_eq_weave, gaps]

/-- Spans that touch, two insertions at one place and one that comes twice. -/
def crowded : List Replacement :=
  [⟨3, 5, "-".toList⟩, ⟨1, 3, "BC".toList⟩, ⟨3, 3, "y".toList⟩, ⟨0, 1, []⟩, ⟨3, 3, "x".toList⟩,
    ⟨3, 3, "y".toList⟩]

/-- The replacements in their order. -/
def crowdedSorted : List Replacement :=
  [⟨0, 1, []⟩, ⟨1, 3, "BC".toList⟩, ⟨3, 3, "x".toList⟩, ⟨3, 3, "y".toList⟩, ⟨3, 3, "y".toList⟩,
    ⟨3, 5, "-".toList⟩]

theorem crowded_spliced :
    crowdedSorted.Perm crowded ∧ (crowdedSorted.Pairwise fun a b => le a b = true) ∧
      Fits "abcdef".toList crowdedSorted ∧
      splice "abcdef".toList crowded = applyAll crowdedSorted "abcdef".toList ∧
      splice "abcdef".toList crowded = "BCxyy-f".toList := by
  have hperm : crowdedSorted.Perm crowded := by decide
  have hsorted : crowdedSorted.Pairwise fun a b => le a b = true := by decide
  have hfits : Fits "abcdef".toList crowdedSorted :=
    ⟨by decide, by decide, by decide⟩
  obtain ⟨honce, -, -, -⟩ := splice_eq_applyAll hperm hsorted hfits
  exact ⟨hperm, hsorted, hfits, honce, honce.trans (by decide)⟩

end Replacement

end DocRefs
