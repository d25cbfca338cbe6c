import Mathlib
import DocRefs.Text.Basic

/-!
# Texts in order

The code-point order is total, so sorting forgets the order of a list, and the sorted set of a list
is determined by the texts in it.
-/

namespace DocRefs

namespace Text

theorem le_total (a b : Text) : le a b = true ∨ le b a = true := by
  induction a generalizing b with
  | nil => exact .inl rfl
  | cons c a ih =>
      cases b with
      | nil => exact .inr rfl
      | cons d b =>
          by_cases hcd : c = d
          · subst hcd
            simpa [le] using ih b
          · have hne : c.toNat ≠ d.toNat := fun heq => hcd (Char.toNat_inj.mp heq)
            simp only [le, hcd, Ne.symm hcd, if_false, decide_eq_true_eq]
            omega

theorem le_antisymm {a b : Text} (hab : le a b = true) (hba : le b a = true) : a = b := by
  induction a generalizing b with
  | nil =>
      cases b with
      | nil => rfl
      | cons d b => simp [le] at hba
  | cons c a ih =>
      cases b with
      | nil => simp [le] at hab
      | cons d b =>
          by_cases hcd : c = d
          · subst hcd
            rw [ih (by simpa [le] using hab) (by simpa [le] using hba)]
          · simp only [le, hcd, Ne.symm hcd, if_false, decide_eq_true_eq] at hab hba
            omega

theorem le_trans {a b c : Text} (hab : le a b = true) (hbc : le b c = true) : le a c = true := by
  induction a generalizing b c with
  | nil => rfl
  | cons x a ih =>
      cases b with
      | nil => simp [le] at hab
      | cons y b =>
          cases c with
          | nil => simp [le] at hbc
          | cons z c =>
              simp only [le] at hab hbc ⊢
              by_cases hxy : x = y
              · subst hxy
                by_cases hxz : x = z
                · rw [if_pos hxz] at hbc ⊢
                  exact ih (by simpa using hab) hbc
                · rwa [if_neg hxz] at hbc ⊢
              · rw [if_neg hxy, decide_eq_true_eq] at hab
                by_cases hyz : y = z
                · subst hyz
                  rwa [if_neg hxy, decide_eq_true_eq]
                · rw [if_neg hyz, decide_eq_true_eq] at hbc
                  have hxz : x ≠ z := by
                    rintro rfl
                    omega
                  rw [if_neg hxz, decide_eq_true_eq]
                  omega

theorem pairwise_sort (ts : List Text) : (sort ts).Pairwise fun a b => le a b = true := by
  unfold sort
  apply List.pairwise_mergeSort
  · intro a b c
    exact le_trans
  · intro a b
    rw [Bool.or_eq_true]
    exact le_total a b

/-- Sorting forgets the order. -/
theorem sort_eq_of_perm {ts us : List Text} (h : ts.Perm us) : sort ts = sort us := by
  apply List.Perm.eq_of_pairwise (fun a b _ _ => le_antisymm) (pairwise_sort ts) (pairwise_sort us)
  exact (List.mergeSort_perm ts le).trans (h.trans (List.mergeSort_perm us le).symm)

/-- Every text comes before all that follow it. -/
def Ascending (ts : List Text) : Prop := ts.Pairwise fun a b => le a b = true ∧ a ≠ b

theorem Ascending.nodup {ts : List Text} (h : Ascending ts) : ts.Nodup :=
  List.Pairwise.imp (fun hab => hab.2) h

/-- Ascending lists of the same texts are the same. -/
theorem Ascending.eq_of_mem_iff {ts us : List Text} (hts : Ascending ts) (hus : Ascending us)
    (h : ∀ t, t ∈ ts ↔ t ∈ us) : ts = us := by
  refine List.Perm.eq_of_pairwise (fun a b _ _ hab hba => le_antisymm hab.1 hba.1) hts hus ?_
  exact (List.perm_ext_iff_of_nodup hts.nodup hus.nodup).mpr h

theorem mem_dropRepeats {t : Text} (ts : List Text) : t ∈ dropRepeats ts ↔ t ∈ ts := by
  fun_induction dropRepeats ts with
  | case1 => rfl
  | case2 => rfl
  | case3 u ts ih => rw [ih, List.mem_cons, List.mem_cons, List.mem_cons, or_self_left]
  | case4 u v ts _ ih => rw [List.mem_cons, ih, List.mem_cons, List.mem_cons, List.mem_cons]

theorem ascending_dropRepeats {ts : List Text} (h : ts.Pairwise fun a b => le a b = true) :
    Ascending (dropRepeats ts) := by
  fun_induction dropRepeats ts with
  | case1 => exact List.Pairwise.nil
  | case2 t => exact List.pairwise_singleton _ t
  | case3 u ts ih => exact ih (List.pairwise_cons.mp h).2
  | case4 t u ts hne ih =>
      obtain ⟨ht, hrest⟩ := List.pairwise_cons.mp h
      refine List.pairwise_cons.mpr ⟨?_, ih hrest⟩
      intro v hv
      rw [mem_dropRepeats] at hv
      refine ⟨ht v hv, ?_⟩
      rintro rfl
      rcases List.mem_cons.mp hv with rfl | hv
      · exact hne rfl
      · have hut := (List.pairwise_cons.mp hrest).1 t hv
        exact hne (le_antisymm (ht u List.mem_cons_self) hut)

theorem mem_sortedSet {t : Text} {ts : List Text} : t ∈ sortedSet ts ↔ t ∈ ts := by
  rw [sortedSet, mem_dropRepeats, sort, List.mem_mergeSort]

theorem ascending_sortedSet (ts : List Text) : Ascending (sortedSet ts) :=
  ascending_dropRepeats (pairwise_sort ts)

/-- The sorted set is determined by the texts in it. -/
theorem sortedSet_eq_of_mem_iff {ts us : List Text} (h : ∀ t, t ∈ ts ↔ t ∈ us) :
    sortedSet ts = sortedSet us := by
  apply (ascending_sortedSet ts).eq_of_mem_iff (ascending_sortedSet us)
  intro t
  rw [mem_sortedSet, mem_sortedSet, h]

end Text

end DocRefs
