import Mathlib
import DocRefs.Proofs.Identifiers

/-!
# Runs of identifiers

The longest dotted identifier is found by a search from left to right. Said without the search, it
is a run of identifier words that are joined by single dots, and a run is as long as it can be when
no identifier goes on at either of its ends.
-/

namespace DocRefs

/-- Words of identifier characters, joined by single dots. -/
inductive DottedRun : Text → Prop
  | word {w : Text} (hne : w ≠ []) (hw : ∀ c ∈ w, isIdentifierChar c = true) : DottedRun w
  | dot {w r : Text} (hne : w ≠ []) (hw : ∀ c ∈ w, isIdentifierChar c = true)
      (h : DottedRun r) : DottedRun (w ++ '.' :: r)

/-- The text `name` between `pre` and `post` is a run, and no run that covers it is longer. -/
structure MaximalRun (pre name post : Text) : Prop where
  run : DottedRun name
  maximal : ∀ u v, u <:+ pre → v <+: post → DottedRun (u ++ (name ++ v)) → u = [] ∧ v = []

/-! ## Runs are what the search finds -/

theorem dottedTail_append_of_chars {w : Text} (hw : ∀ c ∈ w, isIdentifierChar c = true)
    (t : Text) : dottedTail (w ++ t) = (w ++ (dottedTail t).1, (dottedTail t).2) := by
  induction w with
  | nil => rfl
  | cons c w ih =>
      obtain ⟨hc, hrest⟩ := List.forall_mem_cons.mp hw
      rw [List.cons_append, dottedTail_cons hc, ih hrest, List.cons_append]

theorem dotted_cons {c : Char} (hc : isIdentifierChar c = true) (cs : Text) :
    dotted (c :: cs) = (c :: (dottedTail cs).1, (dottedTail cs).2) := by
  simp [dotted, hc]

theorem DottedRun.isDotted {name : Text} (h : DottedRun name) : IsDotted name := by
  induction h with
  | @word w hne hw =>
      obtain ⟨c, cs, rfl⟩ := List.exists_cons_of_ne_nil hne
      obtain ⟨hc, hcs⟩ := List.forall_mem_cons.mp hw
      have htail := dottedTail_append_of_chars hcs []
      rw [List.append_nil, dottedTail_of_ends ends_nil, List.append_nil] at htail
      exact ⟨hne, by rw [dotted_cons hc, htail]⟩
  | @dot w r hne hw _ ih =>
      obtain ⟨c, cs, rfl⟩ := List.exists_cons_of_ne_nil hne
      obtain ⟨hc, hcs⟩ := List.forall_mem_cons.mp hw
      obtain ⟨d, ds, rfl, hd, hds⟩ := ih.exists_cons
      refine ⟨by simp, ?_⟩
      rw [List.cons_append, dotted_cons hc, dottedTail_append_of_chars hcs,
        dottedTail_dot_cons hd, hds]

theorem DottedRun.cons {c : Char} {name : Text} (hc : isIdentifierChar c = true)
    (h : DottedRun name) : DottedRun (c :: name) := by
  cases h with
  | word hne hw => exact .word (by simp) (List.forall_mem_cons.mpr ⟨hc, hw⟩)
  | @dot w r hne hw h =>
      rw [← List.cons_append]
      exact .dot (by simp) (List.forall_mem_cons.mpr ⟨hc, hw⟩) h

theorem dottedRun_singleton {c : Char} (hc : isIdentifierChar c = true) : DottedRun [c] :=
  .word (by simp) (List.forall_mem_singleton.mpr hc)

theorem DottedRun.cons_dot {c : Char} {name : Text} (hc : isIdentifierChar c = true)
    (h : DottedRun name) : DottedRun (c :: '.' :: name) :=
  .dot (w := [c]) (by simp) (List.forall_mem_singleton.mpr hc) h

theorem dottedRun_cons_dottedTail (t : Text) :
    ∀ c, isIdentifierChar c = true → DottedRun (c :: (dottedTail t).1) := by
  fun_induction dottedTail t with
  | case1 => exact fun _ hc => dottedRun_singleton hc
  | case2 d ds hd p ih => exact fun _ hc => (ih d hd).cons hc
  | case3 => exact fun _ hc => dottedRun_singleton hc
  | case4 d ds hd p _ ih => exact fun _ hc => (ih d hd).cons_dot hc
  | case5 => exact fun _ hc => dottedRun_singleton hc
  | case6 => exact fun _ hc => dottedRun_singleton hc

theorem isDotted_iff_dottedRun {name : Text} : IsDotted name ↔ DottedRun name := by
  refine ⟨fun h => ?_, DottedRun.isDotted⟩
  obtain ⟨c, cs, rfl, hc, htail⟩ := h.exists_cons
  have hrun := dottedRun_cons_dottedTail cs c hc
  rwa [htail] at hrun

/-! ## Runs read backwards -/

theorem DottedRun.append_dot {a b : Text} (ha : DottedRun a) (hb : DottedRun b) :
    DottedRun (a ++ '.' :: b) := by
  induction ha with
  | word hne hw => exact .dot hne hw hb
  | @dot w r hne hw _ ih =>
      rw [List.append_assoc, List.cons_append]
      exact .dot hne hw ih

theorem DottedRun.reverse {name : Text} (h : DottedRun name) : DottedRun name.reverse := by
  induction h with
  | word hne hw => exact .word (by simpa using hne) (by simpa using hw)
  | @dot w r hne hw _ ih =>
      have hword : DottedRun w.reverse := .word (by simpa using hne) (by simpa using hw)
      simpa using ih.append_dot hword

theorem dottedRun_reverse_iff {name : Text} : DottedRun name.reverse ↔ DottedRun name :=
  ⟨fun h => by simpa using h.reverse, DottedRun.reverse⟩

theorem MaximalRun.reverse {pre name post : Text} (h : MaximalRun pre name post) :
    MaximalRun post.reverse name.reverse pre.reverse := by
  refine ⟨h.run.reverse, fun u v hu hv hrun => ?_⟩
  have hrun' : DottedRun (v.reverse ++ (name ++ u.reverse)) := by
    rw [← dottedRun_reverse_iff]
    simpa using hrun
  obtain ⟨hv', hu'⟩ := h.maximal v.reverse u.reverse
    (by simpa using List.reverse_suffix.mpr hv) (by simpa using List.reverse_prefix.mpr hu) hrun'
  exact ⟨by simpa using hu', by simpa using hv'⟩

/-! ## Where a run ends -/

theorem MaximalRun.ends {pre name post : Text} (h : MaximalRun pre name post) : Ends post := by
  -- Any character that goes on with the run would make it longer.
  have hmore : ∀ {v : Text}, v <+: post → v ≠ [] → ¬DottedRun (name ++ v) := by
    intro v hv hne hrun
    exact hne (h.maximal [] v (List.nil_suffix) hv hrun).2
  cases post with
  | nil => trivial
  | cons c post =>
      have hfirst : isIdentifierChar c = false := by
        by_contra hc
        rw [Bool.not_eq_false] at hc
        refine hmore (v := [c]) (by simp) (by simp) ?_
        rw [← dottedRun_reverse_iff, List.reverse_append]
        exact h.run.reverse.cons hc
      refine ⟨hfirst, ?_⟩
      rintro rfl
      cases post with
      | nil => rfl
      | cons d post =>
          by_contra hd
          rw [Bool.not_eq_false] at hd
          exact hmore (v := ['.', d]) (by simp) (by simp)
            (h.run.append_dot (dottedRun_singleton (by simpa using hd)))

/-- A run that goes on over its end shows that the end was none. -/
theorem DottedRun.eq_nil_of_ends {name v post : Text} (h : DottedRun (name ++ v))
    (hv : v <+: post) (hends : Ends post) : v = [] := by
  cases v with
  | nil => rfl
  | cons c v =>
      exfalso
      obtain ⟨rest, rfl⟩ := hv
      obtain ⟨hc, hdot⟩ : isIdentifierChar c = false ∧
          (c = '.' → (v ++ rest).head?.any isIdentifierChar = false) := hends
      rcases h.isDotted.chars c (by simp) with hident | rfl
      · simp [hc] at hident
      · have hhead := h.isDotted.head_of_dot rfl
        cases v with
        | nil => simp at hhead
        | cons d v =>
            have hnot : isIdentifierChar d = false := hdot rfl
            simp [hnot] at hhead

/-- A run is as long as it can be when no identifier goes on at either end. -/
theorem maximalRun_iff {pre name post : Text} :
    MaximalRun pre name post ↔ IsDotted name ∧ Ends pre.reverse ∧ Ends post := by
  constructor
  · intro h
    exact ⟨h.run.isDotted, h.reverse.ends, h.ends⟩
  · rintro ⟨hname, hpre, hpost⟩
    refine ⟨isDotted_iff_dottedRun.mp hname, fun u v hu hv hrun => ?_⟩
    have hv' : v = [] := by
      rw [← List.append_assoc] at hrun
      exact hrun.eq_nil_of_ends hv hpost
    subst hv'
    have hu' : u.reverse = [] := by
      have hreverse : DottedRun (name.reverse ++ u.reverse) := by
        rw [← List.reverse_append]
        simpa using hrun.reverse
      exact hreverse.eq_nil_of_ends (List.reverse_prefix.mpr hu) hpre
    exact ⟨by simpa using hu', rfl⟩

end DocRefs
