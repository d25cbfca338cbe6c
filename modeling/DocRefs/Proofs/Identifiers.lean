import Mathlib
import DocRefs.Comment.Slot

/-!
# Dotted identifiers

What the longest dotted identifier at the start of a text looks like, and where it stops: it begins
and ends with an identifier character, its dots stand alone, and it can be cut off and put in front
of any other text at which no identifier goes on.
-/

namespace DocRefs

@[simp] theorem isIdentifierChar_dot : isIdentifierChar '.' = false := rfl

theorem ne_of_isIdentifierChar {c d : Char} (hc : isIdentifierChar c = true)
    (hd : isIdentifierChar d = false) : c ≠ d := by
  rintro rfl
  simp [hc] at hd

/-- Whether no dotted identifier goes on at the start of a text: neither an identifier character
follows, nor a dot in front of one. -/
def Ends : Text → Prop
  | [] => True
  | c :: t => isIdentifierChar c = false ∧ (c = '.' → t.head?.any isIdentifierChar = false)

theorem ends_nil : Ends [] := trivial

theorem Ends.head {t : Text} (h : Ends t) : t.head?.any isIdentifierChar = false := by
  cases t with
  | nil => rfl
  | cons c t => exact h.1

theorem dottedTail_cons {c : Char} (hc : isIdentifierChar c = true) (cs : Text) :
    dottedTail (c :: cs) = (c :: (dottedTail cs).1, (dottedTail cs).2) := by
  rw [dottedTail.eq_def]
  simp [hc]

theorem dottedTail_dot_cons {d : Char} (hd : isIdentifierChar d = true) (ds : Text) :
    dottedTail ('.' :: d :: ds) = ('.' :: d :: (dottedTail ds).1, (dottedTail ds).2) := by
  rw [dottedTail.eq_def]
  simp [hd]

theorem dottedTail_of_ends {t : Text} (h : Ends t) : dottedTail t = ([], t) := by
  rw [dottedTail.eq_def]
  cases t with
  | nil => rfl
  | cons c t =>
      by_cases hdot : c = '.'
      · subst hdot
        cases t with
        | nil => rfl
        | cons d t =>
            have hd : isIdentifierChar d = false := h.2 rfl
            simp [hd]
      · simp [h.1, hdot]

theorem ends_dottedTail (t : Text) : Ends (dottedTail t).2 := by
  fun_induction dottedTail t with
  | case1 => trivial
  | case2 c cs hc p ih => exact ih
  | case3 => exact ⟨rfl, fun _ => rfl⟩
  | case4 d ds hd p _ ih => exact ih
  | case5 d ds hd _ => exact ⟨rfl, fun _ => by simpa using hd⟩
  | case6 c cs hc hdot => exact ⟨by simpa using hc, fun h => absurd h hdot⟩

theorem dottedTail_fst_append {rest : Text} (hrest : Ends rest) (t : Text) :
    dottedTail ((dottedTail t).1 ++ rest) = ((dottedTail t).1, rest) := by
  fun_induction dottedTail t with
  | case1 => exact dottedTail_of_ends hrest
  | case2 c cs hc p ih => rw [List.cons_append, dottedTail_cons hc, ih]
  | case3 => exact dottedTail_of_ends hrest
  | case4 d ds hd p _ ih => rw [List.cons_append, List.cons_append, dottedTail_dot_cons hd, ih]
  | case5 d ds hd _ => exact dottedTail_of_ends hrest
  | case6 c cs hc hdot => exact dottedTail_of_ends hrest

theorem dottedTail_chars (t : Text) :
    ∀ c ∈ (dottedTail t).1, isIdentifierChar c = true ∨ c = '.' := by
  fun_induction dottedTail t with
  | case1 => simp
  | case2 c cs hc p ih => simpa [hc] using ih
  | case3 => simp
  | case4 d ds hd p _ ih => simpa [hd] using ih
  | case5 d ds hd _ => simp
  | case6 c cs hc hdot => simp

/-- A dot of a dotted identifier has an identifier character behind it. -/
theorem dottedTail_dot (t : Text) {v : Text} :
    ∀ u, (dottedTail t).1 = u ++ '.' :: v → v.head?.any isIdentifierChar = true := by
  fun_induction dottedTail t with
  | case1 => simp
  | case2 c cs hc p ih =>
      intro u h
      cases u with
      | nil =>
          simp only [List.nil_append, List.cons.injEq] at h
          simp [h.1] at hc
      | cons d u =>
          simp only [List.cons_append, List.cons.injEq] at h
          exact ih u h.2
  | case3 => simp
  | case4 d ds hd p _ ih =>
      intro u h
      cases u with
      | nil =>
          simp only [List.nil_append, List.cons.injEq, true_and] at h
          simp [← h, hd]
      | cons e u =>
          cases u with
          | nil =>
              simp only [List.cons_append, List.nil_append, List.cons.injEq] at h
              simp [h.2.1] at hd
          | cons f u =>
              simp only [List.cons_append, List.cons.injEq] at h
              exact ih u h.2.2
  | case5 d ds hd _ => simp
  | case6 c cs hc hdot => simp

/-- Whether a text is a dotted identifier. -/
def IsDotted (name : Text) : Prop := name ≠ [] ∧ dotted name = (name, [])

theorem exists_dotted_cons {t : Text} (h : (dotted t).1 ≠ []) :
    ∃ c cs, t = c :: cs ∧ isIdentifierChar c = true ∧
      dotted t = (c :: (dottedTail cs).1, (dottedTail cs).2) := by
  cases t with
  | nil => simp [dotted] at h
  | cons c cs =>
      by_cases hc : isIdentifierChar c = true
      · exact ⟨c, cs, rfl, hc, by simp [dotted, hc]⟩
      · simp [dotted, hc] at h

theorem ends_dotted {t : Text} (h : (dotted t).1 ≠ []) : Ends (dotted t).2 := by
  obtain ⟨c, cs, rfl, hc, heq⟩ := exists_dotted_cons h
  rw [heq]
  exact ends_dottedTail cs

theorem isDotted_dotted {t : Text} (h : (dotted t).1 ≠ []) : IsDotted (dotted t).1 := by
  refine ⟨h, ?_⟩
  obtain ⟨c, cs, rfl, hc, heq⟩ := exists_dotted_cons h
  have htail : dottedTail ((dottedTail cs).1 ++ []) = ((dottedTail cs).1, []) :=
    dottedTail_fst_append ends_nil cs
  rw [List.append_nil] at htail
  simp [dotted, hc, htail]

namespace IsDotted

theorem exists_cons {name : Text} (h : IsDotted name) :
    ∃ c cs, name = c :: cs ∧ isIdentifierChar c = true ∧ dottedTail cs = (cs, []) := by
  have hne : (dotted name).1 ≠ [] := by
    rw [h.2]
    exact h.1
  obtain ⟨c, cs, rfl, hc, heq⟩ := exists_dotted_cons hne
  refine ⟨c, cs, rfl, hc, ?_⟩
  rw [h.2, Prod.mk.injEq, List.cons.injEq] at heq
  exact Prod.ext heq.1.2.symm heq.2.symm

/-- A dotted identifier is the longest one in front of a text at which no identifier goes on. -/
theorem dotted_append {name rest : Text} (h : IsDotted name) (hrest : Ends rest) :
    dotted (name ++ rest) = (name, rest) := by
  obtain ⟨c, cs, rfl, hc, htail⟩ := h.exists_cons
  have happend := dottedTail_fst_append hrest cs
  rw [htail] at happend
  simp [dotted, hc, happend]

theorem chars {name : Text} (h : IsDotted name) :
    ∀ c ∈ name, isIdentifierChar c = true ∨ c = '.' := by
  obtain ⟨c, cs, rfl, hc, htail⟩ := h.exists_cons
  have hcs := dottedTail_chars cs
  rw [htail] at hcs
  simpa [hc] using hcs

theorem notMem {name : Text} (h : IsDotted name) {c : Char} (hc : isIdentifierChar c = false)
    (hdot : c ≠ '.') : c ∉ name := by
  intro hmem
  rcases h.chars c hmem with hident | heq
  · simp [hc] at hident
  · exact hdot heq

/-- Behind a dot of a dotted identifier stands an identifier character, so no two dots touch. -/
theorem head_of_dot {name u v : Text} (h : IsDotted name) (hname : name = u ++ '.' :: v) :
    v.head?.any isIdentifierChar = true := by
  obtain ⟨c, cs, rfl, hc, htail⟩ := h.exists_cons
  cases u with
  | nil =>
      simp only [List.nil_append, List.cons.injEq] at hname
      simp [hname.1] at hc
  | cons d u =>
      simp only [List.cons_append, List.cons.injEq] at hname
      apply dottedTail_dot cs u
      rw [htail]
      exact hname.2

/-- The last character is an identifier character. -/
theorem getLast? {name : Text} (h : IsDotted name) :
    name.getLast?.any isIdentifierChar = true := by
  cases hlast : name.getLast? with
  | none => exact absurd (List.getLast?_eq_none_iff.mp hlast) h.1
  | some c =>
      obtain ⟨u, hu⟩ := List.getLast?_eq_some_iff.mp hlast
      rcases h.chars c (by simp [hu]) with hc | rfl
      · simpa using hc
      · simpa using h.head_of_dot (v := []) hu

end IsDotted

end DocRefs
