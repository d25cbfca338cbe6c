import Mathlib
import DocRefs.Proofs.Exchange

/-!
# Where tags stand

The doc comments of a text and the tags of a comment, said without the searches: a comment begins
where everything in front of it is read, and a tag stands wherever its word does and no identifier
touches it. The searches find all of them, in order.
-/

namespace DocRefs

open DocComment (IsWhole)

/-! ## Comments -/

/-- The text ends between comments. Read from the left, it is made of whole comments, of empty plain
ones, and of characters at which no comment opens. -/
inductive BetweenComments : Text → Prop
  | nil : BetweenComments []
  | char {c : Char} {t : Text} (hopen : ¬['/', '*', '*'] <+: c :: t) (h : BetweenComments t) :
      BetweenComments (c :: t)
  | block {t : Text} (h : BetweenComments t) : BetweenComments ('/' :: '*' :: '*' :: '/' :: t)
  | comment {d t : Text} (hd : IsWhole d) (h : BetweenComments t) : BetweenComments (d ++ t)

namespace DocComment

theorem exists_between_of_mem_scanFrom {offset : Nat} {t : Text} {c : DocComment}
    (hc : c ∈ scanFrom offset t) :
    ∃ pre post, t = pre ++ (c.text ++ post) ∧ BetweenComments pre ∧
      c.start = offset + pre.length := by
  fun_induction scanFrom offset t with
  | case1 => simp at hc
  | case2 offset rest ih =>
      obtain ⟨pre, post, rfl, hpre, hstart⟩ := ih hc
      refine ⟨'/' :: '*' :: '*' :: '/' :: pre, post, rfl, .block hpre, ?_⟩
      simp only [hstart, List.length_cons]
      omega
  | case3 => simp at hc
  | case4 offset rest hslash body after hcut _ text ih =>
      have hrest : '/' :: '*' :: '*' :: rest = text ++ after := by
        simp [text, Text.eq_of_cut? hcut]
      rw [hrest]
      rcases List.mem_cons.mp hc with rfl | hc
      · exact ⟨[], after, rfl, .nil, rfl⟩
      · obtain ⟨pre, post, rfl, hpre, hstart⟩ := ih hc
        refine ⟨text ++ pre, post, by simp, .comment (isWhole_of_cut? hslash hcut) hpre, ?_⟩
        simp only [hstart, List.length_append]
        omega
  | case5 offset d rest hblock hcomment ih =>
      obtain ⟨pre, post, rfl, hpre, hstart⟩ := ih hc
      refine ⟨d :: pre, post, rfl, .char ?_ hpre, ?_⟩
      · rintro ⟨t, ht⟩
        obtain ⟨rfl, rfl⟩ : '/' = d ∧ '*' :: '*' :: t = pre := by simpa using ht
        exact hcomment _ rfl rfl
      · simp only [hstart, List.length_cons]
        omega

theorem mem_scanFrom_of_between {pre d : Text} (hd : IsWhole d) (hpre : BetweenComments pre)
    (offset : Nat) (post : Text) :
    ⟨offset + pre.length, offset + pre.length + d.length, d⟩ ∈
      scanFrom offset (pre ++ (d ++ post)) := by
  induction hpre generalizing offset with
  | nil =>
      rw [List.nil_append, scanFrom_append_of_isWhole hd]
      exact List.mem_cons_self
  | @char c t hopen _ ih =>
      have hnot : ¬(c = '/' ∧ (t ++ (d ++ post)).take 2 = ['*', '*']) := by
        rintro ⟨rfl, htake⟩
        -- The stars would have to stand in front of the comment.
        match t with
        | [] =>
            obtain ⟨u, rfl, -⟩ := hd
            simp at htake
        | [x] =>
            obtain ⟨u, rfl, -⟩ := hd
            simp at htake
        | x :: y :: t =>
            obtain ⟨rfl, rfl⟩ : x = '*' ∧ y = '*' := by simpa using htake
            exact hopen ⟨t, rfl⟩
      rw [List.cons_append, scanFrom_cons hnot]
      have hmem := ih (offset + 1)
      rwa [List.length_cons, ← Nat.add_assoc, Nat.add_right_comm]
  | @block t _ ih =>
      have hmem := ih (offset + 4)
      rw [List.cons_append, List.cons_append, List.cons_append, List.cons_append, scanFrom]
      simp only [List.length_cons]
      convert hmem using 2 <;> omega
  | @comment e t he _ ih =>
      rw [List.append_assoc, scanFrom_append_of_isWhole he]
      have hmem := ih (offset + e.length)
      rw [List.length_append, ← Nat.add_assoc]
      exact List.mem_cons_of_mem _ hmem

/-- The comments of a text are the whole comments between comments. -/
theorem mem_scan_iff {t : Text} {c : DocComment} :
    c ∈ scan t ↔ ∃ pre post, t = pre ++ (c.text ++ post) ∧ BetweenComments pre ∧ IsWhole c.text ∧
      c = ⟨pre.length, pre.length + c.text.length, c.text⟩ := by
  constructor
  · intro hc
    obtain ⟨pre, post, ht, hpre, hstart⟩ := exists_between_of_mem_scanFrom hc
    obtain ⟨-, -, -, -, hstop⟩ := (tile_scanFrom 0 t).exists_of_mem (List.mem_map_of_mem hc)
    refine ⟨pre, post, ht, hpre, isWhole_of_mem_scanFrom hc, ?_⟩
    rw [Nat.zero_add] at hstart
    rcases c with ⟨start, stop, d⟩
    simp only [piece] at hstart hstop ⊢
    rw [hstop, hstart]
  · rintro ⟨pre, post, ht, hpre, hd, hspan⟩
    have hmem := mem_scanFrom_of_between hd hpre 0 post
    rw [Nat.zero_add, ← hspan, ← ht] at hmem
    exact hmem

end DocComment

/-! ## Tags -/

namespace Tag

variable {word t : Text}

theorem at?_eq_some_iff {before : Option Char} {offset : Nat} {tag : Tag} :
    at? word before offset t = some tag ↔ t = '@' :: (word ++ tag.rest) ∧
      before.any isIdentifierChar = false ∧ tag.rest.head?.any isIdentifierChar = false ∧
      tag.stop = offset + word.length + 1 := by
  constructor
  · intro h
    obtain ⟨rest, hafter, hrest⟩ := Option.bind_eq_some_iff.mp h
    split at hrest
    · simp at hrest
    next hbare =>
      obtain rfl := Option.some.inj hrest
      rw [Bool.not_eq_true, Bool.or_eq_false_iff] at hbare
      exact ⟨Text.after?_eq_some_iff.mp hafter, hbare.1, hbare.2, rfl⟩
  · rcases tag with ⟨stop, rest⟩
    rintro ⟨rfl, hbefore, hbehind, rfl⟩
    rw [at?_append, hbefore, hbehind]
    rfl

theorem mem_scanFrom_iff (hword : '@' ∉ word) {before : Text} {tag : Tag} :
    tag ∈ scanFrom word before.head? before.length t ↔
      ∃ front, t = front ++ '@' :: (word ++ tag.rest) ∧
        (front.reverse ++ before).head?.any isIdentifierChar = false ∧
        tag.rest.head?.any isIdentifierChar = false ∧
        tag.stop = (front.reverse ++ before).length + word.length + 1 := by
  induction t generalizing before with
  | nil => simp [scanFrom]
  | cons c t ih =>
      rw [scanFrom_cons hword, List.mem_append, ih, Option.mem_toList, at?_eq_some_iff]
      constructor
      · rintro (⟨hfront, hbare⟩ | ⟨front, rfl, hbefore, hbehind, hstop⟩)
        · exact ⟨[], hfront, hbare⟩
        · exact ⟨c :: front, rfl, by simpa using hbefore, hbehind, by simpa using hstop⟩
      · rintro ⟨front, hfront, hbefore, hbehind, hstop⟩
        cases front with
        | nil => exact .inl ⟨hfront, hbefore, hbehind, hstop⟩
        | cons d front =>
            obtain ⟨rfl, rfl⟩ : c = d ∧ t = front ++ '@' :: (word ++ tag.rest) := by
              simpa using hfront
            exact .inr ⟨front, rfl, by simpa using hbefore, hbehind, by simpa using hstop⟩

/-- The tags are found from left to right. -/
theorem pairwise_scanFrom (hword : '@' ∉ word) (before : Text) :
    (scanFrom word before.head? before.length t).Pairwise fun a b => a.stop < b.stop := by
  induction t generalizing before with
  | nil => simp [scanFrom]
  | cons c t ih =>
      rw [scanFrom_cons hword, List.pairwise_append]
      refine ⟨?_, ih (c :: before), fun tag hat tag' htag' => ?_⟩
      · cases at? word before.head? before.length (c :: t) with
        | none => exact .nil
        | some tag => exact List.pairwise_singleton _ tag
      · obtain ⟨-, -, -, hstop⟩ := at?_eq_some_iff.mp (Option.mem_toList.mp hat)
        obtain ⟨front, -, -, -, hstop'⟩ := (mem_scanFrom_iff hword).mp htag'
        simp only [hstop, hstop', List.length_append, List.length_cons]
        omega

/-- The tags of a text are its words behind an at sign that no identifier touches. -/
theorem mem_scan_iff (hword : '@' ∉ word) {tag : Tag} :
    tag ∈ scan word t ↔ ∃ front, t = front ++ '@' :: (word ++ tag.rest) ∧
      front.getLast?.any isIdentifierChar = false ∧ tag.rest.head?.any isIdentifierChar = false ∧
      tag.stop = front.length + word.length + 1 := by
  have hmem : tag ∈ scanFrom word ([] : Text).head? ([] : Text).length t ↔ _ :=
    mem_scanFrom_iff hword
  simpa [scan] using hmem

/-- A tag stands alone in a comment of `t`: it ends at offset `k`, and `rest` follows it in the
comment. -/
def StandsAlone (word t : Text) (k : Nat) (rest : Text) : Prop :=
  ∃ pre front post, t = pre ++ ((front ++ '@' :: (word ++ rest)) ++ post) ∧ BetweenComments pre ∧
    IsWhole (front ++ '@' :: (word ++ rest)) ∧
    front.getLast?.any isIdentifierChar = false ∧ rest.head?.any isIdentifierChar = false ∧
    k = pre.length + (front.length + word.length + 1)

/-- The tags in the comments of a text: where each ends, and what follows it in its comment. -/
def inText (word t : Text) : List (Nat × Text) :=
  (inComments (scan word) t).map fun r => (r.1 + r.2.stop, r.2.rest)

theorem mem_inText_iff (hword : '@' ∉ word) {k : Nat} {rest : Text} :
    (k, rest) ∈ inText word t ↔ StandsAlone word t k rest := by
  simp only [inText, inComments, List.mem_map, List.mem_flatMap]
  constructor
  · rintro ⟨-, ⟨c, hc, tag, htag, rfl⟩, heq⟩
    obtain ⟨rfl, rfl⟩ := Prod.mk.inj heq
    obtain ⟨pre, post, ht, hpre, hd, hspan⟩ := DocComment.mem_scan_iff.mp hc
    obtain ⟨front, hfront, hbefore, hbehind, hstop⟩ := (mem_scan_iff hword).mp htag
    rw [hfront] at ht hd
    exact ⟨pre, front, post, ht, hpre, hd, hbefore, hbehind, by rw [hspan, hstop]⟩
  · rintro ⟨pre, front, post, ht, hpre, hd, hbefore, hbehind, rfl⟩
    refine ⟨(pre.length, ⟨front.length + word.length + 1, rest⟩), ⟨⟨pre.length,
      pre.length + (front ++ '@' :: (word ++ rest)).length, front ++ '@' :: (word ++ rest)⟩,
      ?_, ⟨front.length + word.length + 1, rest⟩, ?_, rfl⟩, rfl⟩
    · exact DocComment.mem_scan_iff.mpr ⟨pre, post, ht, hpre, hd, rfl⟩
    · exact (mem_scan_iff hword).mpr ⟨front, rfl, hbefore, hbehind, rfl⟩

/-- The tags of a text are in order. -/
theorem pairwise_inText (hword : '@' ∉ word) (t : Text) :
    (inText word t).Pairwise fun a b => a.1 < b.1 := by
  rw [inText, List.pairwise_map, inComments, List.pairwise_flatMap]
  constructor
  · intro c _
    rw [List.pairwise_map]
    exact (pairwise_scanFrom hword []).imp fun h => Nat.add_lt_add_left h c.start
  · refine (DocComment.pairwise_scan t).imp_of_mem fun {c c'} hc _ hle r hr r' hr' => ?_
    obtain ⟨tag, htag, rfl⟩ := List.mem_map.mp hr
    obtain ⟨tag', htag', rfl⟩ := List.mem_map.mp hr'
    obtain ⟨front, hfront, -, -, hstop⟩ := (mem_scan_iff hword).mp htag
    obtain ⟨front', -, -, -, hstop'⟩ := (mem_scan_iff hword).mp htag'
    obtain ⟨hspan, -⟩ := (DocComment.tile_scanFrom 0 t).span_of_mem (List.mem_map_of_mem hc)
    have hlength := congrArg List.length hfront
    simp only [DocComment.piece] at hspan
    simp only [List.length_append, List.length_cons] at hlength
    show c.start + tag.stop < c'.start + tag'.stop
    omega

end Tag

end DocRefs
