import Mathlib
import DocRefs.Proofs.References
import DocRefs.Session.Passes

/-!
# Bare words in the slots of a comment

The words that a comment's slots hold are pieces of the comment. Each is a dotted identifier, and it
stands bare: no identifier, qualifier or key claims it, whatever text stands around the comment.
Qualifying is splicing at these pieces.
-/

namespace DocRefs

theorem Text.eq_of_cut?_singleton {c : Char} {t before rest : Text}
    (h : Text.cut? [c] t = some (before, rest)) : t = before ++ c :: rest := by
  rw [Text.eq_of_cut? h, List.append_assoc, List.singleton_append]

theorem Text.startsWith_iff {t p : Text} : Text.startsWith t p = true ↔ p <+: t := by
  rw [Text.startsWith, Option.isSome_iff_exists]
  constructor
  · intro h
    rcases h with ⟨rest, hrest⟩
    exact ⟨rest, (Text.after?_eq_some_iff.mp hrest).symm⟩
  · intro h
    rcases h with ⟨rest, rfl⟩
    exact ⟨rest, Text.after?_eq_some_iff.mpr rfl⟩

/-- What does not hold a character begins a text in front of it, or not at all. -/
theorem Text.prefix_append_cons_iff {x : Char} {w : Text} (hx : x ∉ w) (u z : Text) :
    w <+: u ++ x :: z ↔ w <+: u := by
  induction u generalizing w with
  | nil =>
      cases w with
      | nil => simp
      | cons d w =>
          rw [List.mem_cons, not_or] at hx
          simp [Ne.symm hx.1]
  | cons c u ih =>
      cases w with
      | nil => simp
      | cons d w =>
          rw [List.mem_cons, not_or] at hx
          rw [List.cons_append, List.cons_prefix_cons, List.cons_prefix_cons, ih hx.2]

/-- A dotted identifier that is no part of a larger word, reference or key: `pre` stands in front of
it and `post` behind it. -/
structure Bare (pre name post : Text) : Prop where
  dotted : IsDotted name
  ends : Ends post
  key : post.head? ≠ some ':'
  front : pre.getLast?.any isIdentifierChar = false
  qualifier : pre.getLast?.any TypeWord.isQualifier = true → ['.', '.', '.'] <:+ pre

/-- An identifier ends in front of a character that does not go on with it. -/
theorem Ends.append_cons {t : Text} (h : Ends t) {x : Char} (hx : isIdentifierChar x = false)
    (hdot : x ≠ '.') (rest : Text) : Ends (t ++ x :: rest) := by
  cases t with
  | nil => exact ⟨hx, fun heq => absurd heq hdot⟩
  | cons c t =>
      cases t with
      | nil => exact ⟨h.1, fun _ => hx⟩
      | cons d t => exact h

/-- A bare word of a slot is bare in every text that has the slot. -/
theorem Bare.in_slot {pre name post : Text} (h : Bare pre name post) (a b : Text) :
    Bare (a ++ '{' :: pre) name (post ++ '}' :: b) := by
  have hlast : (a ++ '{' :: pre).getLast? = pre.getLast?.or (some '{') := by
    rw [List.getLast?_append, List.getLast?_cons]
    cases pre.getLast? <;> rfl
  refine ⟨h.dotted, h.ends.append_cons rfl (by decide) b, ?_, ?_, ?_⟩
  · cases post with
    | nil => simp
    | cons c post => simpa using h.key
  · rw [hlast]
    cases hpre : pre.getLast? with
    | none => rfl
    | some c => simpa [hpre] using h.front
  · rw [hlast]
    intro hqualifier
    cases hpre : pre.getLast? with
    | none => simp [hpre, TypeWord.isQualifier] at hqualifier
    | some c =>
        have hspread := h.qualifier (by simpa [hpre] using hqualifier)
        exact hspread.trans ((List.suffix_cons '{' pre).trans (List.suffix_append a _))

namespace TypeSlot

/-- The slot as a piece of the text around it. -/
def piece (slot : TypeSlot) : Piece := ⟨slot.start, slot.stop, slot.body⟩

theorem tile_scanFrom (offset : Nat) (t : Text) :
    Piece.Tile offset t ((scanFrom offset t).map piece) := by
  fun_induction scanFrom offset t with
  | case1 => trivial
  | case2 => trivial
  | case3 offset cs body rest hcut _ ih =>
      rw [Text.eq_of_cut?_singleton hcut]
      refine ⟨['{'], '}' :: rest, rfl, rfl, rfl, ?_⟩
      rw [← List.singleton_append]
      apply Piece.Tile.skip
      rwa [List.length_singleton, piece,
        show offset + 1 + body.length + 1 = offset + body.length + 2 by omega]
  | case4 offset c cs _ ih =>
      rw [← List.singleton_append]
      exact ih.skip

/-- Every slot found stands between its braces. -/
theorem braces_of_mem_scanFrom {offset : Nat} {t : Text} {slot : TypeSlot}
    (hslot : slot ∈ scanFrom offset t) :
    ∃ a b, t = a ++ '{' :: (slot.body ++ '}' :: b) ∧ slot.start = offset + (a.length + 1) := by
  fun_induction scanFrom offset t with
  | case1 => simp at hslot
  | case2 => simp at hslot
  | case3 offset cs body rest hcut _ ih =>
      rw [Text.eq_of_cut?_singleton hcut]
      rcases List.mem_cons.mp hslot with rfl | hslot
      · exact ⟨[], rest, rfl, rfl⟩
      · obtain ⟨a, b, rfl, hstart⟩ := ih hslot
        refine ⟨'{' :: (body ++ '}' :: a), b, by simp, ?_⟩
        rw [hstart]
        simp only [List.length_cons, List.length_append]
        omega
  | case4 offset c cs _ ih =>
      obtain ⟨a, b, rfl, hstart⟩ := ih hslot
      refine ⟨c :: a, b, rfl, ?_⟩
      rw [hstart, List.length_cons]
      omega

end TypeSlot

namespace TypeWord

/-- The word as a piece of the text around it. -/
def piece (w : TypeWord) : Piece := ⟨w.start, w.stop, w.token⟩

/-- The word `k` characters further on. -/
def shift (k : Nat) (w : TypeWord) : TypeWord := ⟨k + w.start, k + w.stop, w.token⟩

theorem isIdentifierChar_of_isQuote {c : Char} (h : isQuote c = true) :
    isIdentifierChar c = false := by
  simp only [isQuote, Bool.or_eq_true, decide_eq_true_eq] at h
  rcases h with (rfl | rfl) | rfl <;> rfl

theorem dotted_ne_nil {c : Char} (hc : isIdentifierChar c = true) (cs : Text) :
    (dotted (c :: cs)).1 ≠ [] := by
  simp [dotted, hc]

theorem tile_scanFrom (before : Text) (offset : Nat) (t : Text) :
    Piece.Tile offset t ((scanFrom before offset t).map piece) := by
  fun_induction scanFrom before offset t with
  | case1 => trivial
  | case2 => trivial
  | case3 before offset c cs _ quoted rest hcut _ ih =>
      rw [Text.eq_of_cut?_singleton hcut,
        show c :: (quoted ++ c :: rest) = (c :: (quoted ++ [c])) ++ rest by simp]
      apply Piece.Tile.skip
      rwa [show offset + (c :: (quoted ++ [c])).length = offset + quoted.length + 2 by
        simp; omega]
  | case4 before offset c cs _ _ p _ stop more _ ih =>
      exact ⟨[], p.2, (dotted_append (c :: cs)).symm, rfl, rfl, ih⟩
  | case5 before offset c cs _ _ p _ stop more _ ih =>
      rw [← dotted_append (c :: cs)]
      exact ih.skip
  | case6 before offset c cs _ _ ih =>
      rw [← List.singleton_append]
      exact ih.skip

/-- A word stands bare in a text, which stands at `offset` behind the characters `before`. -/
def StandsBare (before : Text) (offset : Nat) (t : Text) (w : TypeWord) : Prop :=
  ∃ pre post, t = pre ++ (w.token ++ post) ∧ w.start = offset + pre.length ∧
    Bare (before.reverse ++ pre) w.token post

theorem StandsBare.skip {before front t : Text} {offset : Nat} {w : TypeWord}
    (h : StandsBare (front.reverse ++ before) (offset + front.length) t w) :
    StandsBare before offset (front ++ t) w := by
  obtain ⟨pre, post, rfl, hstart, hbare⟩ := h
  refine ⟨front ++ pre, post, by simp, ?_, by simpa using hbare⟩
  rw [hstart, List.length_append, Nat.add_assoc]

/-- Every word found is bare in the text read. The text must not go on with the identifier that
`before` ends with. -/
theorem bare_of_mem_scanFrom {before : Text} {offset : Nat} {t : Text} {w : TypeWord}
    (hbefore : before.head?.any isIdentifierChar = true → t.head?.any isIdentifierChar = false)
    (hw : w ∈ scanFrom before offset t) : StandsBare before offset t w := by
  fun_induction scanFrom before offset t with
  | case1 => simp at hw
  | case2 => simp at hw
  | case3 before offset c cs hquote quoted rest hcut _ ih =>
      have hc := isIdentifierChar_of_isQuote hquote
      have hcs : c :: cs = (c :: (quoted ++ [c])) ++ rest := by
        rw [Text.eq_of_cut?_singleton hcut]
        simp
      rw [hcs]
      apply StandsBare.skip
      simpa [Nat.add_assoc] using ih (fun h => by simp [hc] at h) hw
  | case4 before offset c cs hquote hc p _ stop more hbare ih =>
      have hne := dotted_ne_nil hc cs
      rw [← dotted_append (c :: cs)]
      rcases List.mem_cons.mp hw with rfl | hw
      · refine ⟨[], p.2, rfl, rfl, ?_⟩
        simp only [isBare, Bool.and_eq_true, bne_iff_ne, Bool.or_eq_true] at hbare
        obtain ⟨⟨_, hqualifier⟩, hkey⟩ := hbare
        refine ⟨isDotted_dotted hne, ends_dotted hne, hkey, ?_, ?_⟩
        · by_contra hident
          rw [List.append_nil, List.getLast?_reverse, Bool.not_eq_false] at hident
          simpa [hc] using hbefore hident
        · rw [List.append_nil, List.getLast?_reverse]
          intro hhead
          rw [hhead] at hqualifier
          have hspread : ['.', '.', '.'] <+: before :=
            Text.startsWith_iff.mp (hqualifier.resolve_left (by simp))
          exact List.reverse_suffix.mpr hspread
      · exact (ih (fun _ => (ends_dotted hne).head) hw).skip
  | case5 before offset c cs hquote hc p _ stop more _ ih =>
      -- The word is claimed by what stands around it; behind it no identifier goes on.
      rw [← dotted_append (c :: cs)]
      exact (ih (fun _ => (ends_dotted (dotted_ne_nil hc cs)).head) hw).skip
  | case6 before offset c cs _ hc ih =>
      rw [← List.singleton_append]
      exact (ih (fun h => by simp [hc] at h) hw).skip

end TypeWord

/-! ## The words of a comment -/

/-- The bare words in the slots of a text that stands at `offset`. -/
def slotWords (offset : Nat) (t : Text) : List TypeWord :=
  (TypeSlot.scanFrom offset t).flatMap fun slot =>
    (TypeWord.scan slot.body).map (TypeWord.shift slot.start)

theorem tile_slotWords (offset : Nat) (t : Text) :
    Piece.Tile offset t ((slotWords offset t).map TypeWord.piece) := by
  rw [slotWords, List.map_flatMap]
  apply (TypeSlot.tile_scanFrom offset t).flatMap
  intro slot _
  have htile := (TypeWord.tile_scanFrom [] 0 slot.body).shift slot.start
  rw [List.map_map] at htile ⊢
  exact htile

/-- A word of a slot is bare, whatever text the slot's text is part of. -/
theorem bare_of_mem_slotWords {offset : Nat} {t : Text} {w : TypeWord}
    (hw : w ∈ slotWords offset t) :
    ∃ pre post, t = pre ++ (w.token ++ post) ∧ w.start = offset + pre.length ∧
      ∀ a b, Bare (a ++ pre) w.token (post ++ b) := by
  obtain ⟨slot, hslot, hw⟩ := List.mem_flatMap.mp hw
  obtain ⟨v, hv, rfl⟩ := List.mem_map.mp hw
  obtain ⟨a, b, rfl, hslotStart⟩ := TypeSlot.braces_of_mem_scanFrom hslot
  obtain ⟨pre, post, hbody, hstart, hbare⟩ :=
    TypeWord.bare_of_mem_scanFrom (fun h => by simp at h) hv
  refine ⟨a ++ '{' :: pre, post ++ '}' :: b, ?_, ?_, fun front behind => ?_⟩
  · rw [hbody]
    simp [TypeWord.shift]
  · simp only [TypeWord.shift, List.length_append, List.length_cons]
    omega
  · have hslotBare := hbare.in_slot (front ++ a) (b ++ behind)
    simpa [TypeWord.shift] using hslotBare

theorem isDotted_of_mem_slotWords {offset : Nat} {t : Text} {w : TypeWord}
    (hw : w ∈ slotWords offset t) : IsDotted w.token := by
  obtain ⟨pre, post, -, -, hbare⟩ := bare_of_mem_slotWords hw
  exact (hbare [] []).dotted

/-- What a word becomes when a module declares `names`. -/
def qualifiedWord? (id : Text) (names : List Text) (w : TypeWord) : Option Text :=
  if names.contains w.token then some (moduleReference id (some w.token)) else none

theorem qualifications_eq (id : Text) (names : List Text) (comment : Text) :
    qualifications id names comment =
      (slotWords 0 comment).filterMap fun w =>
        (qualifiedWord? id names w).map (Replacement.mk w.piece.start w.piece.stop) := by
  rw [qualifications, slotWords, List.filterMap_flatMap]
  congr 1
  funext slot
  rw [List.filterMap_map, ← List.filterMap_eq_map, List.filterMap_filter]
  congr 1
  funext w
  by_cases hw : w.token ∈ names <;> simp [qualifiedWord?, TypeWord.shift, TypeWord.piece, hw]

/-- A comment with the words among `names` qualified. -/
def qualifiedComment (id : Text) (names : List Text) (comment : Text) : Text :=
  Text.weave (Piece.gaps 0 comment ((slotWords 0 comment).map TypeWord.piece))
    ((slotWords 0 comment).map fun w => (qualifiedWord? id names w).getD w.token)

theorem splice_qualifications (id : Text) (names : List Text) (comment : Text) :
    Replacement.splice comment (qualifications id names comment) =
      qualifiedComment id names comment := by
  rw [qualifications_eq]
  exact Replacement.splice_tile (tile_slotWords 0 comment)
    (fun w hw => (isDotted_of_mem_slotWords hw).1) _

end DocRefs
