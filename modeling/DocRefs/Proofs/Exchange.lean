import Mathlib
import DocRefs.Comment.Tag
import DocRefs.Proofs.Rewriting

/-!
# Texts with parts exchanged

Linking and qualifying exchange parts of a comment and keep the characters between them. A new part
fits when it begins and ends as a word does and holds nothing that a search looks for. Then a search
for tags meets the same tags in both texts, with the same arguments, and a search for import
references finds in the new text none but those that were kept.
-/

namespace DocRefs

open ImportRef (opening readBody? readSymbol)

/-- Whether a character draws an identifier behind it to itself. -/
def isJoiner (c : Char) : Bool := isIdentifierChar c || c = '@'

/-- Whether a character is a brace. -/
def isBrace (c : Char) : Bool := c = '{' || c = '}'

/-- The last brace of a text, where `before` holds the text with its last character first. -/
def nearestBrace (before : Text) : Option Char := before.find? isBrace

/-- The word in front of the parenthesis that opens a reference. -/
def importWord : Text := ['i', 'm', 'p', 'o', 'r', 't']

/-- The words whose tags are looked for. -/
def tagWords : List Text := [moduleWord, typedefWord]

/-- Whether a text, given with its last character first, ends inside the quoted path of a
reference. -/
def isUnfinished (before : Text) : Bool :=
  match before.dropWhile isNameChar with
  | [] => false
  | q :: rest => ImportRef.isQuote q && Text.startsWith rest opening.reverse

/-- A reference can be read at the start of a text that stands behind `before`, whose last character
comes first. -/
def RefAt (before t raw : Text) (symbol : Option Text) : Prop :=
  before.head?.any isIdentifierChar = false ∧
    ∃ u b, t = opening ++ u ∧ readBody? u = some b ∧ b.raw = raw ∧ b.symbol = symbol

/-- A text that begins as an identifier does and holds nothing that a search looks for. -/
structure PlainPart (t : Text) : Prop where
  head : t.head?.any isIdentifierChar = true
  braces : ∀ c ∈ t, isBrace c = false
  tags : ∀ word ∈ tagWords, ¬ '@' :: word <:+: t
  opening : ¬opening <:+: t

/-- What lets `new` take the place of `old` between `before`, given with its last character first,
and `rest`. -/
structure Fits (before old new rest : Text) : Prop where
  front : before.head?.any isJoiner = false
  head : (old ++ rest).head?.any isIdentifierChar = true
  braces : ∀ c ∈ old, isBrace c = false
  tags : ∀ word ∈ tagWords, ¬ '@' :: word <:+: old
  plain : PlainPart new
  /-- Nothing that `new` ends with goes on in `rest`. -/
  tail : (old = [] ∧ new.getLast? = some '~') ∨
    (rest.head?.any isIdentifierChar = false ∧ (rest.head? = some '(' → ¬importWord <:+ new) ∧
      (rest.head? = some '@' →
        old.getLast?.any isIdentifierChar = new.getLast?.any isIdentifierChar))
  /-- A path that was begun in front of `new` is not closed by it. -/
  path : moduleMark <+: new ∨ isUnfinished before = false

/-- The fourth text is the third one with parts exchanged that fit. The first two are what stands in
front of these, with the last character first. `keeps` holds of every reference that can be read at
a character kept, and `swaps` of the place and the old text of every part exchanged. -/
inductive Exchanged (keeps : Text → Option Text → Prop) (swaps : Text → Text → Prop) :
    Text → Text → Text → Text → Prop
  | nil (before before' : Text) : Exchanged keeps swaps before before' [] []
  | keep {before before' t t' : Text} (c : Char)
      (hrefs : ∀ raw symbol, RefAt before (c :: t) raw symbol → keeps raw symbol)
      (h : Exchanged keeps swaps (c :: before) (c :: before') t t') :
      Exchanged keeps swaps before before' (c :: t) (c :: t')
  | swap {before before' t t' u u' : Text} (old new : Text) (hfits : Fits before old new t)
      (hswap : swaps before old) (hu : u = old ++ t) (hu' : u' = new ++ t')
      (h : Exchanged keeps swaps (old.reverse ++ before) (new.reverse ++ before') t t') :
      Exchanged keeps swaps before before' u u'

theorem isIdentifierChar_of_isBlank {c : Char} (h : Text.isBlank c = true) :
    isIdentifierChar c = false := by
  have hcodes : ∀ n ∈ Text.blankRanges.flatMap fun r => List.range' r.1 (r.2 + 1 - r.1),
      isIdentifierChar (Char.ofNat n) = false := by
    decide +kernel
  obtain ⟨r, hr, hle, hge⟩ := Text.inRanges_iff.mp h
  rw [← Char.ofNat_toNat c]
  apply hcodes
  rw [List.mem_flatMap]
  refine ⟨r, hr, ?_⟩
  rw [List.mem_range'_1]
  omega

theorem isBrace_of_isIdentifierChar {c : Char} (h : isIdentifierChar c = true) :
    isBrace c = false := by
  simp [isBrace, ne_of_isIdentifierChar (d := '{') h rfl,
    ne_of_isIdentifierChar (d := '}') h rfl]

theorem Text.any_head?_append {P : Char → Bool} {t : Text} (h : t.head?.any P = true) (u : Text) :
    (t ++ u).head?.any P = true := by
  cases t with
  | nil => simp at h
  | cons c t => exact h

theorem nearestBrace_append {front : Text} (h : ∀ c ∈ front, isBrace c = false) (before : Text) :
    nearestBrace (front ++ before) = nearestBrace before := by
  have hnone : front.find? isBrace = none := by
    rw [List.find?_eq_none]
    intro c hc
    simp [h c hc]
  rw [nearestBrace, List.find?_append, hnone, Option.none_or, nearestBrace]

theorem nearestBrace_append_of_some {front : Text} {c : Char} (h : nearestBrace front = some c)
    (before : Text) : nearestBrace (front ++ before) = some c := by
  rw [nearestBrace] at h
  rw [nearestBrace, List.find?_append, h, Option.some_or]

namespace Exchanged

variable {keeps : Text → Option Text → Prop} {swaps : Text → Text → Prop}
  {before before' t t' w : Text}

theorem head_isIdentifierChar (h : Exchanged keeps swaps before before' t t') :
    t'.head?.any isIdentifierChar = t.head?.any isIdentifierChar := by
  cases h with
  | nil => rfl
  | keep => rfl
  | swap old new hfits _ hu hu' _ =>
      rw [hu, hu', hfits.head, Text.any_head?_append hfits.plain.head]

/-- Where no identifier begins, and behind a character that draws it to itself, nothing is
exchanged. -/
theorem kept (h : Exchanged keeps swaps before before' t t')
    (hkept : before.head?.any isJoiner = true ∨ t.head?.any isIdentifierChar = false ∨
      t'.head?.any isIdentifierChar = false) :
    (t = [] ∧ t' = []) ∨ ∃ c u u', t = c :: u ∧ t' = c :: u' ∧
      Exchanged keeps swaps (c :: before) (c :: before') u u' := by
  cases h with
  | nil => exact .inl ⟨rfl, rfl⟩
  | keep c _ h => exact .inr ⟨c, _, _, rfl, rfl, h⟩
  | swap old new hfits _ hu hu' h =>
      exfalso
      rcases hkept with hfront | hhead | hhead
      · rw [hfits.front] at hfront
        exact Bool.false_ne_true hfront
      · rw [hu, hfits.head] at hhead
        exact Bool.false_ne_true hhead.symm
      · rw [hu', Text.any_head?_append hfits.plain.head] at hhead
        exact Bool.false_ne_true hhead.symm

/-- A character that begins no identifier stands in both texts or in none. -/
theorem kept_char {c : Char} (hc : isIdentifierChar c = false)
    (h : Exchanged keeps swaps before before' t t')
    (hhead : t.head? = some c ∨ t'.head? = some c) :
    ∃ u u', t = c :: u ∧ t' = c :: u' ∧
      Exchanged keeps swaps (c :: before) (c :: before') u u' := by
  have hident : t.head?.any isIdentifierChar = false ∨ t'.head?.any isIdentifierChar = false := by
    rcases hhead with hhead | hhead
    · exact .inl (by simp [hhead, hc])
    · exact .inr (by simp [hhead, hc])
  rcases h.kept (.inr hident) with ⟨rfl, rfl⟩ | ⟨d, u, u', rfl, rfl, hrest⟩
  · simp at hhead
  · obtain rfl : d = c := by simpa using hhead
    exact ⟨u, u', rfl, rfl, hrest⟩

/-- An identifier that goes on from the front stands in both texts or in none. -/
theorem kept_word (hw : ∀ c ∈ w, isIdentifierChar c = true)
    (h : Exchanged keeps swaps before before' t t')
    (hfront : before.head?.any isJoiner = true) (hword : w <+: t ∨ w <+: t') :
    ∃ u u', t = w ++ u ∧ t' = w ++ u' ∧
      Exchanged keeps swaps (w.reverse ++ before) (w.reverse ++ before') u u' := by
  induction w generalizing before before' t t' with
  | nil => exact ⟨t, t', rfl, rfl, h⟩
  | cons c w ih =>
      obtain ⟨hc, hw⟩ := List.forall_mem_cons.mp hw
      rcases h.kept (.inl hfront) with ⟨rfl, rfl⟩ | ⟨d, u, u', rfl, rfl, hrest⟩
      · simp at hword
      · rw [List.cons_prefix_cons, List.cons_prefix_cons] at hword
        obtain rfl : c = d := hword.elim And.left And.left
        have hnext : (c :: before).head?.any isJoiner = true := by simp [isJoiner, hc]
        obtain ⟨v, v', rfl, rfl, hbehind⟩ :=
          ih hw hrest hnext (hword.imp And.right And.right)
        exact ⟨v, v', rfl, rfl, by simpa using hbehind⟩

/-- The start of a tag stands in both texts or in none. -/
theorem kept_tag (hw : ∀ c ∈ w, isIdentifierChar c = true)
    (h : Exchanged keeps swaps before before' t t') (htag : '@' :: w <+: t ∨ '@' :: w <+: t') :
    ∃ u u', t = '@' :: (w ++ u) ∧ t' = '@' :: (w ++ u') ∧
      Exchanged keeps swaps (w.reverse ++ '@' :: before) (w.reverse ++ '@' :: before') u u' := by
  have hhead : t.head? = some '@' ∨ t'.head? = some '@' := by
    rcases htag with ⟨rest, rfl⟩ | ⟨rest, rfl⟩
    · exact .inl rfl
    · exact .inr rfl
  obtain ⟨u, u', rfl, rfl, hrest⟩ := kept_char rfl h hhead
  simp only [List.cons_prefix_cons, true_and] at htag
  obtain ⟨v, v', rfl, rfl, hbehind⟩ := kept_word hw hrest rfl htag
  exact ⟨v, v', rfl, rfl, hbehind⟩

end Exchanged

/-! ## Tags -/

namespace Tag

variable {word : Text}

/-- The tag at the start of a text, if there is one. -/
def at? (word : Text) (before : Option Char) (offset : Nat) (t : Text) : Option Tag :=
  (Text.after? ('@' :: word) t).bind fun rest =>
    if before.any isIdentifierChar || rest.head?.any isIdentifierChar then none
    else some ⟨offset + word.length + 1, rest⟩

theorem at?_eq_none {before : Option Char} {offset : Nat} {t : Text} (h : ¬ '@' :: word <+: t) :
    at? word before offset t = none := by
  cases hafter : Text.after? ('@' :: word) t with
  | none => rw [at?, hafter, Option.bind_none]
  | some rest => exact absurd ⟨rest, (Text.after?_eq_some_iff.mp hafter).symm⟩ h

theorem at?_append (before : Option Char) (offset : Nat) (rest : Text) :
    at? word before offset ('@' :: (word ++ rest)) =
      if before.any isIdentifierChar || rest.head?.any isIdentifierChar then none
      else some ⟨offset + word.length + 1, rest⟩ := by
  have hafter : Text.after? ('@' :: word) ('@' :: (word ++ rest)) = some rest :=
    Text.after?_eq_some_iff.mpr rfl
  rw [at?, hafter, Option.bind_some]

/-- A part of a text in which no tag begins is passed over. -/
theorem scanFrom_skip {p t : Text} (h : ∀ x y, p = x ++ y → y ≠ [] → ¬ '@' :: word <+: y ++ t)
    (before : Text) :
    scanFrom word before.head? before.length (p ++ t) =
      scanFrom word (p.reverse ++ before).head? (p.reverse ++ before).length t := by
  induction p generalizing before with
  | nil => rfl
  | cons c p ih =>
      have hhere : ¬ '@' :: word <+: c :: (p ++ t) := h [] (c :: p) rfl (by simp)
      rw [List.cons_append, scanFrom]
      split
      · have hrest := ih (fun x y hp hy => h (c :: x) y (by rw [hp, List.cons_append]) hy)
          (c :: before)
        simpa using hrest
      next rest hafter => exact absurd ⟨rest, (Text.after?_eq_some_iff.mp hafter).symm⟩ hhere

/-- The search looks at one character after the other. -/
theorem scanFrom_cons (hword : '@' ∉ word) (before : Text) (c : Char) (t : Text) :
    scanFrom word before.head? before.length (c :: t) =
      (at? word before.head? before.length (c :: t)).toList ++
        scanFrom word (c :: before).head? (c :: before).length t := by
  rw [scanFrom]
  split
  next hafter => simp [at?, hafter]
  next rest hafter =>
    have hsplit := Text.after?_eq_some_iff.mp hafter
    rw [List.cons_append, List.cons.injEq] at hsplit
    obtain ⟨rfl, rfl⟩ := hsplit
    have hskip := @scanFrom_skip word word rest (by
      rintro x y hxy hy hbegins
      obtain ⟨d, y, rfl⟩ := List.exists_cons_of_ne_nil hy
      rw [List.cons_append, List.cons_prefix_cons] at hbegins
      exact hword (by rw [hxy, ← hbegins.1]; simp)) ('@' :: before)
    have hlast : (word.reverse ++ '@' :: before).head? = ('@' :: word).getLast? := by
      rw [List.getLast?_cons, List.head?_append, List.head?_reverse]
      cases word.getLast? <;> rfl
    have hlength : (word.reverse ++ '@' :: before).length = before.length + word.length + 1 := by
      simp only [List.length_reverse, List.length_append, List.length_cons]
      omega
    rw [at?_append, hskip, hlast, hlength]
    dsimp only
    split <;> rfl

/-- What stands in front of the rest of a tag. -/
theorem reverse_take_stop (before rest : Text) :
    ((before.reverse ++ '@' :: (word ++ rest)).take (before.length + word.length + 1)).reverse =
      word.reverse ++ '@' :: before := by
  have hsplit : before.reverse ++ '@' :: (word ++ rest) =
      (word.reverse ++ '@' :: before).reverse ++ rest := by simp
  have hlength : before.length + word.length + 1 =
      (word.reverse ++ '@' :: before).reverse.length := by
    simp only [List.length_reverse, List.length_append, List.length_cons]
    omega
  rw [hsplit, hlength, List.take_left, List.reverse_reverse]

end Tag

theorem isIdentifierChar_of_mem_tagWords {word : Text} (hword : word ∈ tagWords) :
    ∀ c ∈ word, isIdentifierChar c = true := by
  have hall : ∀ w ∈ tagWords, w.all isIdentifierChar = true := by
    simp only [tagWords, List.forall_mem_cons]
    exact ⟨rfl, rfl, by simp⟩
  exact List.all_eq_true.mp (hall word hword)

theorem at_notMem_of_mem_tagWords {word : Text} (hword : word ∈ tagWords) : '@' ∉ word := by
  intro hmem
  exact absurd (isIdentifierChar_of_mem_tagWords hword _ hmem) (by decide)

/-- A tag that begins in a part of a text and not lies in it goes on behind it. -/
theorem goes_on_of_tag {word p t x y : Text} (hword : word ∈ tagWords) (hp : p = x ++ y)
    (hy : y ≠ []) (hbegins : '@' :: word <+: y ++ t) (hpart : ¬ '@' :: word <:+: p) :
    y <+: '@' :: word ∧ t.head?.any isIdentifierChar = true := by
  rcases List.prefix_or_prefix_of_prefix hbegins (List.prefix_append y t) with hle | hle
  · exact absurd (hle.isInfix.trans (hp ▸ (List.suffix_append x y).isInfix)) hpart
  · refine ⟨hle, ?_⟩
    obtain ⟨z, hz⟩ := hle
    obtain ⟨rest, hrest⟩ := hbegins
    rw [← hz, List.append_assoc] at hrest
    have ht : t = z ++ rest := (List.append_cancel_left hrest).symm
    cases z with
    | nil =>
        rw [List.append_nil] at hz
        exact absurd (hz ▸ hp ▸ (List.suffix_append x y).isInfix) hpart
    | cons c z =>
        obtain ⟨d, y, rfl⟩ := List.exists_cons_of_ne_nil hy
        rw [List.cons_append, List.cons.injEq] at hz
        have hc : c ∈ word := by simp [← hz.2]
        simpa [ht] using isIdentifierChar_of_mem_tagWords hword c hc

namespace Fits

variable {before old new rest rest' word : Text}

theorem no_tag_old (h : Fits before old new rest) (hword : word ∈ tagWords) {x y : Text}
    (hold : old = x ++ y) (hy : y ≠ []) : ¬ '@' :: word <+: y ++ rest := by
  intro hbegins
  obtain ⟨-, hhead⟩ := goes_on_of_tag hword hold hy hbegins (h.tags word hword)
  rcases h.tail with ⟨hnil, -⟩ | ⟨hrest, -⟩
  · rw [hnil] at hold
    exact hy (List.append_eq_nil_iff.mp hold.symm).2
  · simp [hrest] at hhead

theorem no_tag_new (h : Fits before old new rest) (hword : word ∈ tagWords)
    (hident : rest'.head?.any isIdentifierChar = rest.head?.any isIdentifierChar) {x y : Text}
    (hnew : new = x ++ y) (hy : y ≠ []) : ¬ '@' :: word <+: y ++ rest' := by
  intro hbegins
  obtain ⟨hle, hhead⟩ := goes_on_of_tag hword hnew hy hbegins (h.plain.tags word hword)
  rcases h.tail with ⟨-, htilde⟩ | ⟨hrest, -⟩
  · rw [hnew, List.getLast?_append_of_ne_nil _ hy] at htilde
    have hmem : '~' ∈ '@' :: word := hle.subset (List.mem_of_getLast? htilde)
    rcases List.mem_cons.mp hmem with heq | hmem
    · simp at heq
    · exact absurd (isIdentifierChar_of_mem_tagWords hword _ hmem) (by decide)
  · simp [hident, hrest] at hhead

/-- An at sign behind the parts begins a tag behind both or behind none of them. -/
theorem last_isIdentifierChar (h : Fits before old new rest) (hat : rest.head? = some '@')
    (x y : Text) : (new.reverse ++ x).head?.any isIdentifierChar =
      (old.reverse ++ y).head?.any isIdentifierChar := by
  have hold : old ≠ [] := by
    rintro rfl
    have hhead := h.head
    rw [List.nil_append, hat] at hhead
    exact absurd hhead (by decide)
  have hnew : new ≠ [] := by
    rintro rfl
    simpa using h.plain.head
  rcases h.tail with ⟨hnil, -⟩ | ⟨-, -, htail⟩
  · exact absurd hnil hold
  · rw [List.head?_append_of_ne_nil _ (by simpa using hnew),
      List.head?_append_of_ne_nil _ (by simpa using hold), List.head?_reverse,
      List.head?_reverse, htail hat]

end Fits

/-- Two tags at the same place of two texts: what stands behind them was exchanged, and the last
brace in front of them is the same. -/
structure Tag.Same (keeps : Text → Option Text → Prop) (swaps : Text → Text → Prop)
    (d d' : Text) (tag tag' : Tag) : Prop where
  brace : nearestBrace (d'.take tag'.stop).reverse = nearestBrace (d.take tag.stop).reverse
  rest : Exchanged keeps swaps (d.take tag.stop).reverse (d'.take tag'.stop).reverse
    tag.rest tag'.rest

namespace Exchanged

variable {keeps : Text → Option Text → Prop} {swaps : Text → Text → Prop}
  {before before' t t' d d' word : Text}

theorem forall₂_tags_from (hword : word ∈ tagWords)
    (h : Exchanged keeps swaps before before' t t') (hd : d = before.reverse ++ t)
    (hd' : d' = before'.reverse ++ t') (hbrace : nearestBrace before' = nearestBrace before)
    (hlevel : t.head? = some '@' →
      before'.head?.any isIdentifierChar = before.head?.any isIdentifierChar) :
    List.Forall₂ (Tag.Same keeps swaps d d') (Tag.scanFrom word before.head? before.length t)
      (Tag.scanFrom word before'.head? before'.length t') := by
  have hnot := at_notMem_of_mem_tagWords hword
  have hident := isIdentifierChar_of_mem_tagWords hword
  induction h with
  | nil => simp [Tag.scanFrom]
  | @keep before before' t t' c hrefs h ih =>
      have hrest := ih (by simpa using hd) (by simpa using hd')
        (by simp only [nearestBrace, List.find?_cons] at hbrace ⊢; rw [hbrace]) (fun _ => rfl)
      rw [Tag.scanFrom_cons hnot, Tag.scanFrom_cons hnot]
      -- A tag that begins in one of the texts begins in both, and its word is kept.
      by_cases htag : '@' :: word <+: c :: t ∨ '@' :: word <+: c :: t'
      · obtain ⟨u, u', hu, hu', hexchanged⟩ := kept_tag hident (.keep c hrefs h) htag
        have hat := hlevel (by rw [hu]; rfl)
        rw [hu, hu', Tag.at?_append, Tag.at?_append, hat, hexchanged.head_isIdentifierChar]
        split
        · exact hrest
        · have hplain : ∀ e ∈ word.reverse, isBrace e = false := by
            intro e he
            exact isBrace_of_isIdentifierChar (hident e (List.mem_reverse.mp he))
          refine .cons ⟨?_, ?_⟩ hrest
          · rw [hd, hd', hu, hu', Tag.reverse_take_stop, Tag.reverse_take_stop,
              nearestBrace_append hplain, nearestBrace_append hplain]
            exact hbrace
          · rw [hd, hd', hu, hu', Tag.reverse_take_stop, Tag.reverse_take_stop]
            exact hexchanged
      · rw [not_or] at htag
        rw [Tag.at?_eq_none htag.1, Tag.at?_eq_none htag.2]
        exact hrest
  | @swap before before' t t' u u' old new hfits hswap hu hu' h ih =>
      rw [hu, hu', Tag.scanFrom_skip fun x y hold hy => hfits.no_tag_old hword hold hy,
        Tag.scanFrom_skip fun x y hnew hy =>
          hfits.no_tag_new hword h.head_isIdentifierChar hnew hy]
      apply ih
      · rw [hd, hu]
        simp
      · rw [hd', hu']
        simp
      · rw [nearestBrace_append (by simpa using hfits.plain.braces),
          nearestBrace_append (by simpa using hfits.braces), hbrace]
      · exact fun hat => hfits.last_isIdentifierChar hat _ _

/-- The tags of both texts stand at the same places. -/
theorem forall₂_tags (hword : word ∈ tagWords) (h : Exchanged keeps swaps [] [] d d') :
    List.Forall₂ (Tag.Same keeps swaps d d') (Tag.scan word d) (Tag.scan word d') :=
  forall₂_tags_from hword h rfl rfl rfl fun _ => rfl

end Exchanged

/-! ## Arguments of tags -/

/-- What follows a brace group at the start of a text and the blanks behind the group. -/
def behindGroup? (blank : Char → Bool) (t : Text) : Option Text :=
  if t.head? = some '{' then (braceGroup? 0 t).map fun p => p.2.dropWhile blank else none

/-- Where the name of a module tag begins. -/
def modulePlace (rest : Text) : Text :=
  let t := rest.dropWhile Text.isSpaceOrTab
  (behindGroup? Text.isSpaceOrTab t).getD t

/-- Where the name of a type declaration begins. -/
def typedefPlace? (rest : Text) : Option Text :=
  behindGroup? Text.isBlank (rest.dropWhile Text.isBlank)

theorem moduleArgument_eq (rest : Text) :
    moduleArgument rest = (modulePlace rest).takeWhile isNameChar := by
  unfold moduleArgument modulePlace behindGroup?
  dsimp only
  congr 1
  split
  next u hu =>
    rw [hu, List.head?_cons, if_pos rfl]
    split
    next heq => rw [heq, Option.map_some, Option.getD_some]
    next heq => rw [heq, Option.map_none, Option.getD_none]
  next hbrace =>
    rw [if_neg, Option.getD_none]
    intro hhead
    obtain ⟨u, hu⟩ := List.head?_eq_some_iff.mp hhead
    exact hbrace u hu

theorem declaredType?_eq (rest : Text) :
    declaredType? rest = (typedefPlace? rest).bind fun t =>
      if (dotted t).1.isEmpty then none else some (dotted t).1 := by
  unfold declaredType? typedefPlace? behindGroup?
  split
  next u hu =>
    rw [hu, List.head?_cons, if_pos rfl]
    split
    next heq => rw [heq, Option.map_none, Option.bind_none]
    next heq => rw [heq, Option.map_some, Option.bind_some]
  next hbrace =>
    rw [if_neg, Option.bind_none]
    intro hhead
    obtain ⟨u, hu⟩ := List.head?_eq_some_iff.mp hhead
    exact hbrace u hu

theorem Ends.takeWhile {t : Text} (h : Ends t) : Ends (t.takeWhile isNameChar) := by
  cases t with
  | nil => exact h
  | cons c t =>
      rw [List.takeWhile_cons]
      split
      · refine ⟨h.1, fun hdot => ?_⟩
        have hnext := h.2 hdot
        cases t with
        | nil => rfl
        | cons d t =>
            rw [List.takeWhile_cons]
            split
            · exact hnext
            · rfl
      · exact ends_nil

/-- A dotted identifier lies in the run of name characters. -/
theorem dotted_takeWhile (t : Text) : (dotted (t.takeWhile isNameChar)).1 = (dotted t).1 := by
  by_cases hnil : (dotted t).1 = []
  · rw [hnil]
    rw [dotted_fst_eq_nil_iff] at hnil ⊢
    cases t with
    | nil => rfl
    | cons c t =>
        rw [List.takeWhile_cons]
        split
        · exact hnil
        · rfl
  · have hname : ∀ c ∈ (dotted t).1, isNameChar c = true := by
      intro c hc
      rcases (isDotted_dotted hnil).chars c hc with hident | rfl
      · exact isNameChar_of_isIdentifierChar hident
      · rfl
    have hsplit : t.takeWhile isNameChar =
        (dotted t).1 ++ (dotted t).2.takeWhile isNameChar := by
      rw [← List.takeWhile_append_of_pos hname, dotted_append]
    rw [hsplit, (isDotted_dotted hnil).dotted_append (ends_dotted hnil).takeWhile]

theorem braceGroup?_append {p : Text} (hp : ∀ c ∈ p, isBrace c = false) (depth : Int) (t : Text) :
    braceGroup? depth (p ++ t) = (braceGroup? depth t).map fun q => (p ++ q.1, q.2) := by
  induction p with
  | nil => simp
  | cons c p ih =>
      obtain ⟨hc, hp⟩ := List.forall_mem_cons.mp hp
      simp only [isBrace, Bool.or_eq_false_iff, decide_eq_false_iff_not] at hc
      rw [List.cons_append, braceGroup?]
      simp only [hc.1, hc.2, if_false, false_and]
      rw [ih hp, Option.map_map]
      rfl

/-- No part exchanged begins in the run of name characters at the start of a text. -/
def Undisturbed (swaps : Text → Text → Prop) (before t : Text) : Prop :=
  ∀ run old rest, t = run ++ (old ++ rest) → (∀ c ∈ run, isNameChar c = true) →
    ¬swaps (run.reverse ++ before) old

namespace Exchanged

variable {keeps : Text → Option Text → Prop} {swaps : Text → Text → Prop}
  {before before' t t' d d' : Text} {blank : Char → Bool}

theorem takeWhile_eq (h : Exchanged keeps swaps before before' t t')
    (hname : Undisturbed swaps before t) :
    t'.takeWhile isNameChar = t.takeWhile isNameChar := by
  induction h with
  | nil => rfl
  | @keep before before' t t' c _ h ih =>
      rw [List.takeWhile_cons, List.takeWhile_cons]
      split
      next hc =>
        rw [ih]
        intro run old rest hsplit hrun
        have hnot := hname (c :: run) old rest (by rw [hsplit, List.cons_append])
          (List.forall_mem_cons.mpr ⟨hc, hrun⟩)
        simpa using hnot
      next => rfl
  | swap old new _ hswap hu _ _ _ =>
      exact absurd hswap (hname [] old _ (by rw [hu, List.nil_append]) (by simp))

/-- Blanks are the same in both texts. -/
theorem dropWhile_blank (hblank : ∀ c, blank c = true → isIdentifierChar c = false)
    (h : Exchanged keeps swaps before before' t t') :
    ∃ skip, t = skip ++ t.dropWhile blank ∧ (∀ c ∈ skip, blank c = true) ∧
      Exchanged keeps swaps (skip.reverse ++ before) (skip.reverse ++ before')
        (t.dropWhile blank) (t'.dropWhile blank) := by
  -- Parts that are exchanged begin with an identifier, where the blanks end.
  have hstop : ∀ u : Text, u.head?.any isIdentifierChar = true → u.dropWhile blank = u := by
    intro u hu
    cases u with
    | nil => rfl
    | cons c u =>
        rw [List.dropWhile_cons_of_neg]
        intro hc
        have hident : isIdentifierChar c = true := hu
        simp [hblank c hc] at hident
  induction h with
  | nil before before' => exact ⟨[], rfl, by simp, .nil _ _⟩
  | @keep before before' t t' c hrefs h ih =>
      by_cases hc : blank c = true
      · obtain ⟨skip, hskip, hchars, hrest⟩ := ih
        rw [List.dropWhile_cons_of_pos hc, List.dropWhile_cons_of_pos hc]
        refine ⟨c :: skip, congrArg (c :: ·) hskip, List.forall_mem_cons.mpr ⟨hc, hchars⟩, ?_⟩
        simpa using hrest
      · rw [List.dropWhile_cons_of_neg hc, List.dropWhile_cons_of_neg hc]
        exact ⟨[], rfl, by simp, .keep c hrefs h⟩
  | swap old new hfits hswap hu hu' h _ =>
      rw [hstop _ (hu ▸ hfits.head), hstop _ (hu' ▸ Text.any_head?_append hfits.plain.head _)]
      exact ⟨[], rfl, by simp, .swap old new hfits hswap hu hu' h⟩

/-- Brace groups end at the same place. -/
theorem braceGroup?_cases (h : Exchanged keeps swaps before before' t t') (depth : Int) :
    (braceGroup? depth t = none ∧ braceGroup? depth t' = none) ∨
      ∃ group group' after after', braceGroup? depth t = some (group, after) ∧
        braceGroup? depth t' = some (group', after') ∧ t = group ++ after ∧
        nearestBrace group.reverse = some '}' ∧
        Exchanged keeps swaps (group.reverse ++ before) (group'.reverse ++ before')
          after after' := by
  induction h generalizing depth with
  | nil => exact .inl ⟨rfl, rfl⟩
  | @keep before before' t t' c hrefs h ih =>
      rw [braceGroup?, braceGroup?]
      generalize (if c = '{' then depth + 1 else if c = '}' then depth - 1 else depth) = depth'
      split
      next hclose =>
        obtain ⟨rfl, -⟩ := hclose
        exact .inr ⟨['}'], ['}'], t, t', rfl, rfl, rfl, rfl, h⟩
      next =>
        rcases ih depth' with ⟨hnone, hnone'⟩ | ⟨group, group', after, after', hgroup, hgroup', ht,
          hbrace, hrest⟩
        · exact .inl ⟨by rw [hnone]; rfl, by rw [hnone']; rfl⟩
        · refine .inr ⟨c :: group, c :: group', after, after', by rw [hgroup]; rfl,
            by rw [hgroup']; rfl, congrArg (c :: ·) ht, ?_, by simpa using hrest⟩
          rw [List.reverse_cons]
          exact nearestBrace_append_of_some hbrace _
  -- Parts that are exchanged hold no brace, so the depth behind them is the same.
  | swap old new hfits _ hu hu' h ih =>
      rw [hu, hu', braceGroup?_append hfits.braces, braceGroup?_append hfits.plain.braces]
      rcases ih depth with ⟨hnone, hnone'⟩ | ⟨group, group', after, after', hgroup, hgroup', ht,
        hbrace, hrest⟩
      · exact .inl ⟨by rw [hnone]; rfl, by rw [hnone']; rfl⟩
      · refine .inr ⟨old ++ group, new ++ group', after, after', by rw [hgroup]; rfl,
          by rw [hgroup']; rfl, by rw [ht, List.append_assoc], ?_, by simpa using hrest⟩
        rw [List.reverse_append]
        exact nearestBrace_append_of_some hbrace _

theorem behindGroup?_cases (hblank : ∀ c, blank c = true → Text.isBlank c = true)
    (h : Exchanged keeps swaps before before' t t') :
    (behindGroup? blank t = none ∧ behindGroup? blank t' = none) ∨
      ∃ place place' skip front', behindGroup? blank t = some place ∧
        behindGroup? blank t' = some place' ∧ t = skip ++ place ∧
        nearestBrace skip.reverse = some '}' ∧
        Exchanged keeps swaps (skip.reverse ++ before) front' place place' := by
  unfold behindGroup?
  by_cases hhead : t.head? = some '{' ∨ t'.head? = some '{'
  · obtain ⟨u, u', hu, hu', -⟩ := h.kept_char rfl hhead
    rw [if_pos (by rw [hu]; rfl), if_pos (by rw [hu']; rfl)]
    rcases h.braceGroup?_cases 0 with
      ⟨hnone, hnone'⟩ | ⟨group, group', after, after', hgroup, hgroup', ht, hbrace, hrest⟩
    · exact .inl ⟨by rw [hnone]; rfl, by rw [hnone']; rfl⟩
    · obtain ⟨skip, hskip, hchars, hplace⟩ :=
        hrest.dropWhile_blank fun c hc => isIdentifierChar_of_isBlank (hblank c hc)
      refine .inr ⟨after.dropWhile blank, after'.dropWhile blank, group ++ skip,
        skip.reverse ++ (group'.reverse ++ before'), by rw [hgroup]; rfl, by rw [hgroup']; rfl,
        ?_, ?_, ?_⟩
      · rw [List.append_assoc, ← hskip, ht]
      · have hplain : ∀ c ∈ skip.reverse, isBrace c = false := by
          intro c hc
          have hc := hblank c (hchars c (List.mem_reverse.mp hc))
          by_contra hbrace
          simp only [isBrace, Bool.not_eq_false, Bool.or_eq_true, decide_eq_true_eq] at hbrace
          rcases hbrace with rfl | rfl
          · exact absurd hc (by decide)
          · exact absurd hc (by decide)
        rw [List.reverse_append, nearestBrace_append hplain, hbrace]
      · simpa using hplace
  · rw [not_or] at hhead
    exact .inl ⟨if_neg hhead.1, if_neg hhead.2⟩

/-- A module tag keeps its argument when the name is not disturbed. -/
theorem moduleArgument_eq (h : Exchanged keeps swaps before before' t t')
    (hname : ∀ skip, t = skip ++ modulePlace t → nearestBrace skip.reverse ≠ some '{' →
      Undisturbed swaps (skip.reverse ++ before) (modulePlace t)) :
    moduleArgument t' = moduleArgument t := by
  have hblank : ∀ c, Text.isSpaceOrTab c = true → Text.isBlank c = true :=
    fun _ => Text.isBlank_of_isSpaceOrTab
  obtain ⟨skip, hskip, hchars, hrest⟩ :=
    h.dropWhile_blank fun c hc => isIdentifierChar_of_isBlank (hblank c hc)
  have hplain : ∀ c ∈ skip.reverse, isBrace c = false := by
    intro c hc
    have hc := hchars c (List.mem_reverse.mp hc)
    simp only [Text.isSpaceOrTab, Bool.or_eq_true, decide_eq_true_eq] at hc
    rcases hc with rfl | rfl <;> rfl
  rw [DocRefs.moduleArgument_eq, DocRefs.moduleArgument_eq]
  rcases hrest.behindGroup?_cases hblank with
    ⟨hnone, hnone'⟩ | ⟨place, place', group, front', hplace, hplace', hgroup, hbrace, hexchanged⟩
  · have hold : modulePlace t = t.dropWhile Text.isSpaceOrTab := by
      rw [modulePlace, hnone, Option.getD_none]
    have hnew : modulePlace t' = t'.dropWhile Text.isSpaceOrTab := by
      rw [modulePlace, hnone', Option.getD_none]
    rw [hnew]
    rw [hold] at hname ⊢
    refine hrest.takeWhile_eq (hname skip hskip ?_)
    rw [← List.append_nil skip.reverse, nearestBrace_append hplain]
    simp [nearestBrace]
  · have hold : modulePlace t = place := by rw [modulePlace, hplace, Option.getD_some]
    have hnew : modulePlace t' = place' := by rw [modulePlace, hplace', Option.getD_some]
    rw [hnew]
    rw [hold] at hname ⊢
    refine hexchanged.takeWhile_eq ?_
    rw [← List.append_assoc, ← List.reverse_append]
    refine hname (skip ++ group) (by rw [List.append_assoc, ← hgroup, ← hskip]) ?_
    rw [List.reverse_append, nearestBrace_append_of_some hbrace]
    decide

/-- A type declaration keeps its name when the name is not disturbed. -/
theorem declaredType?_eq (h : Exchanged keeps swaps before before' t t')
    (hname : ∀ skip place, typedefPlace? t = some place → t = skip ++ place →
      nearestBrace skip.reverse = some '}' → Undisturbed swaps (skip.reverse ++ before) place) :
    declaredType? t' = declaredType? t := by
  obtain ⟨skip, hskip, hchars, hrest⟩ :=
    h.dropWhile_blank fun _ hc => isIdentifierChar_of_isBlank hc
  rw [DocRefs.declaredType?_eq, DocRefs.declaredType?_eq]
  rcases hrest.behindGroup?_cases fun _ hc => hc with
    ⟨hnone, hnone'⟩ | ⟨place, place', group, front', hplace, hplace', hgroup, hbrace, hexchanged⟩
  · rw [typedefPlace?, typedefPlace?, hnone, hnone']
  · have hundisturbed : Undisturbed swaps (group.reverse ++ (skip.reverse ++ before)) place := by
      rw [← List.append_assoc, ← List.reverse_append]
      refine hname (skip ++ group) place hplace (by rw [List.append_assoc, ← hgroup, ← hskip]) ?_
      rw [List.reverse_append]
      exact nearestBrace_append_of_some hbrace _
    have hsame : (dotted place').1 = (dotted place).1 := by
      rw [← dotted_takeWhile place', hexchanged.takeWhile_eq hundisturbed, dotted_takeWhile]
    rw [typedefPlace?, typedefPlace?, hplace, hplace', Option.bind_some, Option.bind_some, hsame]

/-! ## Tags of comments -/

/-- What tags say is the same in both comments when it is the same for every pair of them. -/
theorem map_tags_eq {α : Type} {word : Text} (hword : word ∈ tagWords)
    (h : Exchanged keeps swaps [] [] d d') (f : Text → α)
    (hf : ∀ tag ∈ Tag.scan word d, ∀ before' rest',
      Exchanged keeps swaps (d.take tag.stop).reverse before' tag.rest rest' →
      f rest' = f tag.rest) :
    (Tag.scan word d').map (fun tag => f tag.rest) =
      (Tag.scan word d).map fun tag => f tag.rest := by
  have htags := List.forall₂_iff_get.mp (forall₂_tags hword h)
  apply List.ext_get
  · rw [List.length_map, List.length_map, htags.1]
  · intro i hi' hi
    rw [List.length_map] at hi hi'
    rw [List.get_eq_getElem, List.get_eq_getElem, List.getElem_map, List.getElem_map]
    exact hf _ (List.getElem_mem hi) _ _ (htags.2 i hi hi').rest

/-- The last brace in front of a tag of the new comment is that in front of a tag of the old one. -/
theorem exists_tag {word : Text} (hword : word ∈ tagWords) (h : Exchanged keeps swaps [] [] d d')
    {tag' : Tag} (htag : tag' ∈ Tag.scan word d') :
    ∃ tag ∈ Tag.scan word d,
      nearestBrace (d'.take tag'.stop).reverse = nearestBrace (d.take tag.stop).reverse := by
  have htags := List.forall₂_iff_get.mp (forall₂_tags hword h)
  obtain ⟨⟨i, hi'⟩, rfl⟩ := List.mem_iff_get.mp htag
  have hi : i < (Tag.scan word d).length := htags.1 ▸ hi'
  exact ⟨_, List.get_mem _ _, (htags.2 i hi hi').brace⟩

theorem moduleTag?_eq (h : Exchanged keeps swaps [] [] d d')
    (hname : ∀ tag ∈ Tag.scan moduleWord d, ∀ skip, tag.rest = skip ++ modulePlace tag.rest →
      nearestBrace skip.reverse ≠ some '{' →
      Undisturbed swaps (skip.reverse ++ (d.take tag.stop).reverse) (modulePlace tag.rest)) :
    moduleTag? d' = moduleTag? d := by
  have hmap := map_tags_eq (show moduleWord ∈ tagWords by simp [tagWords]) h moduleArgument
    fun tag htag before' rest' hrest => hrest.moduleArgument_eq (hname tag htag)
  rw [moduleTag?, moduleTag?, ← List.head?_map, ← List.head?_map, hmap]

theorem declaredTypes_eq (h : Exchanged keeps swaps [] [] d d')
    (hname : ∀ tag ∈ Tag.scan typedefWord d, ∀ skip place, typedefPlace? tag.rest = some place →
      tag.rest = skip ++ place → nearestBrace skip.reverse = some '}' →
      Undisturbed swaps (skip.reverse ++ (d.take tag.stop).reverse) place) :
    declaredTypes d' = declaredTypes d := by
  have hmap := map_tags_eq (show typedefWord ∈ tagWords by simp [tagWords]) h declaredType?
    fun tag htag before' rest' hrest => hrest.declaredType?_eq (hname tag htag)
  have hfilter := congrArg (List.filterMap id) hmap
  rw [List.filterMap_map, List.filterMap_map] at hfilter
  exact hfilter

end Exchanged

end DocRefs
