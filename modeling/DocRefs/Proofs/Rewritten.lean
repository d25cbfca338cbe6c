import Mathlib
import DocRefs.Proofs.Insertion
import DocRefs.Proofs.Rereading

/-!
# Comments after linking and qualifying

Linking exchanges references for links, and qualifying puts marks in front of words. Under
conditions on the ids of modules and on what stands around references, both are exchanges that fit.
So a comment that was linked and qualified has the tags of the source with the arguments of the
source, and its references are those that linking leaves alone.
-/

namespace DocRefs

open ImportRef (opening readBody? readSymbol)

/-- Whether a text holds none of the tags that are looked for. -/
def isTagFree (t : Text) : Bool := tagWords.all fun word => !decide ('@' :: word <:+: t)

/-- Whether a module id can be put into a comment without closing the comment or a slot and without
making a tag or a reference. A carriage return in it would not be read back as it was written. -/
def isPlainId (id : Text) : Bool :=
  id.all (fun c => c != '*' && c != '\r' && !isBrace c) && isTagFree id
    && !decide (opening <:+: id)

/-- Whether a reference to the module `id` can be linked between `pre` and `post` so that nothing
new is read there: it does not complete a tag or touch one, an identifier or an opening behind it,
holds no tag, and a symbol alone does not continue a path that was begun in front of it. -/
def ImportRef.isPlaced (ref : ImportRef) (id pre post : Text) : Bool :=
  (ref.marker.isSome || pre.getLast? != some '@')
    && (ref.symbol.isSome || !post.head?.any isJoiner)
    && (post.head? != some '(' || !Text.endsWith ((ref.substitute? id).getD []) importWord)
    && isTagFree ref.text
    && (!id.isEmpty || ref.marker.isSome || !isUnfinished pre.reverse)

theorem isTagFree_iff {t : Text} :
    isTagFree t = true ↔ ∀ word ∈ tagWords, ¬ '@' :: word <:+: t := by
  simp [isTagFree]

theorem isTagFree_of_isInfix {t u : Text} (h : isTagFree u = true) (hwithin : t <:+: u) :
    isTagFree t = true := by
  rw [isTagFree_iff] at h ⊢
  exact fun word hword htag => h word hword (htag.trans hwithin)

theorem isPlainId_of_isNameChar {id : Text} (hid : ∀ c ∈ id, isNameChar c = true)
    (htags : isTagFree id = true) : isPlainId id = true := by
  have hopening : ¬opening <:+: id := fun hwithin =>
    ImportRef.isNameChar_ne (hid '(' (hwithin.subset (by simp [opening]))) rfl rfl
  simp only [isPlainId, htags, hopening, Bool.and_eq_true, List.all_eq_true, bne_iff_ne, ne_eq,
    Bool.not_eq_true', decide_false, Bool.not_false, and_true]
  intro c hc
  have hname := hid c hc
  refine ⟨⟨ImportRef.isNameChar_ne hname rfl, ImportRef.isNameChar_ne hname rfl⟩, ?_⟩
  simp [isBrace, ImportRef.isNameChar_ne (d := '{') hname rfl,
    ImportRef.isNameChar_ne (d := '}') hname rfl]

/-- What a plain id does not hold. -/
theorem notMem_of_isPlainId {id : Text} (h : isPlainId id = true) {c : Char}
    (hc : c = '*' ∨ c = '\r' ∨ isBrace c = true) : c ∉ id := by
  intro hmem
  simp only [isPlainId, Bool.and_eq_true, List.all_eq_true, bne_iff_ne, ne_eq,
    Bool.not_eq_true'] at h
  obtain ⟨⟨hstar, hreturn⟩, hbrace⟩ := h.1.1 c hmem
  rcases hc with hc | hc | hc
  · exact hstar hc
  · exact hreturn hc
  · simp [hbrace] at hc

/-! ## Parts that fit -/

/-- What does not hold a separator lies on one side of it. -/
theorem Text.infix_of_separated {w a b : Text} {c : Char} (hc : c ∉ w)
    (h : w <:+: a ++ c :: b) : w <:+: a ∨ w <:+: b := by
  induction a with
  | nil =>
      rw [List.nil_append, List.infix_cons_iff] at h
      rcases h with hbegins | hwithin
      · cases w with
        | nil => exact .inr List.nil_infix
        | cons d w =>
            rw [List.cons_prefix_cons] at hbegins
            exact absurd (by simp [hbegins.1]) hc
      · exact .inr hwithin
  | cons d a ih =>
      rw [List.cons_append, List.infix_cons_iff] at h
      rcases h with hbegins | hwithin
      · left
        rw [← List.cons_append] at hbegins
        rcases List.prefix_or_prefix_of_prefix hbegins (List.prefix_append (d :: a) (c :: b)) with
          hle | hle
        · exact hle.isInfix
        · obtain ⟨z, rfl⟩ := hle
          rw [List.prefix_append_right_inj] at hbegins
          cases z with
          | nil => simp
          | cons e z =>
              rw [List.cons_prefix_cons] at hbegins
              exact absurd (by simp [hbegins.1]) hc
      · rcases ih hwithin with hwithin | hwithin
        · exact .inl (hwithin.trans (List.suffix_cons d a).isInfix)
        · exact .inr hwithin

theorem plainPart_of_isDotted {name : Text} (h : IsDotted name) : PlainPart name where
  head := by
    obtain ⟨c, cs, rfl, hc, -⟩ := h.exists_cons
    exact hc
  braces := by
    intro c hc
    rcases h.chars c hc with hident | rfl
    · exact isBrace_of_isIdentifierChar hident
    · rfl
  tags := fun word _ htag => h.notMem (c := '@') rfl (by decide) (htag.subset (by simp))
  opening := fun hopening => h.notMem (c := '(') rfl (by decide)
    (hopening.subset (by simp [ImportRef.opening]))

/-- A word with a character that neither the mark nor the symbol has lies in the id. -/
theorem infix_of_infix_moduleMark {id tail w : Text}
    (htail : tail = [] ∨ ∃ name, tail = '~' :: name ∧
      ∀ c ∈ name, isIdentifierChar c = true ∨ c = '.')
    (hcolon : ':' ∉ w) (htilde : '~' ∉ w)
    (hodd : ∃ c ∈ w, c ∉ moduleWord ∧ isIdentifierChar c = false ∧ c ≠ '.')
    (hwithin : w <:+: moduleMark ++ (id ++ tail)) : w <:+: id := by
  obtain ⟨c, hc, hmark, hident, hdot⟩ := hodd
  have hsplit : moduleMark ++ (id ++ tail) = moduleWord ++ ':' :: (id ++ tail) := rfl
  rw [hsplit] at hwithin
  rcases Text.infix_of_separated hcolon hwithin with hwithin | hwithin
  · exact absurd (hwithin.subset hc) hmark
  · rcases htail with rfl | ⟨name, rfl, hname⟩
    · rwa [List.append_nil] at hwithin
    · rcases Text.infix_of_separated htilde hwithin with hwithin | hwithin
      · exact hwithin
      · rcases hname c (hwithin.subset hc) with h | h
        · simp [hident] at h
        · exact absurd h hdot

theorem plainPart_moduleMark {id tail : Text} (hid : isPlainId id = true)
    (htail : tail = [] ∨ ∃ name, tail = '~' :: name ∧
      ∀ c ∈ name, isIdentifierChar c = true ∨ c = '.') :
    PlainPart (moduleMark ++ (id ++ tail)) := by
  simp only [isPlainId, Bool.and_eq_true, List.all_eq_true, Bool.not_eq_true',
    decide_eq_false_iff_not, isTagFree_iff] at hid
  obtain ⟨⟨hchars, htags⟩, hopening⟩ := hid
  -- Tags and openings hold a character that only the id could bring in.
  refine ⟨rfl, ?_, ?_, ?_⟩
  · intro c hc
    have hmark : ∀ c ∈ moduleMark, isBrace c = false := by simp [moduleMark, isBrace]
    rcases List.mem_append.mp hc with hc | hc
    · exact hmark c hc
    · rcases List.mem_append.mp hc with hc | hc
      · have hplain := hchars c hc
        simpa using hplain.2
      · rcases htail with rfl | ⟨name, rfl, hname⟩
        · simp at hc
        · rcases List.mem_cons.mp hc with rfl | hc
          · rfl
          · rcases hname c hc with hident | rfl
            · exact isBrace_of_isIdentifierChar hident
            · rfl
  · intro word hmem htag
    have hnot : ∀ c, isIdentifierChar c = false → c ≠ '@' → c ∉ '@' :: word := by
      intro c hc hat hin
      rcases List.mem_cons.mp hin with rfl | hin
      · exact hat rfl
      · simp [isIdentifierChar_of_mem_tagWords hmem c hin] at hc
    refine htags word hmem (infix_of_infix_moduleMark htail (hnot ':' rfl (by decide))
      (hnot '~' rfl (by decide)) ?_ htag)
    exact ⟨'@', by simp, by decide, rfl, by decide⟩
  · intro hwithin
    refine hopening (infix_of_infix_moduleMark htail (by decide) (by decide) ?_ hwithin)
    exact ⟨'(', by decide, by decide, rfl, by decide⟩

theorem plainPart_moduleReference {id : Text} (hid : isPlainId id = true) {symbol : Option Text}
    (hsymbol : ∀ name, symbol = some name → IsDotted name) :
    PlainPart (moduleReference id symbol) := by
  cases symbol with
  | none =>
      have hplain : PlainPart (moduleMark ++ (id ++ [])) := plainPart_moduleMark hid (.inl rfl)
      rwa [List.append_nil] at hplain
  | some name =>
      have hname := hsymbol name rfl
      rw [moduleReference_some hname.1, List.append_assoc]
      exact plainPart_moduleMark hid (.inr ⟨name, rfl, hname.chars⟩)

theorem plainPart_wordMark {id : Text} (hid : isPlainId id = true) : PlainPart (wordMark id) := by
  rw [wordMark, List.append_assoc]
  exact plainPart_moduleMark hid (.inr ⟨[], rfl, by simp⟩)

theorem any_isJoiner_eq_false {c? : Option Char} (h : c?.any isIdentifierChar = false)
    (hat : c? ≠ some '@') : c?.any isJoiner = false := by
  cases c? with
  | none => rfl
  | some c =>
      have hc : c ≠ '@' := fun heq => hat (by rw [heq])
      have hident : isIdentifierChar c = false := h
      simp [isJoiner, hident, hc]

theorem Text.endsWith_iff {t w : Text} : Text.endsWith t w = true ↔ w <:+ t := by
  rw [Text.endsWith, ← Text.startsWith, Text.startsWith_iff, List.reverse_prefix]

theorem moduleMark_prefix (id : Text) (symbol : Option Text) :
    moduleMark <+: moduleReference id symbol := by
  unfold moduleReference
  split <;> simp

namespace ImportRef

theorem substitute?_cases (ref : ImportRef) (id : Text) :
    (ref.substitute? id = none ∧ id = [] ∧ ref.symbol = none) ∨
    (id = [] ∧ ∃ name, ref.symbol = some name ∧
      ref.substitute? id = some (ref.marker.toList ++ name)) ∨
    (id ≠ [] ∧ ref.substitute? id = some (ref.marker.toList ++ moduleReference id ref.symbol)) := by
  by_cases hid : id = []
  · subst hid
    cases hsymbol : ref.symbol with
    | none => exact .inl ⟨by simp [substitute?, hsymbol], rfl, rfl⟩
    | some name => exact .inr (.inl ⟨rfl, name, rfl, by simp [substitute?, hsymbol]⟩)
  · exact .inr (.inr ⟨hid, by simp [substitute?, hid]⟩)

theorem substitute?_eq_none_iff {ref : ImportRef} {id : Text} :
    ref.substitute? id = none ↔ id = [] ∧ ref.symbol = none := by
  rcases ref.substitute?_cases id with
    ⟨hnone, hid, hsymbol⟩ | ⟨-, name, hname, hsome⟩ | ⟨hid, hsome⟩
  · exact iff_of_true hnone ⟨hid, hsymbol⟩
  · simp [hsome, hname]
  · simp [hsome, hid]

theorem isBrace_of_mem_body {u : Text} {b : Body} (h : readBody? u = some b) :
    ∀ c ∈ opening ++ b.text, isBrace c = false := by
  have hshaped := readBody?_shaped h
  obtain ⟨q, hq, htext⟩ := hshaped.text_eq
  have hname : ∀ c, isNameChar c = true → isBrace c = false := by
    intro c hc
    simp [isBrace, isNameChar_ne (d := '{') hc rfl, isNameChar_ne (d := '}') hc rfl]
  have hquote : isBrace q = false := by
    simp only [isQuote, Bool.or_eq_true, decide_eq_true_eq] at hq
    rcases hq with rfl | rfl <;> rfl
  have hopening : ∀ c ∈ opening, isBrace c = false := by simp [opening, isBrace]
  have hsymbol : ∀ c ∈ symbolText b.symbol, isBrace c = false := by
    cases hsym : b.symbol with
    | none => simp [symbolText]
    | some name =>
        have hplain := (plainPart_of_isDotted (hshaped.symbol name hsym).1).braces
        simpa [symbolText] using ⟨rfl, hplain⟩
  intro c hc
  rw [htext] at hc
  simp only [List.mem_append, List.mem_cons, List.not_mem_nil, or_false] at hc
  rcases hc with hc | ((rfl | hc | rfl | rfl) | hc)
  · exact hopening c hc
  · exact hquote
  · exact hname c (hshaped.raw_chars c hc)
  · exact hquote
  · rfl
  · exact hsymbol c hc

/-- A part without anything that a search looks for fits in the place of a reference, when it ends
as the reference does. -/
theorem fits_of_plainPart {before u new : Text} {b : Body} (hbody : readBody? u = some b)
    (hfront : before.head?.any isJoiner = false) (htags : isTagFree (opening ++ b.text) = true)
    (hbehind : b.symbol = none → b.rest.head?.any isJoiner = false) (hplain : PlainPart new)
    (hlast : b.symbol ≠ none → new.getLast?.any isIdentifierChar = true)
    (hparen : b.rest.head? = some '(' → ¬importWord <:+ new)
    (hpath : moduleMark <+: new ∨ isUnfinished before = false) :
    Fits before (opening ++ b.text) new b.rest where
  front := hfront
  head := rfl
  braces := isBrace_of_mem_body hbody
  tags := isTagFree_iff.mp htags
  plain := hplain
  tail := by
    have hshaped := readBody?_shaped hbody
    right
    cases hsymbol : b.symbol with
    | none =>
        have hrest := hbehind hsymbol
        refine ⟨any_isIdentifierChar_eq_false hrest, hparen, fun hat => ?_⟩
        rw [hat] at hrest
        exact absurd hrest (by decide)
    | some name =>
        obtain ⟨hname, hends⟩ := hshaped.symbol name hsymbol
        refine ⟨hends.head, hparen, fun _ => ?_⟩
        obtain ⟨q, -, htext⟩ := hshaped.text_eq
        have hold : opening ++ b.text = (opening ++ (q :: (b.raw ++ [q, ')', '.']))) ++ name := by
          rw [htext, hsymbol]
          simp [symbolText]
        rw [hlast (by simp [hsymbol]), hold, List.getLast?_append_of_ne_nil _ hname.1,
          hname.getLast?]
  path := hpath

end ImportRef

/-! ## Linking -/

/-- Linking leaves a reference with this path and symbol alone, and the comment `d` has such a
one. -/
def Unlinked (id : Text → Text) (d raw : Text) (symbol : Option Text) : Prop :=
  ∃ ref ∈ ImportRef.scan d, ref.specifier = ImportRef.withoutSuffix raw ∧ ref.symbol = symbol ∧
    ref.substitute? (id ref.specifier) = none

theorem Unlinked.symbol_eq {id : Text → Text} {d raw : Text} {symbol : Option Text}
    (h : Unlinked id d raw symbol) : symbol = none := by
  obtain ⟨ref, -, -, rfl, hnone⟩ := h
  exact (ImportRef.substitute?_eq_none_iff.mp hnone).2

/-- Linking exchanges what begins with an opening. -/
def SwapsRef (_ old : Text) : Prop := opening <+: old

theorem Exchanged.keepAll {keeps : Text → Option Text → Prop} {swaps : Text → Text → Prop}
    {before before' t t' w : Text}
    (hw : ∀ u v raw symbol, w = u ++ v → v ≠ [] → RefAt (u.reverse ++ before) (v ++ t) raw symbol →
      keeps raw symbol)
    (h : Exchanged keeps swaps (w.reverse ++ before) (w.reverse ++ before') t t') :
    Exchanged keeps swaps before before' (w ++ t) (w ++ t') := by
  induction w generalizing before before' with
  | nil => exact h
  | cons c w ih =>
      refine .keep c (fun raw symbol => hw [] (c :: w) raw symbol rfl (by simp)) (ih ?_ ?_)
      · intro u v raw symbol hsplit hv href
        exact hw (c :: u) v raw symbol (by rw [hsplit, List.cons_append]) hv (by simpa using href)
      · simpa using h

/-- Inside an opening no other one begins. -/
theorem not_refAt_in_opening {u v t before raw : Text} {symbol : Option Text}
    (hsplit : opening = u ++ v) (hu : u ≠ []) (hv : v ≠ []) :
    ¬RefAt before (v ++ t) raw symbol := by
  rintro ⟨-, rest, b, hopening, -⟩
  obtain ⟨d, u, rfl⟩ := List.exists_cons_of_ne_nil hu
  obtain ⟨c, v, rfl⟩ := List.exists_cons_of_ne_nil hv
  have hi : c = 'i' := by simpa [opening] using congrArg List.head? hopening
  have hmem : c ∈ opening.tail := by rw [hsplit]; simp
  rw [hi] at hmem
  exact absurd hmem (by decide)

/-- Inside a quoted path and its parenthesis no reference begins. -/
theorem not_refAt_in_path {w u v t before raw : Text} {symbol : Option Text}
    (hlast : w.getLast? = some ')') (hparen : '(' ∉ w) (hsplit : w = u ++ v) (hv : v ≠ []) :
    ¬RefAt before (v ++ t) raw symbol := by
  rintro ⟨-, rest, b, hopening, -⟩
  have hbegins : opening <+: v ++ t := ⟨rest, hopening.symm⟩
  rcases List.prefix_or_prefix_of_prefix hbegins (List.prefix_append v t) with hle | hle
  · exact hparen (by rw [hsplit]; exact List.mem_append_right u (hle.subset (by simp [opening])))
  · rw [hsplit, List.getLast?_append_of_ne_nil _ hv] at hlast
    exact absurd (hle.subset (List.mem_of_getLast? hlast)) (by decide)

theorem Exchanged.keepOpening {keeps : Text → Option Text → Prop} {swaps : Text → Text → Prop}
    {before before' t t' : Text}
    (hat : ∀ raw symbol, RefAt before (opening ++ t) raw symbol → keeps raw symbol)
    (h : Exchanged keeps swaps (opening.reverse ++ before) (opening.reverse ++ before') t t') :
    Exchanged keeps swaps before before' (opening ++ t) (opening ++ t') := by
  apply keepAll _ h
  intro u v raw symbol hsplit hv href
  cases u with
  | nil =>
      rw [List.nil_append] at hsplit
      subst hsplit
      exact hat raw symbol href
  | cons c u => exact absurd href (not_refAt_in_opening hsplit (by simp) hv)

theorem weave_gaps_kept {ps : List Piece} {us : List Text} {front w m rest t' : Text} {offset : Nat}
    (hle : front.length ≤ offset) (htile : Piece.Tile (offset + w.length) (m ++ rest) ps)
    (hweave : Text.weave (Piece.gaps (offset + w.length) (m ++ rest) ps) us = m ++ t') :
    Text.weave (Piece.gaps (offset - front.length) (front ++ ((w ++ m) ++ rest)) ps) us =
      front ++ ((w ++ m) ++ t') := by
  have hsplit : front ++ ((w ++ m) ++ rest) = (front ++ w) ++ (m ++ rest) := by simp
  have hoffset : offset - front.length + (front ++ w).length = offset + w.length := by
    rw [List.length_append]
    omega
  rw [hsplit, Piece.weave_gaps_skip (front ++ w) (by rwa [hoffset]), hoffset, hweave]
  simp

namespace ImportRef

theorem weave_gaps_first {offset : Nat} (ref : ImportRef) {refs : List ImportRef} {rest : Text}
    {new : ImportRef → Text} (hstart : ref.start = offset)
    (hstop : ref.stop = offset + ref.text.length) :
    Text.weave (Piece.gaps offset (ref.text ++ rest) ((ref :: refs).map piece))
        ((ref :: refs).map new) =
      new ref ++ Text.weave (Piece.gaps ref.stop rest (refs.map piece)) (refs.map new) := by
  have hpiece : ref.piece = ⟨offset, offset + ref.text.length, ref.text⟩ := by
    rw [piece, hstart, hstop]
  rw [List.map_cons, List.map_cons, hpiece, Piece.gaps_cons_self, Text.weave, hstop,
    List.nil_append]

/-- The reference `ref` was read behind `before`, whose last character comes first, with the body
`b`. The text in front of it is `pre`, where a marker is part of the reference. -/
structure ReadBehind (ref : ImportRef) (before pre u : Text) (b : Body) : Prop where
  body : readBody? u = some b
  front : before.head?.any isIdentifierChar = false
  marker : ref.marker = before.head?.filter isMarker
  symbol : ref.symbol = b.symbol
  text : ref.text = ref.marker.toList ++ (opening ++ b.text)
  pre : ref.marker = none → pre = before.reverse

namespace ReadBehind

variable {ref : ImportRef} {before pre u new : Text} {b : Body}

/-- The marker of a reference is the character in front of its opening. -/
theorem head?_of_marker (h : ReadBehind ref before pre u b) {m : Char} (hm : ref.marker = some m) :
    before.head? = some m ∧ (m = '!' ∨ m = '?') := by
  obtain ⟨hhead, hmarker⟩ := Option.filter_eq_some_iff.mp (h.marker.symm.trans hm)
  simp only [isMarker, Bool.or_eq_true, decide_eq_true_eq] at hmarker
  exact ⟨hhead, hmarker⟩

/-- What a placed reference becomes fits in its place. -/
theorem fits (h : ReadBehind ref before pre u b) {id : Text}
    (hplaced : ref.isPlaced id pre b.rest = true)
    (hnew : ref.substitute? id = some (ref.marker.toList ++ new)) (hpart : PlainPart new)
    (hlast : b.symbol ≠ none → new.getLast?.any isIdentifierChar = true)
    (hmark : id ≠ [] → moduleMark <+: new) : Fits before (opening ++ b.text) new b.rest := by
  simp only [isPlaced, Bool.and_eq_true, Bool.or_eq_true, Bool.not_eq_true', bne_iff_ne, ne_eq]
    at hplaced
  obtain ⟨⟨⟨⟨hat, hbehind⟩, hparen⟩, htags⟩, hpath⟩ := hplaced
  rw [hnew, Option.getD_some] at hparen
  refine fits_of_plainPart h.body ?_ (isTagFree_of_isInfix htags ?_) ?_ hpart hlast ?_ ?_
  · cases hm : ref.marker with
    | none =>
        rw [hm, h.pre hm, List.getLast?_reverse] at hat
        exact any_isJoiner_eq_false h.front (by simpa using hat)
    | some m =>
        obtain ⟨hhead, rfl | rfl⟩ := h.head?_of_marker hm
        · rw [hhead]
          rfl
        · rw [hhead]
          rfl
  · exact h.text ▸ (List.suffix_append _ _).isInfix
  · intro hnone
    rw [h.symbol, hnone] at hbehind
    simpa using hbehind
  · intro hhead hsuffix
    have hends : Text.endsWith (ref.marker.toList ++ new) importWord = true :=
      Text.endsWith_iff.mpr (hsuffix.trans (List.suffix_append _ _))
    simp [hhead, hends] at hparen
  · by_cases hid : id = []
    · right
      cases hm : ref.marker with
      | none =>
          rw [hm, hid, h.pre hm, List.reverse_reverse] at hpath
          simpa using hpath
      | some m =>
          -- A marker is neither part of a path nor a quotation mark.
          obtain ⟨hhead, rfl | rfl⟩ := h.head?_of_marker hm
          · obtain ⟨rest, rfl⟩ := List.head?_eq_some_iff.mp hhead
            rfl
          · obtain ⟨rest, rfl⟩ := List.head?_eq_some_iff.mp hhead
            rfl
    · exact .inl (hmark hid)

/-- A reference without a symbol can be kept: no other one begins in it. -/
theorem exchanged_kept (h : ReadBehind ref before pre u b) {keeps : Text → Option Text → Prop}
    {swaps : Text → Text → Prop} {before' t' : Text} (hsymbol : ref.symbol = none)
    (hkeeps : keeps b.raw b.symbol)
    (hrest : Exchanged keeps swaps ((opening ++ b.text).reverse ++ before)
      ((opening ++ b.text).reverse ++ before') b.rest t') :
    Exchanged keeps swaps before before' ((opening ++ b.text) ++ b.rest)
      ((opening ++ b.text) ++ t') := by
  have hshaped := readBody?_shaped h.body
  rw [h.symbol] at hsymbol
  rw [List.append_assoc, List.append_assoc]
  refine Exchanged.keepOpening ?_ (Exchanged.keepAll ?_ (by simpa using hrest))
  · rintro raw symbol ⟨-, v, b', hv, hb', rfl, rfl⟩
    rw [← hshaped.append_rest] at hv
    rw [← List.append_cancel_left hv, h.body] at hb'
    obtain rfl := Option.some.inj hb'
    exact hkeeps
  · obtain ⟨q, hq, hbtext⟩ := hshaped.text_eq
    intro v w raw symbol hsplit hw href
    refine absurd href (not_refAt_in_path ?_ ?_ hsplit hw)
    · rw [hbtext, hsymbol]
      simp [symbolText, List.getLast?_append, List.getLast?_cons]
    · have hquote : '(' ≠ q := by
        rintro rfl
        exact absurd hq (by decide)
      have hraw : '(' ∉ b.raw := fun hmem => isNameChar_ne (hshaped.raw_chars _ hmem) rfl rfl
      rw [hbtext, hsymbol]
      simp [symbolText, hquote, hraw]

/-- Linking one reference exchanges a part that fits, or keeps the reference. -/
theorem exists_exchanged (h : ReadBehind ref before pre u b) {keeps : Text → Option Text → Prop}
    {id : Text} (hplain : isPlainId id = true)
    (hplaced : (ref.substitute? id).isSome → ref.isPlaced id pre b.rest = true)
    (hkeeps : ref.substitute? id = none → keeps b.raw b.symbol) :
    ∃ new, (ref.substitute? id).getD ref.text = ref.marker.toList ++ new ∧
      ∀ before' t', Exchanged keeps SwapsRef ((opening ++ b.text).reverse ++ before)
          (new.reverse ++ before') b.rest t' →
        Exchanged keeps SwapsRef before before' ((opening ++ b.text) ++ b.rest) (new ++ t') := by
  have hdotted : ∀ name, ref.symbol = some name → IsDotted name := fun name hname =>
    ((readBody?_shaped h.body).symbol name (h.symbol ▸ hname)).1
  rcases ref.substitute?_cases id with
    ⟨hnone, -, hsymbol⟩ | ⟨hid, name, hname, hsome⟩ | ⟨hid, hsome⟩
  · refine ⟨opening ++ b.text, by rw [hnone, Option.getD_none, h.text], fun before' t' hrest => ?_⟩
    exact h.exchanged_kept hsymbol (hkeeps hnone) hrest
  · have hfits := h.fits (hplaced (by rw [hsome]; rfl)) hsome
      (plainPart_of_isDotted (hdotted name hname)) (fun _ => (hdotted name hname).getLast?)
      fun hne => absurd hid hne
    refine ⟨name, by rw [hsome, Option.getD_some], fun before' t' hrest => ?_⟩
    exact .swap _ name hfits (List.prefix_append _ _) rfl rfl hrest
  · have hlast : b.symbol ≠ none →
        (moduleReference id ref.symbol).getLast?.any isIdentifierChar = true := by
      intro hne
      obtain ⟨name, hname⟩ := Option.ne_none_iff_exists'.mp (h.symbol ▸ hne)
      rw [hname, moduleReference_eq (hdotted name hname).1,
        List.getLast?_append_of_ne_nil _ (hdotted name hname).1, (hdotted name hname).getLast?]
    have hfits := h.fits (hplaced (by rw [hsome]; rfl)) hsome
      (plainPart_moduleReference hplain hdotted) hlast fun _ => moduleMark_prefix _ _
    refine ⟨moduleReference id ref.symbol, by rw [hsome, Option.getD_some],
      fun before' t' hrest => ?_⟩
    exact .swap _ _ hfits (List.prefix_append _ _) rfl rfl hrest

end ReadBehind

/-- An opening that begins no reference is kept. -/
theorem weave_gaps_opening {offset : Nat} {front rest t' : Text} {us : List Text}
    (hle : front.length ≤ offset)
    (hweave : Text.weave (Piece.gaps (offset + opening.length) rest
      ((scanFrom (some '(') (offset + opening.length) rest).map piece)) us = t') :
    Text.weave (Piece.gaps (offset - front.length) (front ++ (opening ++ rest))
      ((scanFrom (some '(') (offset + opening.length) rest).map piece)) us =
      front ++ (opening ++ t') := by
  have htile := tile_scanFrom (some '(') (offset + opening.length) rest fun _ => by simp [opening]
  have hkept := weave_gaps_kept (w := opening) (m := []) hle htile hweave
  simpa using hkept

/-- A marker that stands last in a text is no longer than the text. -/
theorem length_marker_le {before : Text} {before? : Option Char} (h : before.head? = before?) :
    (before?.filter isMarker).toList.length ≤ before.length := by
  apply length_filter_isMarker_le
  intro hsome
  rw [← h, List.isSome_head?] at hsome
  simpa [Nat.one_le_iff_ne_zero] using hsome

/-- A character at which no opening begins is kept; if it is a marker, it belongs to a reference
right behind it. -/
theorem weave_gaps_char {offset : Nat} {c : Char} {front rest t' : Text} {us : List Text}
    (hle : front.length ≤ offset)
    (hweave : Text.weave (Piece.gaps (offset + 1 - ((some c).filter isMarker).toList.length)
        (((some c).filter isMarker).toList ++ rest)
        ((scanFrom (some c) (offset + 1) rest).map piece)) us =
      ((some c).filter isMarker).toList ++ t') :
    Text.weave (Piece.gaps (offset - front.length) (front ++ c :: rest)
      ((scanFrom (some c) (offset + 1) rest).map piece)) us = front ++ c :: t' := by
  have htile := tile_scanFrom (some c) (offset + 1) rest fun _ => by omega
  by_cases hc : isMarker c = true
  · have hmarker : ((some c).filter isMarker).toList = [c] := by simp [Option.filter, hc]
    rw [hmarker] at hweave htile
    exact weave_gaps_kept (w := []) (m := [c]) hle htile hweave
  · have hmarker : ((some c).filter isMarker).toList = [] := by simp [Option.filter, hc]
    rw [hmarker] at hweave htile
    simpa using weave_gaps_kept (w := [c]) (m := []) hle htile hweave

namespace ReadBehind

variable {ref : ImportRef} {before pre u : Text} {b : Body}

/-- A reference whose body can be read behind the text `before` is read behind it, and what follows
it is what the body leaves. -/
theorem of_readBody? {d : Text} (hbody : readBody? u = some b)
    (hfront : before.head?.any isIdentifierChar = false)
    (hd : d = before.reverse ++ ((opening ++ b.text) ++ b.rest))
    (hmarker : ref.marker = before.head?.filter isMarker) (hsymbol : ref.symbol = b.symbol)
    (htext : ref.text = ref.marker.toList ++ (opening ++ b.text))
    (hstart : ref.start = before.length - ref.marker.toList.length)
    (hstop : ref.stop = before.length + (opening ++ b.text).length) :
    ReadBehind ref before (d.take ref.start) u b ∧ d.drop ref.stop = b.rest := by
  refine ⟨⟨hbody, hfront, hmarker, hsymbol, htext, fun hnone => ?_⟩, ?_⟩
  · rw [hstart, hnone, hd, Option.toList_none, List.length_nil, Nat.sub_zero,
      ← List.length_reverse, List.take_left]
  · rw [hstop, hd, ← List.append_assoc, ← List.length_reverse, ← List.length_append,
      List.drop_left]

/-- What a reference becomes stands in front of what the text behind it becomes. -/
theorem weave_gaps (h : ReadBehind ref before pre u b) {offset : Nat} {refs : List ImportRef}
    {image : ImportRef → Text} {new t' : Text}
    (hstart : ref.start = offset - ref.marker.toList.length)
    (hstop : ref.stop = offset + (opening ++ b.text).length)
    (hle : ref.marker.toList.length ≤ offset) (himage : image ref = ref.marker.toList ++ new)
    (hweave : Text.weave (Piece.gaps ref.stop b.rest (refs.map piece)) (refs.map image) = t') :
    Text.weave (Piece.gaps (offset - ref.marker.toList.length)
        (ref.marker.toList ++ ((opening ++ b.text) ++ b.rest)) ((ref :: refs).map piece))
        ((ref :: refs).map image) = ref.marker.toList ++ (new ++ t') := by
  have hlength : ref.stop = ref.start + ref.text.length := by
    rw [h.text, hstart, hstop]
    simp only [List.length_append]
    omega
  rw [← List.append_assoc ref.marker.toList, ← h.text, ← hstart,
    weave_gaps_first ref rfl hlength, himage, hweave, List.append_assoc]

end ReadBehind

variable {id : Text → Text} {d : Text} {keeps : Text → Option Text → Prop}

/-- Linking the references of a text exchanges parts that fit. A marker in front of the text belongs
to the first reference. -/
theorem exists_exchanged {before? : Option Char} {offset : Nat} {t before : Text}
    (hbefore : before.head? = before?) (hoffset : before.length = offset)
    (hd : d = before.reverse ++ t)
    (hplain : ∀ ref ∈ scanFrom before? offset t, isPlainId (id ref.specifier) = true)
    (hplaced : ∀ ref ∈ scanFrom before? offset t, (ref.substitute? (id ref.specifier)).isSome →
      ref.isPlaced (id ref.specifier) (d.take ref.start) (d.drop ref.stop) = true)
    (hkeeps : ∀ ref ∈ scanFrom before? offset t, ∀ raw, ref.specifier = withoutSuffix raw →
      ref.substitute? (id ref.specifier) = none → keeps raw ref.symbol) :
    ∃ t', Text.weave (Piece.gaps (offset - (before?.filter isMarker).toList.length)
          ((before?.filter isMarker).toList ++ t) ((scanFrom before? offset t).map piece))
          ((scanFrom before? offset t).map fun ref =>
            (ref.substitute? (id ref.specifier)).getD ref.text) =
        (before?.filter isMarker).toList ++ t' ∧
      ∀ before', Exchanged keeps SwapsRef before before' t t' := by
  fun_induction scanFrom before? offset t generalizing before with
  | case1 before? offset =>
      refine ⟨[], ?_, fun before' => .nil _ _⟩
      simp [Piece.gaps, Text.weave]
  | case2 before? offset c cs hopen ih =>
      obtain ⟨t', hweave, hexchanged⟩ := ih (show (c :: before).head? = some c from rfl)
        (by simp [hoffset]) (by simpa using hd) hplain hplaced hkeeps
      refine ⟨c :: t', weave_gaps_char (hoffset ▸ length_marker_le hbefore) hweave,
        fun before' => .keep c ?_ (hexchanged _)⟩
      intro raw symbol href
      obtain ⟨-, u, b, htext, -⟩ := href
      rw [Text.after?_eq_some_iff.mpr htext] at hopen
      simp at hopen
  | case3 before? offset c cs t hopen _ hident ih =>
      have htext := Text.after?_eq_some_iff.mp hopen
      obtain ⟨t', hweave, hexchanged⟩ := ih
        (show (opening.reverse ++ before).head? = some '(' from rfl) (by simp [hoffset]; omega)
        (by rw [hd, htext]; simp) hplain hplaced hkeeps
      rw [htext]
      refine ⟨opening ++ t', weave_gaps_opening (hoffset ▸ length_marker_le hbefore) hweave,
        fun before' => (hexchanged _).keepOpening ?_⟩
      intro raw symbol href
      rw [← hbefore, href.1] at hident
      exact absurd hident Bool.false_ne_true
  | case4 before? offset c cs t hopen _ hident hbody ih =>
      have htext := Text.after?_eq_some_iff.mp hopen
      obtain ⟨t', hweave, hexchanged⟩ := ih
        (show (opening.reverse ++ before).head? = some '(' from rfl) (by simp [hoffset]; omega)
        (by rw [hd, htext]; simp) hplain hplaced hkeeps
      rw [htext]
      refine ⟨opening ++ t', weave_gaps_opening (hoffset ▸ length_marker_le hbefore) hweave,
        fun before' => (hexchanged _).keepOpening ?_⟩
      rintro raw symbol ⟨-, u, b, hu, hb, -⟩
      rw [List.append_cancel_left hu, hb] at hbody
      simp at hbody
  | case5 before? offset c cs t hopen _ hident b hbody _ marker stop =>
      rename_i ih
      have htext := Text.after?_eq_some_iff.mp hopen
      have hshaped := readBody?_shaped hbody
      have hsplit : c :: cs = (opening ++ b.text) ++ b.rest := by
        rw [htext, hshaped.append_rest, List.append_assoc]
      obtain ⟨t', hweave, hexchanged⟩ := ih (hshaped.head?_reverse before)
        (by simp only [stop, List.length_append, List.length_reverse]; omega)
        (by rw [hd, hsplit]; simp) (fun ref href => hplain ref (List.mem_cons_of_mem _ href))
        (fun ref href => hplaced ref (List.mem_cons_of_mem _ href))
        (fun ref href => hkeeps ref (List.mem_cons_of_mem _ href))
      have hfront : before.head?.any isIdentifierChar = false := by
        rw [hbefore]
        simpa using hident
      let ref : ImportRef := ⟨offset - marker.toList.length, stop, marker, withoutSuffix b.raw,
        b.symbol, marker.toList ++ opening ++ b.text⟩
      have hstop : ref.stop = offset + (opening ++ b.text).length := by
        simp only [ref, stop, List.length_append]
        omega
      obtain ⟨hread, hbehind⟩ : ReadBehind ref before (d.take ref.start) t b ∧
          d.drop ref.stop = b.rest :=
        ReadBehind.of_readBody? hbody hfront (hsplit ▸ hd) (by rw [hbefore]) rfl
          (List.append_assoc ..) (by rw [hoffset]) (by rw [hstop, hoffset])
      obtain ⟨new, hnew, hswap⟩ := hread.exists_exchanged (hplain ref List.mem_cons_self)
        (by rw [← hbehind]; exact hplaced ref List.mem_cons_self)
        (hkeeps ref List.mem_cons_self b.raw rfl)
      rw [hsplit]
      refine ⟨new ++ t', ?_, fun before' => hswap _ _ (hexchanged _)⟩
      -- A body ends with a parenthesis or an identifier, so no marker is left for what follows.
      rw [hshaped.filter_getLast?, Option.toList_none, List.nil_append, List.nil_append,
        List.length_nil, Nat.sub_zero] at hweave
      exact hread.weave_gaps rfl hstop (hoffset ▸ length_marker_le hbefore) hnew hweave

end ImportRef

/-- Linking the references of a comment exchanges parts that fit. -/
theorem exchanged_linkedComment {id : Text → Text} {d : Text}
    (hplain : ∀ ref ∈ ImportRef.scan d, isPlainId (id ref.specifier) = true)
    (hplaced : ∀ ref ∈ ImportRef.scan d, (ref.substitute? (id ref.specifier)).isSome →
      ref.isPlaced (id ref.specifier) (d.take ref.start) (d.drop ref.stop) = true) :
    Exchanged (Unlinked id d) SwapsRef [] [] d
      (linkedComment (fun ref => ref.substitute? (id ref.specifier)) d) := by
  have hkeeps : ∀ ref ∈ ImportRef.scan d, ∀ raw, ref.specifier = ImportRef.withoutSuffix raw →
      ref.substitute? (id ref.specifier) = none → Unlinked id d raw ref.symbol :=
    fun ref href raw hspecifier hnone => ⟨ref, href, hspecifier, rfl, hnone⟩
  obtain ⟨t', hweave, hexchanged⟩ :=
    ImportRef.exists_exchanged List.head?_nil List.length_nil rfl hplain hplaced hkeeps
  have hlinked : linkedComment (fun ref => ref.substitute? (id ref.specifier)) d = t' := hweave
  rw [hlinked]
  exact hexchanged []

/-! ## Qualifying -/

/-- Qualifying puts marks behind an opening brace. -/
def SwapsWord (before _ : Text) : Prop := nearestBrace before = some '{'

theorem Text.notMem_of_cut? {c : Char} {t before rest : Text}
    (h : Text.cut? [c] t = some (before, rest)) : c ∉ before := by
  induction t generalizing before with
  | nil => simp [Text.cut?] at h
  | cons d t ih =>
      rw [Text.cut?] at h
      split at h
      · simp only [Option.some.injEq, Prod.mk.injEq] at h
        simp [← h.1]
      next hnone =>
        obtain ⟨⟨front, behind⟩, hp, hq⟩ := Option.map_eq_some_iff.mp h
        simp only [Prod.mk.injEq] at hq
        obtain ⟨rfl, rfl⟩ := hq
        have hne : c ≠ d := by
          rintro rfl
          simp [Text.after?] at hnone
        rw [List.mem_cons, not_or]
        exact ⟨hne, ih hp⟩

theorem TypeSlot.notMem_of_mem_scanFrom {offset : Nat} {t : Text} {slot : TypeSlot}
    (hslot : slot ∈ scanFrom offset t) : '}' ∉ slot.body := by
  fun_induction scanFrom offset t with
  | case1 => simp at hslot
  | case2 => simp at hslot
  | case3 offset cs body rest hcut _ ih =>
      rcases List.mem_cons.mp hslot with rfl | hslot
      · exact Text.notMem_of_cut? hcut
      · exact ih hslot
  | case4 offset c cs _ ih => exact ih hslot

/-- A word of a slot stands bare behind an opening brace. -/
theorem nearestBrace_of_mem_slotWords {d : Text} {w : TypeWord} (hw : w ∈ slotWords 0 d) :
    ∃ pre post, d = pre ++ (w.token ++ post) ∧ w.start = pre.length ∧ Bare pre w.token post ∧
      nearestBrace pre.reverse = some '{' := by
  obtain ⟨slot, hslot, hw⟩ := List.mem_flatMap.mp hw
  obtain ⟨v, hv, rfl⟩ := List.mem_map.mp hw
  have hclose := TypeSlot.notMem_of_mem_scanFrom hslot
  obtain ⟨a, b, rfl, hslotStart⟩ := TypeSlot.braces_of_mem_scanFrom hslot
  obtain ⟨pre, post, hbody, hstart, hbare⟩ :=
    TypeWord.bare_of_mem_scanFrom (fun h => by simp at h) hv
  refine ⟨a ++ '{' :: pre, post ++ '}' :: b, ?_, ?_, ?_, ?_⟩
  · rw [hbody]
    simp [TypeWord.shift]
  · simp only [TypeWord.shift, List.length_append, List.length_cons]
    omega
  · exact hbare.in_slot a b
  · rw [hbody, List.mem_append, not_or] at hclose
    rw [List.reverse_append, List.reverse_cons, nearestBrace, List.append_assoc,
      List.find?_append]
    cases hfind : pre.reverse.find? isBrace with
    | none => rfl
    | some c =>
        have hc := List.find?_some hfind
        have hmem := List.mem_reverse.mp (List.mem_of_find?_eq_some hfind)
        simp only [isBrace, Bool.or_eq_true, decide_eq_true_eq] at hc
        rcases hc with rfl | rfl
        · rfl
        · exact absurd hmem hclose.1

theorem qualifiedComment_eq_insertAt (id : Text) (names : List Text) (d : Text) :
    qualifiedComment id names d = Text.insertAt (wordMark id)
      (Piece.beginsAt TypeWord.piece (fun w => names.contains w.token) (slotWords 0 d)) 0 d := by
  have hne : ∀ w ∈ slotWords 0 d, w.token ≠ [] := fun w hw => (isDotted_of_mem_slotWords hw).1
  rw [← Piece.weave_eq_insertAt (wordMark id) _ (tile_slotWords 0 d) hne, qualifiedComment]
  congr 1
  exact List.map_congr_left fun w hw => getD_qualifiedWord? id names (hne w hw)

/-- Inserting marks exchanges parts that fit, if the mark fits wherever it is inserted. -/
theorem exchanged_insertAt {keeps : Text → Option Text → Prop} {swaps : Text → Text → Prop}
    {d mark : Text} {marked : Nat → Bool}
    (hmarked : ∀ before t, d = before.reverse ++ t → marked before.length = true →
      Fits before [] mark t ∧ swaps before [])
    (hrefs : EveryRef keeps [] d) {before t : Text} (hd : d = before.reverse ++ t)
    (before' : Text) :
    Exchanged keeps swaps before before' t (Text.insertAt mark marked before.length t) := by
  induction t generalizing before before' with
  | nil => exact .nil _ _
  | cons c t ih =>
      have hkeep : ∀ before', Exchanged keeps swaps before before' (c :: t)
          (c :: Text.insertAt mark marked (before.length + 1) t) := by
        intro before'
        refine .keep c ?_ (ih (by rw [hd]; simp) _)
        intro raw symbol href
        exact hrefs before.reverse (c :: t) raw symbol hd (by simpa using href)
      rw [Text.insertAt]
      split
      next hmark =>
        obtain ⟨hfits, hswaps⟩ := hmarked before (c :: t) hd hmark
        exact .swap [] mark hfits hswaps rfl rfl (hkeep _)
      next => exact hkeep before'

theorem Bare.fits_wordMark {pre name post id : Text} (h : Bare pre name post)
    (hid : isPlainId id = true) : Fits pre.reverse [] (wordMark id) (name ++ post) where
  front := by
    rw [List.head?_reverse]
    refine any_isJoiner_eq_false h.front fun hat => ?_
    obtain ⟨w, hw⟩ := h.qualifier (by simp [hat, TypeWord.isQualifier])
    have hlast := congrArg List.getLast? hw
    simp [List.getLast?_append, hat] at hlast
  head := by
    obtain ⟨c, cs, rfl, hc, -⟩ := h.dotted.exists_cons
    exact hc
  braces := by simp
  tags := by simp
  plain := plainPart_wordMark hid
  tail := .inl ⟨rfl, by rw [wordMark, List.getLast?_concat]⟩
  path := .inl (by rw [wordMark, List.append_assoc]; exact List.prefix_append _ _)

/-- Qualifying the words of a comment exchanges parts that fit. -/
theorem exchanged_qualifiedComment {keeps : Text → Option Text → Prop} {id d : Text}
    (names : List Text) (hid : isPlainId id = true) (hrefs : EveryRef keeps [] d) :
    Exchanged keeps SwapsWord [] [] d (qualifiedComment id names d) := by
  rw [qualifiedComment_eq_insertAt]
  refine exchanged_insertAt ?_ hrefs rfl []
  intro before t hd hmarked
  obtain ⟨w, hw, hselected⟩ := List.any_eq_true.mp hmarked
  rw [Bool.and_eq_true, beq_iff_eq] at hselected
  obtain ⟨pre, post, hsplit, hstart, hbare, hbrace⟩ := nearestBrace_of_mem_slotWords hw
  have hlength : before.reverse.length = pre.length := by
    rw [List.length_reverse, ← hstart]
    exact hselected.2.symm
  obtain ⟨hpre, rfl⟩ := List.append_inj (hd.symm.trans hsplit) hlength
  have hbefore : before = pre.reverse := by rw [← hpre, List.reverse_reverse]
  rw [hbefore]
  exact ⟨hbare.fits_wordMark hid, hbrace⟩

/-! ## Both -/

/-- Whether the run of name characters at the start of a text ends with the word of a reference. -/
def isCutByImport (t : Text) : Bool :=
  (t.dropWhile isNameChar).head? == some '(' && Text.endsWith (t.takeWhile isNameChar) importWord

theorem undisturbed_of_isCutByImport {t : Text} (h : isCutByImport t = false) (before : Text) :
    Undisturbed SwapsRef before t := by
  rintro run old rest rfl hrun ⟨behind, rfl⟩
  have hword : ∀ c ∈ run ++ importWord, isNameChar c = true := by
    intro c hc
    rcases List.mem_append.mp hc with hc | hc
    · exact hrun c hc
    · exact List.all_eq_true.mp (show importWord.all isNameChar = true from rfl) c hc
  have hsplit : run ++ (opening ++ behind ++ rest) =
      (run ++ importWord) ++ '(' :: (behind ++ rest) := by
    have hopening : opening = importWord ++ ['('] := rfl
    rw [hopening]
    simp
  have hparen : ¬isNameChar '(' = true := by decide
  rw [hsplit, isCutByImport, List.dropWhile_append_of_pos hword,
    List.takeWhile_append_of_pos hword, List.dropWhile_cons_of_neg hparen,
    List.takeWhile_cons_of_neg hparen, List.append_nil,
    Text.endsWith_iff.mpr (List.suffix_append run importWord)] at h
  simp at h

theorem undisturbed_of_nearestBrace {before : Text} (h : nearestBrace before ≠ some '{')
    (t : Text) : Undisturbed SwapsWord before t := by
  intro run old rest _ hrun hswap
  have hplain : ∀ c ∈ run.reverse, isBrace c = false := by
    intro c hc
    have hname := hrun c (List.mem_reverse.mp hc)
    simp [isBrace, ImportRef.isNameChar_ne (d := '{') hname rfl,
      ImportRef.isNameChar_ne (d := '}') hname rfl]
  rw [SwapsWord, nearestBrace_append hplain] at hswap
  exact h hswap

/-- Whether a comment keeps its tags and gets no new references when its references are linked to
the modules that `id` gives and its words are qualified: no name of a tag runs into a reference, no
module tag stands in a slot, and every reference that is linked is placed for it. -/
def isTameComment (id : Text → Text) (d : Text) : Bool :=
  ((Tag.scan moduleWord d).all fun tag => !isCutByImport (modulePlace tag.rest)
      && nearestBrace (d.take tag.stop).reverse != some '{')
    && ((Tag.scan typedefWord d).all fun tag => !(typedefPlace? tag.rest).any isCutByImport)
    && ((ImportRef.scan d).all fun ref => (ref.substitute? (id ref.specifier)).isNone
      || ref.isPlaced (id ref.specifier) (d.take ref.start) (d.drop ref.stop))

/-- A text says what the comment `d` says, and linking leaves its references alone. -/
structure Settled (id : Text → Text) (d l : Text) : Prop where
  module : moduleTag? l = moduleTag? d
  types : declaredTypes l = declaredTypes d
  refs : EveryRef (Unlinked id d) [] l
  /-- No module tag stands in a slot. -/
  tags : ∀ tag ∈ Tag.scan moduleWord l, nearestBrace (l.take tag.stop).reverse ≠ some '{'

section Comment

variable {id : Text → Text} {d l : Text}

theorem settled_linkedComment
    (hplain : ∀ ref ∈ ImportRef.scan d, isPlainId (id ref.specifier) = true)
    (htame : isTameComment id d = true) :
    Settled id d (linkedComment (fun ref => ref.substitute? (id ref.specifier)) d) := by
  simp only [isTameComment, Bool.and_eq_true, List.all_eq_true, Bool.not_eq_true', bne_iff_ne,
    ne_eq, Bool.or_eq_true] at htame
  obtain ⟨⟨hmodule, htypedef⟩, hrefs⟩ := htame
  have hexchanged := exchanged_linkedComment hplain fun ref href hsome =>
    (hrefs ref href).resolve_left fun hnone => by simp [Option.isNone_iff_eq_none.mp hnone] at hsome
  refine ⟨?_, ?_, ?_, ?_⟩
  · refine hexchanged.moduleTag?_eq fun tag htag skip _ _ => ?_
    exact undisturbed_of_isCutByImport (hmodule tag htag).1 _
  · refine hexchanged.declaredTypes_eq fun tag htag skip place hplace _ _ => ?_
    have hcut := htypedef tag htag
    rw [hplace, Option.any_some] at hcut
    exact undisturbed_of_isCutByImport hcut _
  · exact hexchanged.everyRef (fun _ _ hkept => hkept.symbol_eq) fun _ => rfl
  · intro tag' htag'
    obtain ⟨tag, htag, hbrace⟩ := hexchanged.exists_tag (by simp [tagWords]) htag'
    rw [hbrace]
    exact (hmodule tag htag).2

theorem Settled.qualifiedComment {own : Text} (h : Settled id d l) (hown : isPlainId own = true)
    (names : List Text) : Settled id d (qualifiedComment own names l) := by
  have hexchanged := exchanged_qualifiedComment names hown h.refs
  refine ⟨?_, ?_, ?_, ?_⟩
  · rw [← h.module]
    refine hexchanged.moduleTag?_eq fun tag htag skip _ hskip => ?_
    apply undisturbed_of_nearestBrace
    rw [nearestBrace, List.find?_append]
    cases hfind : skip.reverse.find? isBrace with
    | none => exact h.tags tag htag
    | some c =>
        rw [nearestBrace, hfind] at hskip
        exact hskip
  · rw [← h.types]
    refine hexchanged.declaredTypes_eq fun tag htag skip place _ _ hskip => ?_
    apply undisturbed_of_nearestBrace
    rw [nearestBrace_append_of_some hskip]
    decide
  · exact hexchanged.everyRef (fun _ _ hkept => hkept.symbol_eq) fun _ => rfl
  · intro tag' htag'
    obtain ⟨tag, htag, hbrace⟩ := hexchanged.exists_tag (by simp [tagWords]) htag'
    rw [hbrace]
    exact h.tags tag htag

/-- The references of a settled comment are like references of the source that linking leaves
alone. -/
theorem Settled.exists_ref (h : Settled id d l) {ref : ImportRef} (href : ref ∈ ImportRef.scan l) :
    ∃ ref' ∈ ImportRef.scan d, ref'.specifier = ref.specifier ∧
      ref.substitute? (id ref.specifier) = none := by
  obtain ⟨raw, hspecifier, ref', href', hspecifier', hsymbol, hnone⟩ := h.refs.of_mem_scan href
  rw [← hspecifier] at hspecifier'
  rw [ImportRef.substitute?_eq_none_iff, hspecifier', hsymbol] at hnone
  exact ⟨ref', href', hspecifier', ImportRef.substitute?_eq_none_iff.mpr hnone⟩

/-- Linking leaves a settled comment as it is. -/
theorem Settled.linkedComment_eq (h : Settled id d l) :
    linkedComment (fun ref => ref.substitute? (id ref.specifier)) l = l := by
  have himages : (ImportRef.scan l).map (fun ref =>
      (ref.substitute? (id ref.specifier)).getD ref.text) =
      ((ImportRef.scan l).map ImportRef.piece).map Piece.text := by
    rw [List.map_map]
    apply List.map_congr_left
    intro ref href
    obtain ⟨-, -, -, hnone⟩ := h.exists_ref href
    rw [hnone, Option.getD_none]
    rfl
  rw [linkedComment, himages, Piece.weave_gaps (ImportRef.tile_scan l)]

end Comment

end DocRefs
