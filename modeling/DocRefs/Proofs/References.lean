import Mathlib
import DocRefs.Comment.Import
import DocRefs.Proofs.Comments
import DocRefs.Proofs.Identifiers

/-!
# Import references in a text

The references found in a text are pieces of it. Each has the shape of a marker, the opening, a
quoted specifier and a symbol, so it holds no `*` and does not begin with a slash, and no identifier
goes on behind its symbol.
-/

namespace DocRefs

namespace ImportRef

/-- The reference as a piece of the text around it. -/
def piece (ref : ImportRef) : Piece := ⟨ref.start, ref.stop, ref.text⟩

theorem isIdentifierChar_of_isMarker {c : Char} (h : isMarker c = true) :
    isIdentifierChar c = false := by
  simp only [isMarker, Bool.or_eq_true, decide_eq_true_eq] at h
  rcases h with rfl | rfl <;> rfl

theorem isNameChar_ne {c d : Char} (hc : isNameChar c = true) (hd : isNameChar d = false) :
    c ≠ d := by
  rintro rfl
  simp [hc] at hd

/-- What a symbol adds to a reference. -/
def symbolText (symbol : Option Text) : Text := symbol.elim [] ('.' :: ·)

/-- Reading a symbol takes all of a dotted identifier. -/
theorem readSymbol_spec (t : Text) :
    t = symbolText (readSymbol t).1 ++ (readSymbol t).2 ∧
      ∀ name, (readSymbol t).1 = some name → IsDotted name ∧ Ends (readSymbol t).2 := by
  unfold readSymbol
  split
  next t =>
    by_cases hempty : (dotted t).1 = []
    · simp [hempty, symbolText]
    · simp only [List.isEmpty_iff, hempty, if_false, symbolText, Option.elim_some,
        Option.some.injEq]
      refine ⟨?_, ?_⟩
      · rw [List.cons_append, dotted_append]
      · rintro name rfl
        exact ⟨isDotted_dotted hempty, ends_dotted hempty⟩
  · simp [symbolText]

/-- What is read behind an opening: a quoted run of name characters, a parenthesis and maybe a
symbol. -/
structure Body.Shaped (t : Text) (b : Body) : Prop where
  raw_chars : ∀ c ∈ b.raw, isNameChar c = true
  text_eq : ∃ q, isQuote q = true ∧ b.text = q :: (b.raw ++ [q, ')']) ++ symbolText b.symbol
  append_rest : t = b.text ++ b.rest
  symbol : ∀ name, b.symbol = some name → IsDotted name ∧ Ends b.rest

theorem readBody?_shaped {t : Text} {b : Body} (h : readBody? t = some b) : b.Shaped t := by
  unfold readBody? at h
  split at h
  · simp at h
  next q t =>
    split at h
    next hq =>
      dsimp only at h
      split at h
      next q' rest hrest =>
        split at h
        next hclose =>
          obtain ⟨rfl, hraw⟩ := hclose
          obtain ⟨hsplit, hsymbol⟩ := readSymbol_spec rest
          simp only [Option.some.injEq] at h
          subst h
          refine ⟨fun c hc => List.mem_takeWhile_imp hc, ⟨q', hq, rfl⟩, ?_, hsymbol⟩
          have ht : t = t.takeWhile isNameChar ++ q' :: ')' :: rest := by
            rw [← hrest, List.takeWhile_append_dropWhile]
          have hrest' : (readSymbol rest).1.elim [] ('.' :: ·) ++ (readSymbol rest).2 = rest :=
            hsplit.symm
          simp only [List.cons_append, List.append_assoc, List.nil_append, hrest']
          rw [← ht]
        · simp at h
      · simp at h
    · simp at h

namespace Body.Shaped

variable {t : Text} {b : Body}

theorem text_ne_nil (h : b.Shaped t) : b.text ≠ [] := by
  obtain ⟨q, -, htext⟩ := h.text_eq
  simp [htext]

theorem star_notMem (h : b.Shaped t) : '*' ∉ b.text := by
  obtain ⟨q, hq, htext⟩ := h.text_eq
  have hquote : '*' ≠ q := by
    rintro rfl
    simp [isQuote] at hq
  have hraw : '*' ∉ b.raw := fun hmem => isNameChar_ne (h.raw_chars _ hmem) rfl rfl
  have hsymbol : '*' ∉ symbolText b.symbol := by
    cases hsym : b.symbol with
    | none => simp [symbolText]
    | some name =>
        have hname := (h.symbol name hsym).1.notMem (c := '*') rfl (by decide)
        simp [symbolText, hname]
  rw [htext]
  simp [hquote, hraw, hsymbol]

/-- The last character read is no marker. -/
theorem filter_getLast? (h : b.Shaped t) : b.text.getLast?.filter isMarker = none := by
  obtain ⟨q, -, htext⟩ := h.text_eq
  rw [Option.filter_eq_none_iff]
  intro c hc hmarker
  cases hsym : b.symbol with
  | none =>
      have hend : b.text = q :: b.raw ++ [q] ++ [')'] := by
        simp [htext, hsym, symbolText]
      rw [hend, List.getLast?_concat] at hc
      obtain rfl := Option.some.inj hc
      simp [isMarker] at hmarker
  | some name =>
      have hname := (h.symbol name hsym).1
      have hend : b.text = q :: b.raw ++ [q, ')', '.'] ++ name := by
        simp [htext, hsym, symbolText]
      rw [hend, List.getLast?_append_of_ne_nil _ hname.1] at hc
      have hlast := hname.getLast?
      simp [hc, isIdentifierChar_of_isMarker hmarker] at hlast

end Body.Shaped

theorem length_filter_isMarker_le {before : Option Char} {offset : Nat}
    (hoffset : before.isSome → 1 ≤ offset) :
    (before.filter isMarker).toList.length ≤ offset := by
  cases before with
  | none => simp
  | some c =>
      have := hoffset rfl
      by_cases hc : isMarker c = true
      · simp [Option.filter, hc, this]
      · simp [Option.filter, hc]

/-- The references found are pieces of the text together with the marker that may stand in front
of it. -/
theorem tile_scanFrom (before : Option Char) (offset : Nat) (t : Text)
    (hoffset : before.isSome → 1 ≤ offset) :
    Piece.Tile (offset - (before.filter isMarker).toList.length)
      ((before.filter isMarker).toList ++ t) ((scanFrom before offset t).map piece) := by
  fun_induction scanFrom before offset t with
  | case1 => trivial
  | case2 before offset c cs hopen ih =>
      apply Piece.Tile.skip_sub (length_filter_isMarker_le hoffset)
      have htile := ih fun _ => by omega
      by_cases hc : isMarker c = true
      · simpa [Option.filter, hc] using htile
      · rw [← List.singleton_append]
        apply Piece.Tile.skip
        simpa [Option.filter, hc] using htile
  | case3 before offset c cs t hopen _ hbefore ih =>
      apply Piece.Tile.skip_sub (length_filter_isMarker_le hoffset)
      rw [Text.after?_eq_some_iff.mp hopen]
      exact (ih fun _ => by simp [opening]).skip
  | case4 before offset c cs t hopen _ hbefore hbody ih =>
      apply Piece.Tile.skip_sub (length_filter_isMarker_le hoffset)
      rw [Text.after?_eq_some_iff.mp hopen]
      exact (ih fun _ => by simp [opening]).skip
  | case5 before offset c cs t hopen _ hbefore b hbody _ marker stop ih =>
      have hshaped := readBody?_shaped hbody
      have hle := length_filter_isMarker_le hoffset
      have htile := ih fun _ => by simp only [stop, opening, List.length_cons]; omega
      rw [hshaped.filter_getLast?] at htile
      refine ⟨[], b.rest, ?_, ?_, ?_, htile⟩
      · rw [Text.after?_eq_some_iff.mp hopen, hshaped.append_rest]
        simp [piece, marker]
      · simp [piece, marker]
      · simp only [piece, stop, marker, List.length_append]
        omega

/-- The reference whose body is read behind an opening at `offset`, behind the character
`before`. -/
def ofBody (before : Option Char) (offset : Nat) (b : Body) : ImportRef :=
  let marker := before.filter isMarker
  ⟨offset - marker.toList.length, offset + opening.length + b.text.length, marker,
    withoutSuffix b.raw, b.symbol, marker.toList ++ opening ++ b.text⟩

/-- The reference is read somewhere in a text that stands at `offset` behind `before`. -/
def ReadIn (before : Option Char) (offset : Nat) (t : Text) (ref : ImportRef) : Prop :=
  ∃ front rest b, t = front ++ (opening ++ rest) ∧ readBody? rest = some b ∧
    (front.getLast?.or before).any isIdentifierChar = false ∧
    ref = ofBody (front.getLast?.or before) (offset + front.length) b

theorem ReadIn.skip {before : Option Char} {offset : Nat} {passed t : Text} {ref : ImportRef}
    (hne : passed ≠ []) (h : ReadIn passed.getLast? (offset + passed.length) t ref) :
    ReadIn before offset (passed ++ t) ref := by
  obtain ⟨front, rest, b, rfl, hbody, hbare, rfl⟩ := h
  have hlast : (passed ++ front).getLast?.or before = front.getLast?.or passed.getLast? := by
    have hsome : passed.getLast?.isSome = true := by simpa using hne
    rw [List.getLast?_append, Option.or_assoc, Option.or_of_isSome hsome]
  refine ⟨passed ++ front, rest, b, by rw [List.append_assoc], hbody, by rwa [hlast], ?_⟩
  rw [hlast, List.length_append, Nat.add_assoc]

/-- Every reference found is read at its place. -/
theorem readIn_of_mem_scanFrom {before : Option Char} {offset : Nat} {t : Text} {ref : ImportRef}
    (href : ref ∈ scanFrom before offset t) : ReadIn before offset t ref := by
  fun_induction scanFrom before offset t with
  | case1 => simp at href
  | case2 before offset c cs hopen ih =>
      rw [← List.singleton_append]
      exact ReadIn.skip (List.cons_ne_nil _ _) (ih href)
  | case3 before offset c cs t hopen _ hbefore ih =>
      rw [Text.after?_eq_some_iff.mp hopen]
      exact ReadIn.skip (List.cons_ne_nil _ _) (ih href)
  | case4 before offset c cs t hopen _ hbefore hbody ih =>
      rw [Text.after?_eq_some_iff.mp hopen]
      exact ReadIn.skip (List.cons_ne_nil _ _) (ih href)
  | case5 before offset c cs t hopen _ hbefore b hbody _ marker stop ih =>
      rw [Text.after?_eq_some_iff.mp hopen]
      rcases List.mem_cons.mp href with rfl | href
      · exact ⟨[], t, b, rfl, hbody, by simpa using hbefore, rfl⟩
      · have hshaped := readBody?_shaped hbody
        have hlast : (opening ++ b.text).getLast? = b.text.getLast? :=
          List.getLast?_append_of_ne_nil _ hshaped.text_ne_nil
        have hstop : stop = offset + (opening ++ b.text).length := by
          simp only [stop, List.length_append]
          omega
        have hread := ih href
        rw [← hlast, hstop] at hread
        rw [hshaped.append_rest, ← List.append_assoc]
        exact ReadIn.skip (List.cons_ne_nil _ _) hread

/-- What every reference found looks like. -/
structure Shaped (ref : ImportRef) : Prop where
  marker : ref.marker.all isMarker = true
  specifier_chars : ∀ c ∈ ref.specifier, isNameChar c = true
  specifier_within : ref.specifier <:+: ref.text
  symbol : ∀ name, ref.symbol = some name → IsDotted name
  text_eq : ∃ body, ref.text = ref.marker.toList ++ (opening ++ body) ∧ '*' ∉ body

theorem withoutSuffix_isPrefix (raw : Text) : withoutSuffix raw <+: raw := by
  unfold withoutSuffix
  split
  · exact List.take_prefix _ raw
  · exact List.prefix_refl raw

/-- What is known of a reference found in a text that stands at `offset`: it has its shape, and no
identifier goes on behind its symbol. -/
structure Found (offset : Nat) (t : Text) (ref : ImportRef) : Prop where
  shaped : ref.Shaped
  le_stop : offset ≤ ref.stop
  ends : ref.symbol.isSome → Ends (t.drop (ref.stop - offset))

theorem found_of_mem_scanFrom {before : Option Char} {offset : Nat} {t : Text} {ref : ImportRef}
    (href : ref ∈ scanFrom before offset t) : Found offset t ref := by
  obtain ⟨front, rest, b, ht, hbody, -, rfl⟩ := readIn_of_mem_scanFrom href
  have hshaped := readBody?_shaped hbody
  have hcut : t = (front ++ opening ++ b.text) ++ b.rest := by
    rw [ht, hshaped.append_rest, List.append_assoc, List.append_assoc]
  have hstop : (ofBody (front.getLast?.or before) (offset + front.length) b).stop =
      offset + (front ++ opening ++ b.text).length := by
    simp only [ofBody, List.length_append]
    omega
  refine ⟨⟨?_, ?_, ?_, ?_, ?_⟩, hstop ▸ Nat.le_add_right .., fun hsome => ?_⟩
  · simp [ofBody, Option.all_filter]
  · exact fun c hc => hshaped.raw_chars c ((withoutSuffix_isPrefix b.raw).subset hc)
  · obtain ⟨q, -, htext⟩ := hshaped.text_eq
    refine (withoutSuffix_isPrefix b.raw).isInfix.trans
      ⟨((front.getLast?.or before).filter isMarker).toList ++ opening ++ [q],
        [q, ')'] ++ symbolText b.symbol, ?_⟩
    simp [ofBody, htext]
  · exact fun name hname => (hshaped.symbol name hname).1
  · exact ⟨b.text, by simp [ofBody], hshaped.star_notMem⟩
  · obtain ⟨name, hname⟩ := Option.isSome_iff_exists.mp hsome
    rw [hstop, hcut, Nat.add_sub_cancel_left, List.drop_left]
    exact (hshaped.symbol name hname).2

namespace Shaped

variable {ref : ImportRef}

theorem inert (h : ref.Shaped) : DocComment.Inert ref.text := by
  obtain ⟨body, htext, hbody⟩ := h.text_eq
  have hmarker := h.marker
  cases hmark : ref.marker with
  | none =>
      rw [htext, hmark]
      exact ⟨by simp [opening], by simp [opening], by simp [opening, hbody]⟩
  | some m =>
      rw [hmark] at hmarker
      simp only [Option.all_some, isMarker, Bool.or_eq_true, decide_eq_true_eq] at hmarker
      rw [htext, hmark]
      rcases hmarker with rfl | rfl
      · exact ⟨by simp, by simp, by simp [opening, hbody]⟩
      · exact ⟨by simp, by simp, by simp [opening, hbody]⟩

end Shaped

end ImportRef

end DocRefs
