import Mathlib
import DocRefs.Proofs.Exchange

/-!
# References in a text with parts exchanged

A reference that can be read in the new text begins at a character that was kept, and it can be read
at the same place of the old text with the same path. So when no reference that was kept has a
symbol or a module, a search in the new text finds nothing that linking would replace.
-/

namespace DocRefs

open ImportRef (opening readBody? readSymbol)

namespace ImportRef

theorem isNameChar_of_isQuote {q : Char} (hq : isQuote q = true) : isNameChar q = false := by
  simp only [isQuote, Bool.or_eq_true, decide_eq_true_eq] at hq
  rcases hq with rfl | rfl <;> rfl

theorem isIdentifierChar_of_isQuote {q : Char} (hq : isQuote q = true) :
    isIdentifierChar q = false := by
  by_contra hident
  have hname := isNameChar_of_isIdentifierChar (Bool.not_eq_false _ ▸ hident)
  simp [isNameChar_of_isQuote hq] at hname

theorem isSome_readSymbol {t : Text} :
    (readSymbol t).1.isSome = true ↔ ∃ u, t = '.' :: u ∧ u.head?.any isIdentifierChar = true := by
  unfold readSymbol
  split
  next u =>
    have hiff := dotted_fst_eq_nil_iff u
    have hany : u.head?.all (fun c => !isIdentifierChar c) =
        !u.head?.any isIdentifierChar := by
      cases u.head? <;> rfl
    rw [hany, Bool.not_eq_true'] at hiff
    dsimp only
    split
    next hnil => simp [hiff.mp (List.isEmpty_iff.mp hnil)]
    next hne =>
      rw [List.isEmpty_iff, hiff, Bool.not_eq_false] at hne
      simp [hne]
  next hdot =>
    simp only [Option.isSome_none, Bool.false_eq_true, false_iff]
    rintro ⟨u, rfl, -⟩
    exact hdot u rfl

theorem readBody?_append {q : Char} {raw : Text} (hq : isQuote q = true) (hne : raw ≠ [])
    (hraw : ∀ c ∈ raw, isNameChar c = true) (rest : Text) :
    ∃ b, readBody? (q :: (raw ++ q :: ')' :: rest)) = some b ∧ b.raw = raw ∧
      b.symbol = (readSymbol rest).1 := by
  have hname := isNameChar_of_isQuote hq
  have htake : (raw ++ q :: ')' :: rest).takeWhile isNameChar = raw := by
    rw [List.takeWhile_append_of_pos hraw, List.takeWhile_cons_of_neg (by simp [hname]),
      List.append_nil]
  have hdrop : (raw ++ q :: ')' :: rest).dropWhile isNameChar = q :: ')' :: rest := by
    rw [List.dropWhile_append_of_pos hraw, List.dropWhile_cons_of_neg (by simp [hname])]
  rw [readBody?, if_pos hq]
  simp only [htake, hdrop]
  rw [if_pos ⟨trivial, hne⟩]
  exact ⟨_, rfl, rfl, rfl⟩

theorem exists_of_readBody? {t : Text} {b : Body} (h : readBody? t = some b) :
    ∃ q rest, isQuote q = true ∧ b.raw ≠ [] ∧ (∀ c ∈ b.raw, isNameChar c = true) ∧
      t = q :: (b.raw ++ q :: ')' :: rest) ∧ b.symbol = (readSymbol rest).1 := by
  unfold readBody? at h
  split at h
  · simp at h
  next q t =>
    split at h
    next hq =>
      dsimp only at h
      split at h
      next q' rest hrest =>
        split at h
        next hclose =>
          obtain ⟨rfl, hraw⟩ := hclose
          obtain rfl := Option.some.inj h
          refine ⟨q', rest, hq, hraw, fun c hc => List.mem_takeWhile_imp hc, ?_, rfl⟩
          rw [← hrest, List.takeWhile_append_dropWhile]
        · simp at h
      · simp at h
    · simp at h

end ImportRef

theorem any_isIdentifierChar_eq_false {c? : Option Char} (h : c?.any isJoiner = false) :
    c?.any isIdentifierChar = false := by
  cases c? with
  | none => rfl
  | some c =>
      simp only [Option.any_some, isJoiner, Bool.or_eq_false_iff] at h
      exact h.1

theorem isUnfinished_cons {c : Char} (hc : isNameChar c = true) (before : Text) :
    isUnfinished (c :: before) = isUnfinished before := by
  rw [isUnfinished, List.dropWhile_cons_of_pos hc, isUnfinished]

theorem isUnfinished_quote {q : Char} (hq : ImportRef.isQuote q = true) (before : Text) :
    isUnfinished (q :: (opening.reverse ++ before)) = true := by
  have hname : ¬isNameChar q = true := by simp [ImportRef.isNameChar_of_isQuote hq]
  have hopening : Text.startsWith (opening.reverse ++ before) opening.reverse = true :=
    Text.startsWith_iff.mpr (List.prefix_append _ _)
  rw [isUnfinished, List.dropWhile_cons_of_neg hname]
  simp [hq, hopening]

/-- Every reference that can be read in a text has a property of its path and symbol. -/
def EveryRef (keeps : Text → Option Text → Prop) (before t : Text) : Prop :=
  ∀ u v raw symbol, t = u ++ v → RefAt (u.reverse ++ before) v raw symbol → keeps raw symbol

theorem not_refAt_nil {before raw : Text} {symbol : Option Text} :
    ¬RefAt before [] raw symbol := by
  rintro ⟨-, u, b, hu, -⟩
  simp [opening] at hu

namespace Exchanged

variable {keeps : Text → Option Text → Prop} {swaps : Text → Text → Prop}
  {before before' t t' u' : Text} {c q : Char}

/-- A quoted path that ends in the new text stands in the old one. -/
theorem kept_path {raw : Text} (hq : ImportRef.isQuote q = true)
    (hraw : ∀ c ∈ raw, isNameChar c = true)
    (h : Exchanged keeps swaps before before' t (raw ++ q :: u'))
    (hpath : isUnfinished before = true) :
    ∃ u, t = raw ++ q :: u ∧
      Exchanged keeps swaps (q :: (raw.reverse ++ before)) (q :: (raw.reverse ++ before'))
        u u' := by
  induction raw generalizing before before' t with
  | nil =>
      obtain ⟨u, v, rfl, hv, hrest⟩ :=
        h.kept_char (ImportRef.isIdentifierChar_of_isQuote hq) (.inr rfl)
      obtain rfl : u' = v := (List.cons.inj hv).2
      exact ⟨u, rfl, hrest⟩
  | cons c raw ih =>
      obtain ⟨hc, hraw⟩ := List.forall_mem_cons.mp hraw
      generalize hnew : c :: raw ++ q :: u' = new at h
      cases h with
      | nil => simp at hnew
      | keep d _ h =>
          rw [List.cons_append, List.cons.injEq] at hnew
          obtain ⟨rfl, rfl⟩ := hnew
          obtain ⟨u, rfl, hrest⟩ := ih hraw h (by rw [isUnfinished_cons hc, hpath])
          exact ⟨u, rfl, by simpa using hrest⟩
      | swap old new hfits _ _ hu' _ =>
          -- The new part begins with the module mark, whose colon ends the run of name characters.
          obtain ⟨x, rfl⟩ := hfits.path.resolve_right (by simp [hpath])
          have hname : ¬isNameChar q = true := by simp [ImportRef.isNameChar_of_isQuote hq]
          have hdrop := congrArg (List.dropWhile isNameChar) (hnew.trans hu')
          rw [List.dropWhile_append_of_pos (List.forall_mem_cons.mpr ⟨hc, hraw⟩),
            List.dropWhile_cons_of_neg hname, List.append_assoc] at hdrop
          have hmark : ∀ v : Text, (moduleMark ++ v).dropWhile isNameChar = ':' :: v := by
            intro v
            have hword : ∀ d ∈ moduleWord, isNameChar d = true := fun d hd =>
              isNameChar_of_isIdentifierChar
                (isIdentifierChar_of_mem_tagWords (by simp [tagWords]) d hd)
            have hsplit : moduleMark ++ v = moduleWord ++ ':' :: v := rfl
            rw [hsplit, List.dropWhile_append_of_pos hword, List.dropWhile_cons_of_neg (by decide)]
          rw [hmark, List.cons.injEq] at hdrop
          rw [hdrop.1] at hq
          exact absurd hq (by decide)

/-- A reference that can be read at a character kept can be read there in the old text. The old one
has a symbol if the new one has. -/
theorem refAt_of_keep {raw : Text} {symbol : Option Text}
    (h : Exchanged keeps swaps (c :: before) (c :: before') t t')
    (hlevel : isIdentifierChar c = true →
      before'.head?.any isIdentifierChar = before.head?.any isIdentifierChar)
    (href : RefAt before' (c :: t') raw symbol) :
    ∃ symbol', RefAt before (c :: t) raw symbol' ∧ (symbol' = none → symbol = none) := by
  obtain ⟨hfront, u', b', htext, hbody, rfl, rfl⟩ := href
  -- From the opening to the parenthesis, character by character: none of it can be exchanged.
  obtain ⟨rfl, ht'⟩ : c = 'i' ∧ t' = ['m', 'p', 'o', 'r', 't'] ++ '(' :: u' := by
    simpa [opening] using htext
  obtain ⟨v, v', rfl, hv', hword⟩ := kept_word (w := ['m', 'p', 'o', 'r', 't'])
    (List.all_eq_true.mp rfl) h rfl (.inr ⟨_, ht'.symm⟩)
  rw [ht'] at hv'
  obtain rfl := List.append_cancel_left hv'
  obtain ⟨u, w', rfl, hw', hparen⟩ := kept_char rfl hword (.inr rfl)
  obtain rfl : w' = u' := (List.cons.inj hw').2.symm
  obtain ⟨q, rest', hq, hne, hraw, hu', hsymbol⟩ := ImportRef.exists_of_readBody? hbody
  obtain ⟨u, v', rfl, hv', hquote⟩ :=
    kept_char (ImportRef.isIdentifierChar_of_isQuote hq) hparen (.inr (by rw [hu']; rfl))
  obtain rfl : v' = b'.raw ++ q :: ')' :: rest' := (List.cons.inj (hu'.symm.trans hv')).2.symm
  obtain ⟨u, rfl, hpath⟩ := kept_path hq hraw hquote (isUnfinished_quote hq before)
  obtain ⟨rest, v', rfl, hv', hclose⟩ := kept_char rfl hpath (.inr rfl)
  obtain rfl : v' = rest' := (List.cons.inj hv').2.symm
  obtain ⟨b, hbody', hbraw, hbsymbol⟩ := ImportRef.readBody?_append hq hne hraw rest
  refine ⟨(readSymbol rest).1, ⟨(hlevel rfl).symm.trans hfront, _, b, rfl, hbody', hbraw,
    hbsymbol⟩, fun hnone => ?_⟩
  by_contra hsome
  rw [hsymbol, ← ne_eq, ← Option.isSome_iff_ne_none, ImportRef.isSome_readSymbol] at hsome
  obtain ⟨w', rfl, hident⟩ := hsome
  obtain ⟨w, v', rfl, hv', hdot⟩ := kept_char rfl hclose (.inr rfl)
  obtain rfl : v' = w' := (List.cons.inj hv').2.symm
  have hsome : (readSymbol ('.' :: w)).1.isSome = true :=
    ImportRef.isSome_readSymbol.mpr ⟨w, rfl, hdot.head_isIdentifierChar.symm.trans hident⟩
  simp [hnone] at hsome

/-- An opening that begins in a text and goes on behind it. -/
theorem opening_goes_on {y z : Text} (hopening : y ++ z = opening) (hy : y ≠ []) :
    z = [] ∨ z.head?.any isIdentifierChar = true ∨ (y = importWord ∧ z = ['(']) := by
  have hall : ∀ k ∈ List.range 8, k ≠ 0 → opening.drop k = [] ∨
      (opening.drop k).head?.any isIdentifierChar = true ∨
      (opening.take k = importWord ∧ opening.drop k = ['(']) := by
    decide +kernel
  have hz : opening.drop y.length = z := by rw [← hopening, List.drop_left]
  have hy' : opening.take y.length = y := by rw [← hopening, List.take_left]
  have hlength : y.length + z.length = 7 := by
    rw [← List.length_append, hopening]
    rfl
  have hk := hall y.length (by simp; omega) (by simpa using hy)
  rwa [hz, hy'] at hk

/-- No reference begins in a part that was put in. -/
theorem no_opening_new {old new rest rest' x y : Text} (hfits : Fits before old new rest)
    (hrest : Exchanged keeps swaps (old.reverse ++ before) (new.reverse ++ before') rest rest')
    (hnew : new = x ++ y) (hy : y ≠ []) : ¬opening <+: y ++ rest' := by
  intro hbegins
  have hpart : ¬opening <+: y := fun hle =>
    hfits.plain.opening (hle.isInfix.trans (hnew ▸ (List.suffix_append x y).isInfix))
  have hle : y <+: opening := (List.prefix_or_prefix_of_prefix hbegins
    (List.prefix_append y rest')).resolve_left hpart
  obtain ⟨z, hz⟩ := hle
  obtain ⟨w, hw⟩ := hbegins
  rw [← hz, List.append_assoc] at hw
  have hrest' : rest' = z ++ w := (List.append_cancel_left hw).symm
  rcases hfits.tail with ⟨-, htilde⟩ | ⟨hident, hparen, -⟩
  · rw [hnew, List.getLast?_append_of_ne_nil _ hy] at htilde
    have hmem : '~' ∈ opening := hz ▸ List.mem_append_left z (List.mem_of_getLast? htilde)
    exact absurd hmem (by decide)
  · rcases opening_goes_on hz hy with rfl | hgoes | ⟨rfl, rfl⟩
    · rw [List.append_nil] at hz
      exact hpart (hz ▸ List.prefix_refl _)
    · have hhead := Text.any_head?_append hgoes w
      rw [← hrest', hrest.head_isIdentifierChar, hident] at hhead
      exact Bool.false_ne_true hhead
    · obtain ⟨u, u', rfl, -, -⟩ := kept_char (c := '(') rfl hrest (.inr (by rw [hrest']; rfl))
      exact hparen rfl (hnew ▸ List.suffix_append x _)

/-- Every reference that can be read in the new text was kept. -/
theorem everyRef (h : Exchanged keeps swaps before before' t t')
    (hkeeps : ∀ raw symbol, keeps raw symbol → symbol = none)
    (hlevel : t.head?.any isIdentifierChar = true →
      before'.head?.any isIdentifierChar = before.head?.any isIdentifierChar) :
    EveryRef keeps before' t' := by
  induction h with
  | nil =>
      intro u v raw symbol hsplit href
      obtain ⟨rfl, rfl⟩ := List.append_eq_nil_iff.mp hsplit.symm
      exact absurd href not_refAt_nil
  | @keep before before' t t' c hrefs h ih =>
      intro u v raw symbol hsplit href
      cases u with
      | nil =>
          rw [List.nil_append] at hsplit
          subst hsplit
          -- Only references without a symbol are kept, so the new one has the symbol of the old.
          obtain ⟨symbol', hold, hsymbol⟩ := refAt_of_keep h hlevel href
          have hkept := hrefs raw symbol' hold
          have hnone := hkeeps raw symbol' hkept
          rwa [hsymbol hnone, ← hnone]
      | cons d u =>
          rw [List.cons_append, List.cons.injEq] at hsplit
          obtain ⟨rfl, hsplit⟩ := hsplit
          exact ih (fun _ => rfl) u v raw symbol hsplit (by simpa using href)
  | @swap before before' t t' w w' old new hfits hswap hw hw' h ih =>
      intro u v raw symbol hsplit href
      have hbehind : t.head?.any isIdentifierChar = true →
          (new.reverse ++ before').head?.any isIdentifierChar =
            (old.reverse ++ before).head?.any isIdentifierChar := by
        intro hident
        rcases hfits.tail with ⟨rfl, htilde⟩ | ⟨hnot, -⟩
        · have hlast : (new.reverse ++ before').head? = some '~' := by
            rw [List.head?_append, List.head?_reverse, htilde]
            rfl
          rw [hlast, List.reverse_nil, List.nil_append, any_isIdentifierChar_eq_false hfits.front]
          rfl
        · simp [hnot] at hident
      rw [hw'] at hsplit
      rcases List.append_eq_append_iff.mp hsplit with ⟨x, rfl, rfl⟩ | ⟨y, hnew, rfl⟩
      · exact ih hbehind x v raw symbol rfl (by simpa using href)
      · by_cases hy : y = []
        · subst hy
          rw [List.append_nil] at hnew
          subst hnew
          exact ih hbehind [] t' raw symbol rfl (by simpa using href)
        · obtain ⟨-, rest, b, hopening, -⟩ := href
          exact absurd ⟨rest, hopening.symm⟩ (no_opening_new hfits h hnew hy)

end Exchanged

theorem ImportRef.Body.Shaped.head?_reverse {t : Text} {b : ImportRef.Body} (h : b.Shaped t)
    (before : Text) : ((opening ++ b.text).reverse ++ before).head? = b.text.getLast? := by
  rw [List.reverse_append, List.append_assoc, List.head?_append, List.head?_reverse]
  exact Option.or_of_isSome (by simpa using h.text_ne_nil)

/-- A reference that the search finds can be read at its place. -/
theorem ImportRef.refAt_of_mem_scan {t : Text} {ref : ImportRef} (href : ref ∈ scan t) :
    ∃ u v raw, t = u ++ v ∧ RefAt u.reverse v raw ref.symbol ∧
      ref.specifier = withoutSuffix raw := by
  obtain ⟨u, rest, b, ht, hbody, hbare, rfl⟩ := readIn_of_mem_scanFrom href
  rw [Option.or_none, ← List.head?_reverse] at hbare
  exact ⟨u, opening ++ rest, b.raw, ht, ⟨hbare, rest, b, rfl, hbody, rfl, rfl⟩, rfl⟩

theorem EveryRef.of_mem_scan {keeps : Text → Option Text → Prop} {t : Text}
    (h : EveryRef keeps [] t) {ref : ImportRef} (href : ref ∈ ImportRef.scan t) :
    ∃ raw, ref.specifier = ImportRef.withoutSuffix raw ∧ keeps raw ref.symbol := by
  obtain ⟨u, v, raw, hsplit, hat, hspecifier⟩ := ImportRef.refAt_of_mem_scan href
  exact ⟨raw, hspecifier, h u v raw ref.symbol hsplit (by simpa using hat)⟩

end DocRefs
