import Mathlib
import DocRefs.Proofs.Rewritten
import DocRefs.Proofs.Survival

/-!
# Words of qualified comments

A mark in front of a word claims the word, and the mark itself exposes no name when the module id
shelters the names and holds no quotation mark. Quotations, words and slots are otherwise found in
the qualified comment where they were before. So no word of a qualified comment is among the names,
and qualifying the comment again changes nothing.
-/

namespace DocRefs

theorem Text.cut?_of_notMem {c : Char} {t : Text} (h : c ∉ t) (rest : Text) :
    Text.cut? [c] (t ++ c :: rest) = some (t, rest) := by
  induction t with
  | nil => simp [Text.cut?, Text.after?]
  | cons d t ih =>
      rw [List.mem_cons, not_or] at h
      rw [List.cons_append, Text.cut?, ih h.2]
      simp [Text.after?, h.1]

/-- Weaving brings in no character that neither the text nor the new pieces hold. -/
theorem Piece.notMem_weave_gaps {c : Char} {offset : Nat} {t : Text} {ps : List Piece}
    {us : List Text} (ht : c ∉ t) (hus : ∀ u ∈ us, c ∉ u) :
    c ∉ Text.weave (gaps offset t ps) us := by
  induction ps generalizing offset t us with
  | nil =>
      cases us with
      | nil => exact ht
      | cons u us => simpa [gaps, Text.weave] using ⟨ht, hus u List.mem_cons_self⟩
  | cons p ps ih =>
      have htake : c ∉ t.take (p.start - offset) := fun h => ht (List.mem_of_mem_take h)
      cases us with
      | nil => exact htake
      | cons u us =>
          rw [gaps, Text.weave, List.mem_append, List.mem_append, not_or, not_or]
          refine ⟨htake, hus u List.mem_cons_self, ?_⟩
          exact ih (fun h => ht (List.mem_of_mem_drop h)) fun v hv => hus v (by simp [hv])

/-- The dotted identifier at the start of a text. -/
theorem exists_word {c : Char} (hc : isIdentifierChar c = true) (t : Text) :
    ∃ cs rest, t = cs ++ rest ∧ IsDotted (c :: cs) ∧ Ends rest := by
  have hne := TypeWord.dotted_ne_nil hc t
  have hdotted : dotted (c :: t) = (c :: (dottedTail t).1, (dottedTail t).2) := by
    simp [dotted, hc]
  have hword := isDotted_dotted hne
  have hends := ends_dotted hne
  rw [hdotted] at hword hends
  exact ⟨_, _, (dottedTail_append t).symm, hword, hends⟩

theorem isSheltered_append {names : List Text} {before u v : Text}
    (h : isSheltered names before (u ++ v) = true) :
    isSheltered names (u.reverse ++ before) v = true := by
  induction u generalizing before with
  | nil => exact h
  | cons c u ih =>
      rw [List.cons_append, isSheltered, Bool.and_eq_true] at h
      simpa using ih h.2

namespace TypeWord

/-! ## The search, step by step -/

theorem isQuote_of_isNameChar {c : Char} (hc : isNameChar c = true) : isQuote c = false := by
  by_contra hquote
  simp only [isQuote, Bool.not_eq_false, Bool.or_eq_true, decide_eq_true_eq] at hquote
  have hnot : isNameChar c = false := by
    rcases hquote with (rfl | rfl) | rfl <;> rfl
  simp [hnot] at hc

theorem isQuote_of_isIdentifierChar {c : Char} (hc : isIdentifierChar c = true) :
    isQuote c = false :=
  isQuote_of_isNameChar (isNameChar_of_isIdentifierChar hc)

theorem scanFrom_quote {c : Char} {quoted : Text} (hc : isQuote c = true) (hquoted : c ∉ quoted)
    (before : Text) (offset : Nat) (rest : Text) :
    scanFrom before offset (c :: (quoted ++ c :: rest)) =
      scanFrom (c :: (quoted.reverse ++ c :: before)) (offset + quoted.length + 2) rest := by
  have hcut := Text.cut?_of_notMem hquoted rest
  rw [scanFrom, if_pos hc]
  split
  next hnone => simp [hcut] at hnone
  next body after hsome =>
    rw [hcut] at hsome
    simp only [Option.some.injEq, Prod.mk.injEq] at hsome
    obtain ⟨rfl, rfl⟩ := hsome
    rfl

theorem scanFrom_unclosed {c : Char} {t : Text} (hc : isQuote c = true)
    (hcut : Text.cut? [c] t = none) (before : Text) (offset : Nat) :
    scanFrom before offset (c :: t) = [] := by
  rw [scanFrom, if_pos hc]
  split
  · rfl
  next hsome => simp [hcut] at hsome

theorem scanFrom_other {c : Char} (hquote : isQuote c = false) (hident : isIdentifierChar c = false)
    (before : Text) (offset : Nat) (t : Text) :
    scanFrom before offset (c :: t) = scanFrom (c :: before) (offset + 1) t := by
  rw [scanFrom, if_neg (by simp [hquote]), dif_neg (by simp [hident])]

theorem scanFrom_word {c : Char} {cs rest : Text} (hname : IsDotted (c :: cs)) (hends : Ends rest)
    (before : Text) (offset : Nat) :
    scanFrom before offset ((c :: cs) ++ rest) =
      (if isBare before c rest then [⟨offset, offset + (c :: cs).length, c :: cs⟩] else []) ++
        scanFrom ((c :: cs).reverse ++ before) (offset + (c :: cs).length) rest := by
  have hc : isIdentifierChar c = true := by
    obtain ⟨d, ds, heq, hd, -⟩ := hname.exists_cons
    rwa [(List.cons.inj heq).1]
  have hdotted : dotted (c :: (cs ++ rest)) = (c :: cs, rest) := hname.dotted_append hends
  rw [List.cons_append, scanFrom, if_neg (by simp [isQuote_of_isIdentifierChar hc]), dif_pos hc]
  simp only [hdotted]
  split <;> rfl

/-- What stands in front of two texts lets the same words be bare. -/
def SameBare (before before' : Text) : Prop :=
  ∀ u c rest, isBare (u ++ before') c rest = isBare (u ++ before) c rest

theorem SameBare.append {before before' : Text} (h : SameBare before before') (w : Text) :
    SameBare (w ++ before) (w ++ before') := by
  intro u c rest
  rw [← List.append_assoc, ← List.append_assoc]
  exact h (u ++ w) c rest

/-- Behind a character other than a dot, no spread goes back over it. -/
theorem sameBare_cons {x : Char} (hx : x ≠ '.') (y z : Text) : SameBare (x :: y) (x :: z) := by
  intro u c rest
  have hhead : (u ++ x :: z).head? = (u ++ x :: y).head? := by
    cases u <;> rfl
  have hspread : Text.startsWith (u ++ x :: z) ['.', '.', '.'] =
      Text.startsWith (u ++ x :: y) ['.', '.', '.'] := by
    have hdots : x ∉ ['.', '.', '.'] := by simp [hx]
    rw [Bool.eq_iff_iff, Text.startsWith_iff, Text.startsWith_iff,
      Text.prefix_append_cons_iff hdots, Text.prefix_append_cons_iff hdots]
  rw [isBare, isBare, hhead, hspread]

theorem sameBare_of_isDotted {name : Text} (h : IsDotted name) (y z : Text) :
    SameBare (name.reverse ++ y) (name.reverse ++ z) := by
  have hident := h.getLast?
  cases hlast : name.getLast? with
  | none => simp [hlast] at hident
  | some x =>
      obtain ⟨u, rfl⟩ := List.getLast?_eq_some_iff.mp hlast
      have hx : x ≠ '.' := by
        rintro rfl
        simp at hident
      simpa using sameBare_cons hx (u.reverse ++ y) (u.reverse ++ z)

/-! ## Over a mark -/

/-- A word at the start of a sheltered text is no name if it can be bare there. -/
theorem notMem_of_isBare {names : List Text} {before cs seg rest : Text} {c : Char}
    (hseg : isSheltered names before (c :: (cs ++ seg)) = true) (hc : isIdentifierChar c = true)
    (hfront : before.head?.any isIdentifierChar = false) (hbare : isBare before c rest = true) :
    c :: cs ∉ names := by
  intro hmem
  simp only [isBare, Bool.and_eq_true, Bool.or_eq_true, Bool.not_eq_true'] at hbare
  have hqualifier : (before.head?.any isQualifier &&
      !Text.startsWith before ['.', '.', '.']) = false := by
    rcases hbare.1.2 with hnot | hspread
    · simp [hnot]
    · simp [hspread]
  rw [isSheltered, Bool.and_eq_true, hc, hfront, hqualifier] at hseg
  simp only [Bool.not_true, Bool.or_self, Bool.false_or, List.all_eq_true] at hseg
  have hstart := hseg.1 _ hmem
  rw [Text.startsWith_iff.mpr (show c :: cs <+: c :: (cs ++ seg) by simp)] at hstart
  simp at hstart

/-- No name begins in a sheltered text, where `before'` lets the same words be bare as `before`. -/
theorem notMem_of_isSheltered {names : List Text} {before before' seg rest : Text}
    (hsame : SameBare before before') (hseg : isSheltered names before seg = true)
    (hquotes : ∀ c ∈ seg, isQuote c = false)
    (hident : before.head?.any isIdentifierChar = true → seg.head?.any isIdentifierChar = false)
    (offset : Nat)
    (hrest : ∀ w ∈ scanFrom ('~' :: (seg.reverse ++ before')) (offset + seg.length + 1) rest,
      w.token ∉ names) :
    ∀ w ∈ scanFrom before' offset (seg ++ '~' :: rest), w.token ∉ names := by
  -- The search passes a word as a whole, so the induction is on the length.
  induction hn : seg.length using Nat.strongRecOn generalizing seg before before' offset with
  | ind n ih =>
    subst hn
    cases seg with
    | nil =>
        rw [List.nil_append, scanFrom_other rfl rfl]
        exact hrest
    | cons c seg =>
        by_cases hc : isIdentifierChar c = true
        · obtain ⟨cs, seg', rfl, hname, hends⟩ := exists_word hc seg
          have hseg' : isSheltered names ((c :: cs).reverse ++ before) seg' = true :=
            isSheltered_append (u := c :: cs) hseg
          have hsplit : c :: (cs ++ seg') ++ '~' :: rest =
              (c :: cs) ++ (seg' ++ '~' :: rest) := by simp
          rw [hsplit, scanFrom_word hname (hends.append_cons rfl (by decide) rest)]
          intro w hw
          rcases List.mem_append.mp hw with hw | hw
          · split at hw
            next hbare =>
              obtain rfl := List.mem_singleton.mp hw
              have hfront : before.head?.any isIdentifierChar = false := by
                by_contra htrue
                rw [Bool.not_eq_false] at htrue
                have hnot := hident htrue
                simp [hc] at hnot
              exact notMem_of_isBare hseg hc hfront ((hsame [] c _).symm.trans hbare)
            next => simp at hw
          · refine ih seg'.length (by simp) (hsame.append (c :: cs).reverse) hseg'
              (fun d hd => hquotes d (by simp [hd])) (fun _ => hends.head) _ ?_ rfl w hw
            have hcount : offset + (c :: (cs ++ seg')).length + 1 =
                offset + (c :: cs).length + seg'.length + 1 := by simp; omega
            rw [hcount] at hrest
            simpa using hrest
        · rw [Bool.not_eq_true] at hc
          have hquote := hquotes c List.mem_cons_self
          rw [isSheltered, Bool.and_eq_true] at hseg
          rw [List.cons_append, scanFrom_other hquote hc]
          refine ih seg.length (by simp) (hsame.append [c]) hseg.2
            (fun d hd => hquotes d (List.mem_cons_of_mem c hd)) ?_ _ ?_ rfl
          · intro hfront
            simp [hc] at hfront
          · have hcount : offset + (c :: seg).length + 1 = offset + 1 + seg.length + 1 := by
              simp
              omega
            rw [hcount] at hrest
            simpa using hrest

/-- No name begins in a mark and in the word behind it. -/
theorem notMem_of_wordMark {names : List Text} {id : Text} {c : Char} {cs rest before : Text}
    (hid : isSheltered names [':'] id = true) (hquotes : ∀ d ∈ id, isQuote d = false)
    (hname : IsDotted (c :: cs)) (hends : Ends rest) {offset : Nat}
    (hrest : ∀ w ∈ scanFrom ((c :: cs).reverse ++ ((wordMark id).reverse ++ before))
      (offset + (wordMark id).length + (c :: cs).length) rest, w.token ∉ names) :
    ∀ w ∈ scanFrom before offset (wordMark id ++ ((c :: cs) ++ rest)), w.token ∉ names := by
  have hword : IsDotted moduleWord := ⟨by simp [moduleWord], rfl⟩
  have hcolon : ∀ t : Text, Ends (':' :: t) := fun t => ⟨rfl, fun h => absurd h (by decide)⟩
  have hsplit : wordMark id ++ ((c :: cs) ++ rest) =
      moduleWord ++ ':' :: (id ++ '~' :: ((c :: cs) ++ rest)) := by
    simp [wordMark, moduleMark, moduleWord]
  have hkey : ∀ t : Text, isBare before 'm' (':' :: t) = false := fun t => by simp [isBare]
  have htilde : ∀ front t : Text, isBare ('~' :: front) c t = false := by
    intro front t
    simp [isBare, isQualifier, Text.startsWith, Text.after?]
  rw [hsplit, moduleWord, scanFrom_word hword (hcolon _), hkey, if_neg Bool.false_ne_true,
    List.nil_append, scanFrom_other rfl rfl]
  refine notMem_of_isSheltered (sameBare_cons (by decide) [] _) hid hquotes (fun h => ?_) _ ?_
  · exact absurd h (by decide)
  · rw [scanFrom_word hname hends, htilde, if_neg Bool.false_ne_true, List.nil_append]
    have hcount : offset + (wordMark id).length + (c :: cs).length =
        offset + moduleWord.length + 1 + id.length + 1 + (c :: cs).length := by
      simp [wordMark, moduleMark, moduleWord]
      omega
    rw [hcount] at hrest
    simpa [wordMark, moduleMark, moduleWord] using hrest

/-! ## Over a slot -/

/-- Every word found begins with an identifier character. -/
theorem head_of_mem_scanFrom {before : Text} {offset : Nat} {t : Text} {w : TypeWord}
    (hw : w ∈ scanFrom before offset t) : w.token.head?.any isIdentifierChar = true := by
  fun_induction scanFrom before offset t with
  | case1 => simp at hw
  | case2 => simp at hw
  | case3 before offset c cs _ quoted rest hcut _ ih => exact ih hw
  | case4 before offset c cs _ hc p _ stop more _ ih =>
      rcases List.mem_cons.mp hw with rfl | hw
      · simp [p, dotted, hc]
      · exact ih hw
  | case5 before offset c cs _ hc p _ stop more _ ih => exact ih hw
  | case6 before offset c cs _ _ ih => exact ih hw

section Slot

variable {id : Text} {names : List Text}

/-- A text that stands at `offset` behind the characters `before`, with the words among `names`
qualified. -/
def qualifiedFrom (id : Text) (names : List Text) (before : Text) (offset : Nat) (t : Text) :
    Text :=
  Text.weave (Piece.gaps offset t ((scanFrom before offset t).map piece))
    ((scanFrom before offset t).map fun w => (qualifiedWord? id names w).getD w.token)

theorem qualifiedFrom_skip {before before' : Text} {offset : Nat} {front t : Text}
    (h : scanFrom before offset (front ++ t) = scanFrom before' (offset + front.length) t) :
    qualifiedFrom id names before offset (front ++ t) =
      front ++ qualifiedFrom id names before' (offset + front.length) t := by
  rw [qualifiedFrom, h]
  exact Piece.weave_gaps_skip front (tile_scanFrom _ _ t) _

theorem qualifiedFrom_quote {c : Char} {quoted : Text} (hc : isQuote c = true)
    (hquoted : c ∉ quoted) (before : Text) (offset : Nat) (rest : Text) :
    qualifiedFrom id names before offset (c :: (quoted ++ c :: rest)) =
      c :: (quoted ++ c :: qualifiedFrom id names (c :: (quoted.reverse ++ c :: before))
        (offset + quoted.length + 2) rest) := by
  have hsplit : ∀ t : Text, c :: (quoted ++ c :: t) = (c :: (quoted ++ [c])) ++ t := by simp
  have hlength : offset + (c :: (quoted ++ [c])).length = offset + quoted.length + 2 := by
    simp
    omega
  have hscan := scanFrom_quote hc hquoted before offset rest
  rw [hsplit, ← hlength] at hscan
  rw [hsplit rest, hsplit (qualifiedFrom _ _ _ _ _), ← hlength]
  exact qualifiedFrom_skip hscan

theorem qualifiedFrom_other {c : Char} (hquote : isQuote c = false)
    (hident : isIdentifierChar c = false) (before : Text) (offset : Nat) (t : Text) :
    qualifiedFrom id names before offset (c :: t) =
      c :: qualifiedFrom id names (c :: before) (offset + 1) t := by
  have hscan : scanFrom before offset ([c] ++ t) = scanFrom (c :: before) (offset + 1) t :=
    scanFrom_other hquote hident before offset t
  exact qualifiedFrom_skip hscan

theorem qualifiedFrom_word {c : Char} {cs rest : Text} (hname : IsDotted (c :: cs))
    (hends : Ends rest) (before : Text) (offset : Nat) :
    qualifiedFrom id names before offset ((c :: cs) ++ rest) =
      (if isBare before c rest && names.contains (c :: cs) then wordMark id else []) ++
        ((c :: cs) ++ qualifiedFrom id names ((c :: cs).reverse ++ before)
          (offset + (c :: cs).length) rest) := by
  have hscan := scanFrom_word hname hends before offset
  by_cases hbare : isBare before c rest = true
  · rw [if_pos hbare, List.singleton_append] at hscan
    rw [qualifiedFrom, hscan, List.map_cons, List.map_cons, piece, Piece.gaps_cons_self,
      Text.weave, List.nil_append, hbare, Bool.true_and, getD_qualifiedWord? id names hname.1,
      List.append_assoc]
    rfl
  · rw [if_neg hbare, List.nil_append] at hscan
    rw [Bool.not_eq_true] at hbare
    rw [hbare, Bool.false_and, if_neg Bool.false_ne_true, List.nil_append]
    exact qualifiedFrom_skip hscan

/-- Qualifying a text keeps its first character when that begins no identifier. -/
theorem head?_qualifiedFrom {t : Text} (ht : t.head?.any isIdentifierChar = false) (before : Text)
    (offset : Nat) : (qualifiedFrom id names before offset t).head? = t.head? := by
  have htile := tile_scanFrom before offset t
  have hident : ∀ w ∈ scanFrom before offset t, w.token.head?.any isIdentifierChar = true :=
    fun _ hw => head_of_mem_scanFrom hw
  rw [qualifiedFrom]
  generalize scanFrom before offset t = words at *
  cases words with
  | nil => rfl
  | cons w words =>
      obtain ⟨gap, rest, rfl, hstart, hstop, -⟩ := htile
      rw [List.map_cons, List.map_cons, Piece.gaps_cons _ hstart hstop, Text.weave]
      cases gap with
      | nil =>
          have hhead := Text.any_head?_append (hident w List.mem_cons_self) rest
          rw [List.nil_append, piece, hhead] at ht
          exact absurd ht (by decide)
      | cons c gap => rfl

theorem ends_qualifiedFrom {t : Text} (ht : Ends t) (before : Text) (offset : Nat) :
    Ends (qualifiedFrom id names before offset t) :=
  ends_weave (tile_scanFrom before offset t) (fun _ hw => Or.inl (head_of_mem_scanFrom hw)) ht

/-- No word of a qualified text is among the names. -/
theorem notMem_of_mem_qualifiedFrom (hid : isSheltered names [':'] id = true)
    (hquotes : ∀ d ∈ id, isQuote d = false) {before before' t : Text} {offset offset' : Nat}
    (hsame : SameBare before before') :
    ∀ w ∈ scanFrom before' offset' (qualifiedFrom id names before offset t), w.token ∉ names := by
  induction hn : t.length using Nat.strongRecOn generalizing before before' t offset offset' with
  | ind n ih =>
    subst hn
    cases t with
    | nil => simp [qualifiedFrom, scanFrom, Piece.gaps, Text.weave]
    | cons c t =>
        by_cases hquote : isQuote c = true
        · cases hcut : Text.cut? [c] t with
          | none =>
              have hself : qualifiedFrom id names before offset (c :: t) = c :: t := by
                simp [qualifiedFrom, scanFrom_unclosed hquote hcut, Piece.gaps, Text.weave]
              rw [hself, scanFrom_unclosed hquote hcut]
              simp
          | some p =>
              obtain ⟨quoted, rest⟩ := p
              have hquoted := Text.notMem_of_cut? hcut
              obtain rfl := Text.eq_of_cut?_singleton hcut
              rw [qualifiedFrom_quote hquote hquoted, scanFrom_quote hquote hquoted]
              refine ih rest.length (by simp; omega) ?_ rfl
              simpa using hsame.append (c :: (quoted.reverse ++ [c]))
        · rw [Bool.not_eq_true] at hquote
          by_cases hc : isIdentifierChar c = true
          · obtain ⟨cs, rest, rfl, hname, hends⟩ := exists_word hc t
            have hlt : rest.length < (c :: (cs ++ rest)).length := by simp
            rw [← List.cons_append, qualifiedFrom_word hname hends]
            split
            next hmarked =>
              -- Behind the word it no longer matters whether a mark stands in front of it.
              refine notMem_of_wordMark hid hquotes hname (ends_qualifiedFrom hends _ _) ?_
              exact ih rest.length hlt (sameBare_of_isDotted hname _ _) rfl
            next hmarked =>
              -- The word is left alone, so it is not bare or no name, and what follows it begins as
              -- before, so it is not bare now unless it was.
              rw [List.nil_append, scanFrom_word hname (ends_qualifiedFrom hends _ _), isBare,
                head?_qualifiedFrom hends.head, ← isBare]
              intro w hw
              rcases List.mem_append.mp hw with hw | hw
              · split at hw
                next hbare =>
                  obtain rfl := List.mem_singleton.mp hw
                  have hbare' : isBare before c rest = true := (hsame [] c rest).symm.trans hbare
                  simpa [hbare'] using hmarked
                next => simp at hw
              · exact ih rest.length hlt (hsame.append (c :: cs).reverse) rfl w hw
          · rw [Bool.not_eq_true] at hc
            rw [qualifiedFrom_other hquote hc, scanFrom_other hquote hc]
            exact ih t.length (by simp) (hsame.append [c]) rfl

/-- Qualifying words of a text brings in no character that the mark does not hold. -/
theorem notMem_weave {x : Char} {offset : Nat} {t : Text} {words : List TypeWord}
    (htile : Piece.Tile offset t (words.map piece)) (hne : ∀ w ∈ words, w.token ≠ [])
    (hmark : x ∉ wordMark id) (ht : x ∉ t) :
    x ∉ Text.weave (Piece.gaps offset t (words.map piece))
      (words.map fun w => (qualifiedWord? id names w).getD w.token) := by
  refine Piece.notMem_weave_gaps ht fun u hu => ?_
  obtain ⟨w, hw, rfl⟩ := List.mem_map.mp hu
  obtain ⟨pre, post, heq, -⟩ := htile.exists_of_mem (List.mem_map_of_mem hw)
  have htoken : x ∉ w.token := fun hmem => ht (by rw [heq]; simp [piece, hmem])
  rw [getD_qualifiedWord? id names (hne w hw), List.mem_append, not_or]
  refine ⟨?_, htoken⟩
  split
  · exact hmark
  · exact List.not_mem_nil

theorem notMem_qualifiedFrom {x : Char} (hmark : x ∉ wordMark id) {before t : Text} {offset : Nat}
    (ht : x ∉ t) : x ∉ qualifiedFrom id names before offset t := by
  refine notMem_weave (tile_scanFrom before offset t) (fun w hw hnil => ?_) hmark ht
  simpa [hnil] using head_of_mem_scanFrom hw

end Slot

end TypeWord

namespace TypeSlot

theorem scanFrom_slot {body : Text} (hbody : '}' ∉ body) (offset : Nat) (rest : Text) :
    scanFrom offset ('{' :: (body ++ '}' :: rest)) =
      ⟨offset + 1, offset + 1 + body.length, body⟩ :: scanFrom (offset + body.length + 2) rest := by
  have hcut := Text.cut?_of_notMem hbody rest
  rw [scanFrom, if_pos rfl]
  split
  next hnone => simp [hcut] at hnone
  next body' after hsome =>
    rw [hcut] at hsome
    simp only [Option.some.injEq, Prod.mk.injEq] at hsome
    obtain ⟨rfl, rfl⟩ := hsome
    rfl

/-- The slots of a text whose slots are changed are changed slots, if no change closes one early. -/
theorem body_of_mem_scanFrom_weave {new : Text → Text}
    (hnew : ∀ body, '}' ∉ body → '}' ∉ new body) {offset offset' : Nat} {t : Text}
    {slot : TypeSlot}
    (hslot : slot ∈ scanFrom offset' (Text.weave
      (Piece.gaps offset t ((scanFrom offset t).map piece))
      ((scanFrom offset t).map fun s => new s.body))) :
    ∃ body, slot.body = new body := by
  fun_induction scanFrom offset t generalizing offset' with
  | case1 => simp [Piece.gaps, Text.weave, scanFrom] at hslot
  | case2 offset cs hcut =>
      rw [List.map_nil, List.map_nil, Piece.gaps, Text.weave, scanFrom, if_pos rfl] at hslot
      split at hslot
      · simp at hslot
      next hsome => simp [hcut] at hsome
  | case3 offset cs body rest hcut _ ih =>
      have hbody := Text.notMem_of_cut? hcut
      obtain rfl := Text.eq_of_cut?_singleton hcut
      have htile := tile_scanFrom (offset + body.length + 2) rest
      have hstop : offset + body.length + 2 = offset + 1 + body.length + ['}'].length := by
        simp
        omega
      have hsplit : '{' :: (body ++ '}' :: rest) = ['{'] ++ (body ++ (['}'] ++ rest)) := rfl
      rw [List.map_cons, List.map_cons, piece, hsplit,
        Piece.gaps_cons (p := ⟨offset + 1, offset + 1 + body.length, body⟩) _ rfl rfl, Text.weave,
        hstop] at hslot
      rw [hstop] at htile
      -- The change brings in no closing brace, so the slot ends where it did.
      rw [Piece.weave_gaps_skip _ htile, List.singleton_append, List.singleton_append,
        scanFrom_slot (hnew body hbody), ← hstop] at hslot
      rcases List.mem_cons.mp hslot with rfl | hslot
      · exact ⟨body, rfl⟩
      · exact ih hslot
  | case4 offset c cs hc ih =>
      have htile : Piece.Tile (offset + [c].length) cs ((scanFrom (offset + 1) cs).map piece) :=
        tile_scanFrom (offset + 1) cs
      rw [← List.singleton_append, Piece.weave_gaps_skip [c] htile, List.singleton_append, scanFrom,
        if_neg hc] at hslot
      exact ih hslot

end TypeSlot

/-- The words of each slot are qualified on their own. -/
theorem qualifiedComment_eq_weave (id : Text) (names : List Text) (d : Text) :
    qualifiedComment id names d =
      Text.weave (Piece.gaps 0 d ((TypeSlot.scanFrom 0 d).map TypeSlot.piece))
        ((TypeSlot.scanFrom 0 d).map fun s => TypeWord.qualifiedFrom id names [] 0 s.body) := by
  have hinner : ∀ s : TypeSlot, Piece.Tile s.piece.start s.piece.text
      (((TypeWord.scan s.body).map (TypeWord.shift s.start)).map TypeWord.piece) := by
    intro s
    have htile := (TypeWord.tile_scanFrom [] 0 s.body).shift s.start
    rw [List.map_map] at htile ⊢
    exact htile
  rw [qualifiedComment, slotWords,
    Piece.weave_flatMap _ (TypeSlot.tile_scanFrom 0 d) fun s _ => hinner s]
  congr 1
  apply List.map_congr_left
  intro s _
  have hgaps := Piece.gaps_shift s.start 0 s.body ((TypeWord.scan s.body).map TypeWord.piece)
  rw [List.map_map] at hgaps
  rw [TypeWord.qualifiedFrom, ← TypeWord.scan, ← hgaps, List.map_map, List.map_map]
  rfl

theorem notMem_qualifiedComment {id : Text} {names : List Text} {x : Char} {d : Text}
    (hmark : x ∉ wordMark id) (hd : x ∉ d) : x ∉ qualifiedComment id names d :=
  TypeWord.notMem_weave (tile_slotWords 0 d) (fun _ hw => (isDotted_of_mem_slotWords hw).1) hmark hd

/-- A comment none of whose words is among the names is qualified already. -/
theorem qualifiedComment_eq_self {id : Text} {names : List Text} {d : Text}
    (h : ∀ w ∈ slotWords 0 d, w.token ∉ names) : qualifiedComment id names d = d := by
  have hself : (slotWords 0 d).map (fun w => (qualifiedWord? id names w).getD w.token) =
      ((slotWords 0 d).map TypeWord.piece).map Piece.text := by
    rw [List.map_map]
    apply List.map_congr_left
    intro w hw
    simp [qualifiedWord?, h w hw, TypeWord.piece]
  rw [qualifiedComment, hself]
  exact Piece.weave_gaps (tile_slotWords 0 d)

/-- **Qualifying again.** No word of a qualified comment is among the names, so the comment is
qualified for them and for some of them. -/
theorem notMem_of_mem_qualifiedComment {id : Text} {names : List Text} {d : Text}
    (hid : isSheltered names [':'] id = true) (hquotes : ∀ c ∈ id, TypeWord.isQuote c = false)
    (hclose : '}' ∉ id) : ∀ w ∈ slotWords 0 (qualifiedComment id names d), w.token ∉ names := by
  intro w hw
  obtain ⟨slot, hslot, hw⟩ := List.mem_flatMap.mp hw
  obtain ⟨v, hv, rfl⟩ := List.mem_map.mp hw
  have hmark : '}' ∉ wordMark id := by
    simp [wordMark, moduleMark, hclose]
  rw [qualifiedComment_eq_weave] at hslot
  obtain ⟨body, hbody⟩ := TypeSlot.body_of_mem_scanFrom_weave
    (fun body hclosed => TypeWord.notMem_qualifiedFrom hmark hclosed) hslot
  rw [hbody] at hv
  exact TypeWord.notMem_of_mem_qualifiedFrom hid hquotes (fun _ _ _ => rfl) v hv

end DocRefs
