import Mathlib
import DocRefs.Proofs.IdentifierRuns
import DocRefs.Proofs.Requalified

/-!
# Eligible words

Which words of a comment are qualified, said without the searches for slots and for words: a word is
eligible by what stands around it in the comment. Qualifying puts the mark of the module in front of
every eligible word, in front of nothing else, and counts these words.
-/

namespace DocRefs

/-! ## The rule -/

/-- The text ends outside of all enclosures. Read from the left, a character for which `closer?`
gives another one encloses what follows up to the next such character. -/
inductive Outside (closer? : Char → Option Char) : Text → Prop
  | nil : Outside closer? []
  | other {c : Char} {t : Text} (hc : closer? c = none) (h : Outside closer? t) :
      Outside closer? (c :: t)
  | enclosed {c d : Char} {body t : Text} (hc : closer? c = some d) (hbody : d ∉ body)
      (h : Outside closer? t) : Outside closer? (c :: (body ++ d :: t))

/-- An opening brace is closed by the next closing one. -/
def braceCloser? (c : Char) : Option Char := if c = '{' then some '}' else none

/-- A quotation mark is closed by the next equal one. -/
def quoteCloser? (c : Char) : Option Char := if TypeWord.isQuote c then some c else none

/-- The text `name` between `pre` and `post` lies in a slot and outside the quotations there. -/
structure InSlot (pre name post : Text) : Prop where
  braces : ∃ a front back b, pre = a ++ '{' :: front ∧ post = back ++ '}' :: b ∧
    Outside braceCloser? a ∧ '}' ∉ front ++ (name ++ back) ∧ Outside quoteCloser? front

/-- The text `name` between `pre` and `post` is a whole word that no number, qualifier or key
claims. A spread in front of a word does not qualify it. -/
structure Unclaimed (pre name post : Text) : Prop where
  run : MaximalRun pre name post
  digit : name.head?.any Text.isDigit = false
  qualifier : pre.getLast?.any TypeWord.isQualifier = true → ['.', '.', '.'] <:+ pre
  key : post.head? ≠ some ':'

/-- The text `name` between `pre` and `post` is a word that is qualified for the names of a
module. -/
structure Eligible (names : List Text) (pre name post : Text) : Prop where
  slot : InSlot pre name post
  unclaimed : Unclaimed pre name post
  declared : name ∈ names

/-! ## Enclosures -/

theorem Text.eq_and_eq_of_append_cons {c : Char} {t u v w : Text} (ht : c ∉ t) (hv : c ∉ v)
    (h : t ++ c :: u = v ++ c :: w) : t = v ∧ u = w := by
  have hcut := Text.cut?_of_notMem ht u
  rw [h, Text.cut?_of_notMem hv w, Option.some.injEq, Prod.mk.injEq] at hcut
  exact ⟨hcut.1.symm, hcut.2.symm⟩

namespace Outside

variable {closer? : Char → Option Char} {c d : Char} {t : Text}

theorem of_cons_of_none (hc : closer? c = none) (h : Outside closer? (c :: t)) :
    Outside closer? t := by
  cases h with
  | other _ h => exact h
  | enclosed hd => simp [hc] at hd

theorem exists_of_cons_of_some (hc : closer? c = some d) (h : Outside closer? (c :: t)) :
    ∃ body rest, t = body ++ d :: rest ∧ d ∉ body ∧ Outside closer? rest := by
  cases h with
  | other hd => simp [hc] at hd
  | @enclosed _ d' body rest hd hbody h =>
      obtain rfl := Option.some.inj (hc.symm.trans hd)
      exact ⟨body, rest, rfl, hbody, h⟩

/-- A text that begins with an enclosure and ends outside holds the whole enclosure. -/
theorem exists_of_enclosed {body rest front u : Text} (hc : closer? c = some d) (hbody : d ∉ body)
    (heq : body ++ d :: rest = front ++ u) (h : Outside closer? (c :: front)) :
    ∃ front', front = body ++ d :: front' ∧ rest = front' ++ u ∧ Outside closer? front' := by
  obtain ⟨body', front', rfl, hbody', hrest⟩ := h.exists_of_cons_of_some hc
  rw [List.append_assoc, List.cons_append] at heq
  obtain ⟨rfl, rfl⟩ := Text.eq_and_eq_of_append_cons hbody hbody' heq
  exact ⟨front', rfl, rfl, hrest⟩

theorem append_of_none {u : Text} (hu : ∀ c ∈ u, closer? c = none) (h : Outside closer? t) :
    Outside closer? (u ++ t) := by
  induction u with
  | nil => exact h
  | cons c u ih =>
      obtain ⟨hc, hrest⟩ := List.forall_mem_cons.mp hu
      exact .other hc (ih hrest)

theorem of_forall_none (ht : ∀ c ∈ t, closer? c = none) : Outside closer? t := by
  simpa using append_of_none ht .nil

theorem of_append_of_none {u : Text} (hu : ∀ c ∈ u, closer? c = none)
    (h : Outside closer? (u ++ t)) : Outside closer? t := by
  induction u with
  | nil => exact h
  | cons c u ih =>
      obtain ⟨hc, hrest⟩ := List.forall_mem_cons.mp hu
      exact ih hrest (h.of_cons_of_none hc)

end Outside

@[simp]
theorem braceCloser?_brace : braceCloser? '{' = some '}' := rfl

theorem braceCloser?_of_ne {c : Char} (h : c ≠ '{') : braceCloser? c = none := if_neg h

theorem quoteCloser?_of_isQuote {c : Char} (h : TypeWord.isQuote c = true) :
    quoteCloser? c = some c :=
  if_pos h

theorem quoteCloser?_of_not {c : Char} (h : TypeWord.isQuote c = false) :
    quoteCloser? c = none :=
  if_neg (by simp [h])

/-! ## Slots -/

namespace TypeSlot

theorem scanFrom_unclosed {t : Text} (h : '}' ∉ t) (offset : Nat) :
    scanFrom offset ('{' :: t) = [] := by
  rw [scanFrom, if_pos rfl]
  split
  · rfl
  next hsome =>
    rw [Text.eq_of_cut?_singleton hsome] at h
    simp at h

theorem scanFrom_other {c : Char} (hc : c ≠ '{') (offset : Nat) (t : Text) :
    scanFrom offset (c :: t) = scanFrom (offset + 1) t := by
  rw [scanFrom, if_neg hc]

variable {offset : Nat} {t : Text} {slot : TypeSlot}

/-- The slot stands in a text, behind a brace that is in no slot and up to the next closing one. The
text begins at `offset`. -/
def StandsIn (offset : Nat) (t : Text) (slot : TypeSlot) : Prop :=
  ∃ a b, t = a ++ '{' :: (slot.body ++ '}' :: b) ∧ Outside braceCloser? a ∧ '}' ∉ slot.body ∧
    slot = ⟨offset + (a.length + 1), offset + (a.length + 1) + slot.body.length, slot.body⟩

theorem standsIn_other {c : Char} (hc : c ≠ '{') :
    StandsIn offset (c :: t) slot ↔ StandsIn (offset + 1) t slot := by
  have hnone := braceCloser?_of_ne hc
  constructor
  · rintro ⟨a, b, heq, hout, hclose, hspan⟩
    cases a with
    | nil => exact absurd (List.cons.inj heq).1 hc
    | cons d a =>
        obtain ⟨rfl, rfl⟩ := List.cons.inj heq
        refine ⟨a, b, rfl, hout.of_cons_of_none hnone, hclose, ?_⟩
        rw [hspan]
        simp
        omega
  · rintro ⟨a, b, rfl, hout, hclose, hspan⟩
    refine ⟨c :: a, b, rfl, .other hnone hout, hclose, ?_⟩
    rw [hspan]
    simp
    omega

/-- The slot at the start of a text, or one behind it. -/
theorem standsIn_slot {body rest : Text} (hbody : '}' ∉ body) :
    StandsIn offset ('{' :: (body ++ '}' :: rest)) slot ↔
      slot = ⟨offset + 1, offset + 1 + body.length, body⟩ ∨
        StandsIn (offset + body.length + 2) rest slot := by
  constructor
  · rintro ⟨a, b, heq, hout, hclose, hspan⟩
    cases a with
    | nil =>
        obtain ⟨rfl, -⟩ := Text.eq_and_eq_of_append_cons hbody hclose (List.cons.inj heq).2
        exact .inl hspan
    | cons d a =>
        obtain ⟨rfl, hcs⟩ := List.cons.inj heq
        obtain ⟨a, rfl, rfl, hout⟩ := hout.exists_of_enclosed braceCloser?_brace hbody hcs
        refine .inr ⟨a, b, rfl, hout, hclose, ?_⟩
        rw [hspan]
        simp
        omega
  · rintro (rfl | ⟨a, b, rfl, hout, hclose, hspan⟩)
    · exact ⟨[], rest, rfl, .nil, hbody, rfl⟩
    · refine ⟨'{' :: (body ++ '}' :: a), b, by simp, .enclosed rfl hbody hout, hclose, ?_⟩
      rw [hspan]
      simp
      omega

theorem not_standsIn_unclosed (ht : '}' ∉ t) : ¬StandsIn offset ('{' :: t) slot := by
  rintro ⟨a, b, heq, hout, -, -⟩
  cases a with
  | nil =>
      obtain rfl : t = slot.body ++ '}' :: b := (List.cons.inj heq).2
      simp at ht
  | cons d a =>
      obtain ⟨rfl, rfl⟩ := List.cons.inj heq
      obtain ⟨body, rest, rfl, -⟩ := hout.exists_of_cons_of_some braceCloser?_brace
      simp at ht

/-- The slots found are those that stand in the text. -/
theorem mem_scanFrom_iff : slot ∈ scanFrom offset t ↔ StandsIn offset t slot := by
  -- A slot is passed as a whole, so the induction is on the length.
  induction hn : t.length using Nat.strongRecOn generalizing offset t with
  | ind n ih =>
    subst hn
    cases t with
    | nil =>
        refine iff_of_false (by simp [scanFrom]) ?_
        rintro ⟨a, b, heq, -⟩
        simp at heq
    | cons c t =>
        by_cases hc : c = '{'
        · subst hc
          by_cases hclose : '}' ∈ t
          · obtain ⟨body, rest, rfl, hbody⟩ := List.eq_append_cons_of_mem hclose
            rw [scanFrom_slot hbody, standsIn_slot hbody, List.mem_cons]
            exact or_congr_right (ih rest.length (by simp; omega) rfl)
          · rw [scanFrom_unclosed hclose]
            exact iff_of_false (by simp) (not_standsIn_unclosed hclose)
        · rw [scanFrom_other hc, standsIn_other hc]
          exact ih t.length (by simp) rfl

end TypeSlot

/-! ## Words of a slot -/

theorem Unclaimed.head {pre name post : Text} (h : Unclaimed pre name post) :
    ∃ c cs, name = c :: cs ∧ isIdentifierChar c = true := by
  obtain ⟨c, cs, rfl, hc, -⟩ := h.run.run.isDotted.exists_cons
  exact ⟨c, cs, rfl, hc⟩

/-- A word does not begin with a character that is in no identifier. -/
theorem Unclaimed.exists_front {pre name post t front : Text} {c : Char}
    (h : Unclaimed pre name post) (hc : isIdentifierChar c = false)
    (heq : c :: t = front ++ (name ++ post)) :
    ∃ front', front = c :: front' ∧ t = front' ++ (name ++ post) := by
  cases front with
  | nil =>
      obtain ⟨d, ds, rfl, hd⟩ := h.head
      obtain rfl : c = d := (List.cons.inj heq).1
      simp [hc] at hd
  | cons d front =>
      obtain ⟨rfl, rfl⟩ := List.cons.inj heq
      exact ⟨front, rfl, rfl⟩

namespace TypeWord

variable {before seg t rest cs : Text} {c : Char} {offset : Nat} {w : TypeWord}

theorem quoteCloser?_of_mem_word (h : IsDotted seg) : ∀ d ∈ seg, quoteCloser? d = none := by
  intro d hd
  apply quoteCloser?_of_not
  rcases h.chars d hd with hident | rfl
  · exact isQuote_of_isIdentifierChar hident
  · rfl

theorem spread_suffix_iff : ['.', '.', '.'] <:+ t ↔ ['.', '.', '.'] <+: t.reverse :=
  List.reverse_prefix.symm

theorem isBare_iff : isBare before c rest = true ↔ Text.isDigit c = false ∧
    (before.head?.any isQualifier = true → ['.', '.', '.'] <+: before) ∧
      rest.head? ≠ some ':' := by
  simp only [isBare, Bool.and_eq_true, Bool.not_eq_true', Bool.or_eq_true, Text.startsWith_iff,
    bne_iff_ne, and_assoc, or_iff_not_imp_left, Bool.not_eq_false]

/-- A word is bare when nothing around it claims it. -/
theorem unclaimed_iff : Unclaimed before.reverse (c :: cs) rest ↔
    MaximalRun before.reverse (c :: cs) rest ∧ isBare before c rest = true := by
  have hlast : before.reverse.getLast? = before.head? := List.getLast?_reverse
  have hspread : ['.', '.', '.'] <:+ before.reverse ↔ ['.', '.', '.'] <+: before := by
    rw [spread_suffix_iff, List.reverse_reverse]
  rw [isBare_iff]
  constructor
  · intro h
    refine ⟨h.run, by simpa using h.digit, fun hqualifier => ?_, h.key⟩
    exact hspread.mp (h.qualifier (by rwa [hlast]))
  · rintro ⟨hrun, hdigit, hqualifier, hkey⟩
    refine ⟨hrun, by simpa using hdigit, fun h => ?_, hkey⟩
    rw [hlast] at h
    exact hspread.mpr (hqualifier h)

/-- No identifier goes on over the border between the characters already read, the nearest first,
and the text. -/
structure Border (before t : Text) : Prop where
  behind : before.head?.any isIdentifierChar = true → Ends t
  front : t.head?.any isIdentifierChar = true → Ends before

/-- The word stands unclaimed and outside quotations in a text, which stands at `offset` behind the
characters `before`. -/
def StandsUnclaimed (before : Text) (offset : Nat) (t : Text) (w : TypeWord) : Prop :=
  ∃ front back, t = front ++ (w.token ++ back) ∧ Outside quoteCloser? front ∧
    Unclaimed (before.reverse ++ front) w.token back ∧
      w = ⟨offset + front.length, offset + front.length + w.token.length, w.token⟩

/-- A part of the text in front may be passed when it is closed and the word is behind it. -/
theorem standsUnclaimed_append_iff
    (hclosed : ∀ front, Outside quoteCloser? front → Outside quoteCloser? (seg ++ front))
    (hbehind : ∀ front back, seg ++ t = front ++ (w.token ++ back) → Outside quoteCloser? front →
      Unclaimed (before.reverse ++ front) w.token back →
        ∃ front', front = seg ++ front' ∧ Outside quoteCloser? front') :
    StandsUnclaimed before offset (seg ++ t) w ↔
      StandsUnclaimed (seg.reverse ++ before) (offset + seg.length) t w := by
  constructor
  · rintro ⟨front, back, heq, hout, hunclaimed, hspan⟩
    obtain ⟨front', rfl, hout'⟩ := hbehind front back heq hout hunclaimed
    rw [List.append_assoc] at heq
    refine ⟨front', back, List.append_cancel_left heq, hout', by simpa using hunclaimed, ?_⟩
    rw [hspan]
    simp
    omega
  · rintro ⟨front, back, rfl, hout, hunclaimed, hspan⟩
    refine ⟨seg ++ front, back, by simp, hclosed front hout, by simpa using hunclaimed, ?_⟩
    rw [hspan]
    simp
    omega

theorem standsUnclaimed_other (hquote : isQuote c = false) (hident : isIdentifierChar c = false) :
    StandsUnclaimed before offset (c :: t) w ↔
      StandsUnclaimed (c :: before) (offset + 1) t w := by
  have hnone := quoteCloser?_of_not hquote
  have hskip : StandsUnclaimed before offset ([c] ++ t) w ↔
      StandsUnclaimed ([c].reverse ++ before) (offset + [c].length) t w := by
    refine standsUnclaimed_append_iff (fun _ => .other hnone) ?_
    intro front back heq hout hunclaimed
    obtain ⟨front, rfl, -⟩ := hunclaimed.exists_front hident heq
    exact ⟨front, rfl, hout.of_cons_of_none hnone⟩
  exact hskip

theorem standsUnclaimed_quote {quoted : Text} (hquote : isQuote c = true) (hquoted : c ∉ quoted) :
    StandsUnclaimed before offset (c :: (quoted ++ c :: t)) w ↔
      StandsUnclaimed (c :: (quoted.reverse ++ c :: before)) (offset + quoted.length + 2) t w := by
  have hsome := quoteCloser?_of_isQuote hquote
  have hskip : StandsUnclaimed before offset ((c :: (quoted ++ [c])) ++ t) w ↔
      StandsUnclaimed ((c :: (quoted ++ [c])).reverse ++ before)
        (offset + (c :: (quoted ++ [c])).length) t w := by
    refine standsUnclaimed_append_iff (fun front hout => ?_) ?_
    · simpa using Outside.enclosed hsome hquoted hout
    · intro front back heq hout hunclaimed
      rw [List.cons_append, List.append_assoc, List.singleton_append] at heq
      obtain ⟨front, rfl, hcs⟩ :=
        hunclaimed.exists_front (isIdentifierChar_of_isQuote hquote) heq
      obtain ⟨front', rfl, -, hout'⟩ := hout.exists_of_enclosed hsome hquoted hcs
      exact ⟨front', by simp, hout'⟩
  have hlength : offset + (c :: (quoted ++ [c])).length = offset + quoted.length + 2 := by
    simp
    omega
  rw [hlength] at hskip
  simpa using hskip

theorem not_standsUnclaimed_unclosed (hquote : isQuote c = true) (ht : c ∉ t) :
    ¬StandsUnclaimed before offset (c :: t) w := by
  rintro ⟨front, back, heq, hout, hunclaimed, -⟩
  obtain ⟨front, rfl, rfl⟩ := hunclaimed.exists_front (isIdentifierChar_of_isQuote hquote) heq
  obtain ⟨body, rest, rfl, -⟩ := hout.exists_of_cons_of_some (quoteCloser?_of_isQuote hquote)
  simp at ht

/-- An identifier goes on behind any front of a dotted identifier. -/
theorem not_ends_of_isDotted {front u : Text} (h : IsDotted (front ++ u)) (hfront : front ≠ [])
    (before : Text) :
    ¬Ends (front.reverse ++ before) := by
  intro hends
  obtain ⟨f, g, rfl⟩ := (List.eq_nil_or_concat' front).resolve_left hfront
  rw [List.reverse_append, List.reverse_singleton, List.singleton_append, List.cons_append] at hends
  obtain ⟨hg, hdot⟩ : isIdentifierChar g = false ∧
      (g = '.' → (f.reverse ++ before).head?.any isIdentifierChar = false) := hends
  rcases h.chars g (by simp) with hident | rfl
  · simp [hg] at hident
  · -- Read backwards, an identifier character follows the dot.
    have hreverse : IsDotted (u.reverse ++ '.' :: f.reverse) := by
      rw [isDotted_iff_dottedRun] at h ⊢
      simpa using h.reverse
    have hhead := hreverse.head_of_dot rfl
    cases hf : f.reverse with
    | nil => simp [hf] at hhead
    | cons d f' =>
        have hd : isIdentifierChar d = false := by simpa [hf] using hdot rfl
        simp [hf, hd] at hhead

/-- The word at the start of a text, or one behind it. -/
theorem standsUnclaimed_word (hname : IsDotted (c :: cs)) (hends : Ends rest)
    (hbefore : Ends before) :
    StandsUnclaimed before offset ((c :: cs) ++ rest) w ↔
      (isBare before c rest = true ∧ w = ⟨offset, offset + (c :: cs).length, c :: cs⟩) ∨
        StandsUnclaimed ((c :: cs).reverse ++ before) (offset + (c :: cs).length) rest w := by
  have hclosed := quoteCloser?_of_mem_word hname
  have hrun : MaximalRun before.reverse (c :: cs) rest :=
    maximalRun_iff.mpr ⟨hname, by rwa [List.reverse_reverse], hends⟩
  constructor
  · rintro ⟨front, back, heq, hout, hunclaimed, hspan⟩
    rcases List.append_eq_append_iff.mp heq with ⟨front', rfl, hrest⟩ | ⟨u, hsplit, htoken⟩
    · refine .inr ⟨front', back, hrest, hout.of_append_of_none hclosed, by simpa using hunclaimed,
        ?_⟩
      rw [List.length_append, ← Nat.add_assoc] at hspan
      exact hspan
    · by_cases hfront : front = []
      · subst hfront
        obtain rfl : c :: cs = u := hsplit
        have hdotted := hname.dotted_append hends
        rw [← htoken, hunclaimed.run.run.isDotted.dotted_append hunclaimed.run.ends,
          Prod.mk.injEq] at hdotted
        obtain ⟨hwhole, rfl⟩ := hdotted
        rw [hwhole, List.append_nil] at hunclaimed
        rw [hwhole] at hspan
        exact .inl ⟨(unclaimed_iff.mp hunclaimed).2, hspan⟩
      · -- A maximal run does not begin inside of the word.
        have hfresh := (maximalRun_iff.mp hunclaimed.run).2.1
        rw [List.reverse_append, List.reverse_reverse] at hfresh
        rw [hsplit] at hname
        exact absurd hfresh (not_ends_of_isDotted hname hfront before)
  · rintro (⟨hbare, rfl⟩ | ⟨front, back, rfl, hout, hunclaimed, hspan⟩)
    · refine ⟨[], rest, rfl, .nil, ?_, rfl⟩
      rw [List.append_nil]
      exact unclaimed_iff.mpr ⟨hrun, hbare⟩
    · refine ⟨(c :: cs) ++ front, back, by simp, hout.append_of_none hclosed,
        by simpa using hunclaimed, ?_⟩
      rw [List.length_append, ← Nat.add_assoc]
      exact hspan

theorem Border.quote (hquote : isQuote c = true) (before t : Text) : Border (c :: before) t where
  behind := fun h => by simp [isIdentifierChar_of_isQuote hquote] at h
  front := fun _ => by
    refine ⟨isIdentifierChar_of_isQuote hquote, ?_⟩
    rintro rfl
    exact absurd hquote (by decide)

theorem Border.word (hends : Ends rest) (before : Text) : Border before rest where
  behind := fun _ => hends
  front := fun h => by simp [hends.head] at h

theorem Border.other (h : Border before (c :: t)) (hc : isIdentifierChar c = false) :
    Border (c :: before) t where
  behind := fun hident => by simp [hc] at hident
  front := fun hident => by
    refine ⟨hc, fun hdot => ?_⟩
    by_contra hbefore
    have hends := h.behind (by simpa using hbefore)
    have hnot := hends.2 hdot
    simp [hident] at hnot

/-- The search finds the words that stand unclaimed outside quotations, and no others. -/
theorem mem_scanFrom_iff (hborder : Border before t) :
    w ∈ scanFrom before offset t ↔ StandsUnclaimed before offset t w := by
  -- The search passes quotations and words as wholes, so the induction is on the length.
  induction hn : t.length using Nat.strongRecOn generalizing before offset t with
  | ind n ih =>
    subst hn
    cases t with
    | nil =>
        refine iff_of_false (by simp [scanFrom]) ?_
        rintro ⟨front, back, heq, -, hunclaimed, -⟩
        obtain ⟨c, cs, hname, -⟩ := hunclaimed.head
        simp [hname] at heq
    | cons c t =>
        by_cases hquote : isQuote c = true
        · by_cases hclose : c ∈ t
          · obtain ⟨quoted, rest, rfl, hquoted⟩ := List.eq_append_cons_of_mem hclose
            rw [scanFrom_quote hquote hquoted, standsUnclaimed_quote hquote hquoted]
            exact ih rest.length (by simp; omega) (.quote hquote _ rest) rfl
          · have hcut : Text.cut? [c] t = none := by
              cases hcut : Text.cut? [c] t with
              | none => rfl
              | some p => exact absurd (by simp [Text.eq_of_cut?_singleton hcut]) hclose
            rw [scanFrom_unclosed hquote hcut]
            exact iff_of_false (by simp) (not_standsUnclaimed_unclosed hquote hclose)
        · rw [Bool.not_eq_true] at hquote
          by_cases hc : isIdentifierChar c = true
          · obtain ⟨cs, rest, rfl, hname, hends⟩ := exists_word hc t
            have hbefore := hborder.front (by simpa using hc)
            rw [← List.cons_append, scanFrom_word hname hends, List.mem_append,
              standsUnclaimed_word hname hends hbefore,
              ih rest.length (by simp) (.word hends _) rfl]
            split <;> simp_all
          · rw [Bool.not_eq_true] at hc
            rw [scanFrom_other hquote hc, standsUnclaimed_other hquote hc]
            exact ih t.length (by simp) (hborder.other hc) rfl

end TypeWord

/-! ## Words of a comment -/

theorem ends_append_cons_iff {t : Text} {x : Char} (hx : isIdentifierChar x = false)
    (hdot : x ≠ '.') (rest : Text) : Ends (t ++ x :: rest) ↔ Ends t := by
  refine ⟨fun h => ?_, fun h => h.append_cons hx hdot rest⟩
  cases t with
  | nil => trivial
  | cons c t =>
      refine ⟨h.1, fun hc => ?_⟩
      cases t with
      | nil => rfl
      | cons d t => exact h.2 hc

/-- What claims a word in a slot claims it in the comment: the braces around the slot do not. -/
theorem unclaimed_in_slot_iff {a front name back b : Text} :
    Unclaimed (a ++ '{' :: front) name (back ++ '}' :: b) ↔ Unclaimed front name back := by
  have hrun : MaximalRun (a ++ '{' :: front) name (back ++ '}' :: b) ↔
      MaximalRun front name back := by
    rw [maximalRun_iff, maximalRun_iff, List.reverse_append, List.reverse_cons, List.append_assoc,
      List.singleton_append, ends_append_cons_iff rfl (by decide),
      ends_append_cons_iff rfl (by decide)]
  have hkey : (back ++ '}' :: b).head? ≠ some ':' ↔ back.head? ≠ some ':' := by
    cases back <;> simp
  have hlast : (a ++ '{' :: front).getLast?.any TypeWord.isQualifier =
      front.getLast?.any TypeWord.isQualifier := by
    rw [List.getLast?_append, List.getLast?_cons]
    cases front.getLast? <;> rfl
  have hspread : ['.', '.', '.'] <:+ a ++ '{' :: front ↔ ['.', '.', '.'] <:+ front := by
    rw [TypeWord.spread_suffix_iff, List.reverse_append, List.reverse_cons, List.append_assoc,
      List.singleton_append, Text.prefix_append_cons_iff (by decide), ← TypeWord.spread_suffix_iff]
  constructor
  · intro h
    exact ⟨hrun.mp h.run, h.digit, fun hq => hspread.mp (h.qualifier (by rwa [hlast])),
      hkey.mp h.key⟩
  · intro h
    exact ⟨hrun.mpr h.run, h.digit, fun hq => hspread.mpr (h.qualifier (by rwa [← hlast])),
      hkey.mpr h.key⟩

/-- The words found in a comment are those that stand unclaimed in a slot, outside quotations. -/
theorem mem_slotWords_iff {comment : Text} {w : TypeWord} :
    w ∈ slotWords 0 comment ↔ ∃ pre post, comment = pre ++ (w.token ++ post) ∧
      InSlot pre w.token post ∧ Unclaimed pre w.token post ∧
        w = ⟨pre.length, pre.length + w.token.length, w.token⟩ := by
  -- A slot is searched as a text of its own, with nothing in front of it.
  have hborder : ∀ t, TypeWord.Border [] t := fun t => ⟨nofun, fun _ => trivial⟩
  constructor
  · intro hw
    obtain ⟨slot, hslot, hw⟩ := List.mem_flatMap.mp hw
    obtain ⟨v, hv, rfl⟩ := List.mem_map.mp hw
    obtain ⟨a, b, rfl, hout, hclose, hslotSpan⟩ := TypeSlot.mem_scanFrom_iff.mp hslot
    obtain ⟨front, back, hbody, hquote, hunclaimed, hspan⟩ :=
      (TypeWord.mem_scanFrom_iff (hborder slot.body)).mp hv
    rw [hbody] at hclose
    refine ⟨a ++ '{' :: front, back ++ '}' :: b, ?_,
      ⟨a, front, back, b, rfl, rfl, hout, hclose, hquote⟩,
      unclaimed_in_slot_iff.mpr (by simpa [TypeWord.shift] using hunclaimed), ?_⟩
    · rw [hbody]
      simp [TypeWord.shift]
    · rw [hspan, hslotSpan]
      simp [TypeWord.shift]
      omega
  · rintro ⟨pre, post, rfl, ⟨a, front, back, b, rfl, rfl, hout, hclose, hquote⟩, hunclaimed, hspan⟩
    have hslot : ⟨0 + (a.length + 1), 0 + (a.length + 1) + (front ++ (w.token ++ back)).length,
        front ++ (w.token ++ back)⟩ ∈ TypeSlot.scanFrom 0
          (a ++ '{' :: front ++ (w.token ++ (back ++ '}' :: b))) :=
      TypeSlot.mem_scanFrom_iff.mpr ⟨a, b, by simp, hout, hclose, rfl⟩
    have hword : ⟨0 + front.length, 0 + front.length + w.token.length, w.token⟩ ∈
        TypeWord.scanFrom [] 0 (front ++ (w.token ++ back)) :=
      (TypeWord.mem_scanFrom_iff (hborder _)).mpr
        ⟨front, back, rfl, hquote, by simpa using unclaimed_in_slot_iff.mp hunclaimed, rfl⟩
    refine List.mem_flatMap.mpr ⟨_, hslot, List.mem_map.mpr ⟨_, hword, ?_⟩⟩
    rw [hspan]
    simp [TypeWord.shift]
    omega

/-! ## Marks -/

theorem Piece.Tile.pairwise_start_lt {offset : Nat} {t : Text} {ps : List Piece}
    (h : Piece.Tile offset t ps) (hne : ∀ p ∈ ps, p.text ≠ []) :
    ps.Pairwise fun p q => p.start < q.start := by
  refine h.pairwise.imp_of_mem fun {p q} hp _ hle => ?_
  obtain ⟨-, -, -, -, hstop⟩ := h.exists_of_mem hp
  have hpos := List.length_pos_iff.mpr (hne p hp)
  omega

/-- The places at which the words of a comment that are among `names` begin. -/
def markedPlaces (names : List Text) (comment : Text) : List Nat :=
  ((slotWords 0 comment).filter fun w => names.contains w.token).map TypeWord.start

theorem pairwise_markedPlaces (names : List Text) (comment : Text) :
    (markedPlaces names comment).Pairwise (· < ·) := by
  have hstarts := (tile_slotWords 0 comment).pairwise_start_lt fun p hp => by
    obtain ⟨w, hw, rfl⟩ := List.mem_map.mp hp
    exact (isDotted_of_mem_slotWords hw).1
  rw [List.pairwise_map] at hstarts
  exact List.pairwise_map.mpr (hstarts.filter _)

/-- The marked places are those at which eligible words begin. -/
theorem mem_markedPlaces_iff {names : List Text} {comment : Text} {k : Nat} :
    k ∈ markedPlaces names comment ↔ ∃ pre name post, comment = pre ++ (name ++ post) ∧
      pre.length = k ∧ Eligible names pre name post := by
  simp only [markedPlaces, List.mem_map, List.mem_filter, List.contains_iff_mem]
  constructor
  · rintro ⟨w, ⟨hw, hname⟩, rfl⟩
    obtain ⟨pre, post, hsplit, hslot, hunclaimed, hspan⟩ := mem_slotWords_iff.mp hw
    exact ⟨pre, w.token, post, hsplit, by rw [hspan], hslot, hunclaimed, hname⟩
  · rintro ⟨pre, name, post, hsplit, rfl, heligible⟩
    refine ⟨⟨pre.length, pre.length + name.length, name⟩, ⟨?_, heligible.declared⟩, rfl⟩
    exact mem_slotWords_iff.mpr ⟨pre, post, hsplit, heligible.slot, heligible.unclaimed, rfl⟩

theorem length_qualifications (id : Text) (names : List Text) (comment : Text) :
    (qualifications id names comment).length = (markedPlaces names comment).length := by
  rw [qualifications_eq, markedPlaces, List.length_map, List.length_filterMap_eq_countP,
    ← List.countP_eq_length_filter]
  congr 1
  funext w
  by_cases hw : w.token ∈ names <;> simp [qualifiedWord?, hw]

theorem qualifiedComment_eq_insertAt_markedPlaces (id : Text) (names : List Text)
    (comment : Text) :
    qualifiedComment id names comment = Text.insertAt (wordMark id)
      (fun k => decide (k ∈ markedPlaces names comment)) 0 comment := by
  rw [qualifiedComment_eq_insertAt]
  congr 1
  funext k
  rw [Bool.eq_iff_iff]
  simp [Piece.beginsAt, markedPlaces, TypeWord.piece, and_assoc]

/-- **Qualifying again.** In a qualified comment no word is eligible any more: the words that were
are now behind `~`, and no piece of a module name stands bare behind `module:`. -/
theorem not_eligible_qualifiedComment {id : Text} {names : List Text} {comment : Text}
    (hid : ∀ c ∈ id, isNameChar c = true) (hspread : ¬['.', '.', '.'] <:+: id)
    {pre name post : Text} (hsplit : qualifiedComment id names comment = pre ++ (name ++ post)) :
    ¬Eligible names pre name post := by
  intro heligible
  have hword : ⟨pre.length, pre.length + name.length, name⟩ ∈
      slotWords 0 (qualifiedComment id names comment) :=
    mem_slotWords_iff.mpr ⟨pre, post, hsplit, heligible.slot, heligible.unclaimed, rfl⟩
  have hquotes : ∀ c ∈ id, TypeWord.isQuote c = false := fun c hc =>
    TypeWord.isQuote_of_isNameChar (hid c hc)
  have hclose : '}' ∉ id := fun hc => ImportRef.isNameChar_ne (hid _ hc) rfl rfl
  exact notMem_of_mem_qualifiedComment (isSheltered_moduleId names hid hspread) hquotes hclose
    _ hword heligible.declared

theorem qualifications_qualifiedComment {id : Text} (names : List Text) (comment : Text)
    (hid : ∀ c ∈ id, isNameChar c = true) (hspread : ¬['.', '.', '.'] <:+: id) :
    qualifications id names (qualifiedComment id names comment) = [] := by
  rw [← List.length_eq_zero_iff, length_qualifications, List.length_eq_zero_iff,
    List.eq_nil_iff_forall_not_mem]
  intro k hk
  obtain ⟨pre, name, post, hsplit, -, heligible⟩ := mem_markedPlaces_iff.mp hk
  exact not_eligible_qualifiedComment hid hspread hsplit heligible

namespace Session

variable {scope : Scope} {s : Session} {filename : Path} {info : FileIdentity}

/-- Qualifying a comment of a file that was met, whatever the session is: in a file without a module
the comment stays as it is; otherwise the mark of the module is put in front of every word that is
eligible for the names of the module, nothing else is changed, and the session counts the marks. -/
theorem qualifyComment_marks_eligible (hcached : s.cached? scope filename = some info)
    (comment : Text) (log : Log) :
    let outcome := qualifyComment scope filename comment log s
    (info.moduleId = [] →
      outcome.answer = .ok comment ∧ outcome.state = { s with phase := .qualify }) ∧
    (info.moduleId ≠ [] → ∃ places : List Nat, places.Pairwise (· < ·) ∧
      (∀ k, k ∈ places ↔ ∃ pre name post, comment = pre ++ (name ++ post) ∧ pre.length = k ∧
        Eligible ((s.index.names? info.moduleId).getD []) pre name post) ∧
      outcome.answer = .ok (Text.insertAt (moduleMark ++ info.moduleId ++ ['~'])
        (fun k => decide (k ∈ places)) 0 comment) ∧
      outcome.state = { s with
        phase := .qualify
        qualifiedIdentifiers := s.qualifiedIdentifiers + places.length }) := by
  intro outcome
  obtain ⟨hanswer, hstate⟩ := (answers_qualifyComment hcached comment log).1 trivial
  constructor
  · intro hid
    rw [qualifiedIn, if_pos (by simp [hid])] at hanswer
    rw [qualifyCount, if_pos (by simp [hid])] at hstate
    exact ⟨hanswer, hstate⟩
  · intro hid
    have hnot : ¬info.moduleId.isEmpty = true := by simpa using hid
    rw [qualifiedIn, if_neg hnot, qualifiedComment_eq_insertAt_markedPlaces] at hanswer
    rw [qualifyCount, if_neg hnot, length_qualifications] at hstate
    exact ⟨_, pairwise_markedPlaces _ comment, fun _ => mem_markedPlaces_iff, hanswer, hstate⟩

/-- A session that has met one file, whose module declares one type. -/
def metSession : Session :=
  { fresh with
    cache := [(Batch.samplePath, ⟨Batch.samplePath, ['a'], [['T']], true⟩)]
    index := TypeIndex.empty.record ['a'] [['T']] }

/-- The name is quoted, then a member of something else, then spread. -/
def spreadComment : Text := "/** \x7b'T'|x.T|...T\x7d */".toList

theorem spread_eligible : Eligible [['T']]
    ['/', '*', '*', ' ', '{', '\x27', 'T', '\x27', '|', 'x', '.', 'T', '|', '.', '.', '.'] ['T']
    ['}', ' ', '*', '/'] where
  slot := by
    refine ⟨['/', '*', '*', ' '], ['\x27', 'T', '\x27', '|', 'x', '.', 'T', '|', '.', '.', '.'], [],
      [' ', '*', '/'], rfl, rfl, ?_, by decide, ?_⟩
    · exact .of_forall_none (by simp [braceCloser?])
    · have hbody : '\x27' ∉ ['T'] := by decide
      exact .enclosed (quoteCloser?_of_isQuote rfl) hbody
        (.of_forall_none (by simp [quoteCloser?, TypeWord.isQuote]))
  unclaimed := by
    refine ⟨maximalRun_iff.mpr ⟨⟨by decide, rfl⟩, ?_, ?_⟩, rfl, fun _ => ?_, by decide⟩
    · exact ⟨rfl, fun _ => rfl⟩
    · exact ⟨rfl, fun h => absurd h (by decide)⟩
    · exact ⟨['/', '*', '*', ' ', '{', '\x27', 'T', '\x27', '|', 'x', '.', 'T', '|'], rfl⟩
  declared := List.mem_singleton_self _

set_option maxRecDepth 100000 in
theorem spread_comment_marked :
    metSession.cached? Batch.sampleScope Batch.samplePath =
        some ⟨Batch.samplePath, ['a'], [['T']], true⟩ ∧
      (qualifyComment Batch.sampleScope Batch.samplePath spreadComment [] metSession).answer =
        .ok "/** \x7b'T'|x.T|...module:a~T\x7d */".toList := by
  have hcached : metSession.cached? Batch.sampleScope Batch.samplePath =
      some ⟨Batch.samplePath, ['a'], [['T']], true⟩ := by
    decide +kernel
  have hnames : (metSession.index.names? ['a']).getD [] = [['T']] := by
    decide +kernel
  have hcount : (qualifyComment Batch.sampleScope Batch.samplePath spreadComment []
      metSession).state.qualifiedIdentifiers = 1 := by
    decide +kernel
  obtain ⟨-, hmarks⟩ := qualifyComment_marks_eligible hcached spreadComment []
  obtain ⟨places, -, hplaces, hanswer, hstate⟩ := hmarks (by decide)
  have hmem : 16 ∈ places := by
    rw [hplaces, hnames]
    exact ⟨_, _, _, by decide +kernel, rfl, spread_eligible⟩
  have hlength : places.length = 1 := by
    rw [hstate] at hcount
    simpa [metSession, fresh] using hcount
  obtain ⟨k, rfl⟩ := List.length_eq_one_iff.mp hlength
  obtain rfl : 16 = k := List.mem_singleton.mp hmem
  exact ⟨hcached, hanswer.trans (congrArg Except.ok (by decide +kernel))⟩

/-- Qualifying a comment of a file that was met leaves nothing to qualify, whatever the session and
the names of the module are, as long as the module has a name of name characters without a spread:
no word of the result is eligible, and qualifying the result gives it back and counts nothing. -/
theorem qualifyComment_stable (hcached : s.cached? scope filename = some info)
    (hid : ∀ c ∈ info.moduleId, isNameChar c = true)
    (hspread : ¬['.', '.', '.'] <:+: info.moduleId) (comment : Text) (log : Log) :
    let first := qualifyComment scope filename comment log s
    ∃ t, first.answer = .ok t ∧
      (info.moduleId ≠ [] → ∀ pre name post, t = pre ++ (name ++ post) →
        ¬Eligible ((s.index.names? info.moduleId).getD []) pre name post) ∧
      ∀ log',
        let second := qualifyComment scope filename t log' first.state
        second.answer = .ok t ∧ second.state = first.state := by
  intro first
  obtain ⟨hanswer, hstate⟩ := (answers_qualifyComment hcached comment log).1 trivial
  have hcached' : first.state.cached? scope filename = some info := by
    rw [hstate]
    exact hcached
  have hindex : first.state.index = s.index := by rw [hstate]
  refine ⟨_, hanswer, ?_, fun log' => ?_⟩
  · intro hne pre name post hsplit
    rw [qualifiedIn, if_neg (by simpa using hne)] at hsplit
    exact not_eligible_qualifiedComment hid hspread hsplit
  intro second
  obtain ⟨hanswer', hstate'⟩ :=
    (answers_qualifyComment hcached' (qualifiedIn s.index info comment) log').1 trivial
  rw [hindex] at hanswer' hstate'
  have hcount : qualifyCount s.index info (qualifiedIn s.index info comment) = 0 := by
    unfold qualifyCount qualifiedIn
    split
    · rfl
    · rw [qualifications_qualifiedComment _ _ hid hspread, List.length_nil]
  have hsame : qualifiedIn s.index info (qualifiedIn s.index info comment) =
      qualifiedIn s.index info comment := by
    unfold qualifiedIn
    split
    · rfl
    · rw [← splice_qualifications _ _ (qualifiedComment _ _ _),
        qualifications_qualifiedComment _ _ hid hspread, Replacement.splice_nil]
  refine ⟨hanswer'.trans (congrArg Except.ok hsame), hstate'.trans ?_⟩
  rw [hcount, hstate]
  rfl

/-- A module name that is made of the type name and of all signs a name may hold but `$`. -/
def echoId : Text := ['@', 'T', '/', 'T', '.', 'T', '-', 'T']

/-- A session that has met one file, whose module is named after the type it declares. -/
def echoSession : Session :=
  { fresh with
    cache := [(Batch.samplePath, ⟨Batch.samplePath, echoId, [['T']], true⟩)]
    index := TypeIndex.empty.record echoId [['T']] }

/-- Two eligible words, the second one spread. -/
def echoComment : Text := "/** \x7bT|...T\x7d */".toList

set_option maxRecDepth 100000 in
theorem echo_comment_stable :
    (qualifyComment Batch.sampleScope Batch.samplePath echoComment [] echoSession).answer =
        .ok "/** \x7bmodule:@T/T.T-T~T|...module:@T/T.T-T~T\x7d */".toList ∧
      ∀ log',
        let first := qualifyComment Batch.sampleScope Batch.samplePath echoComment [] echoSession
        let second := qualifyComment Batch.sampleScope Batch.samplePath
          "/** \x7bmodule:@T/T.T-T~T|...module:@T/T.T-T~T\x7d */".toList log' first.state
        second.answer = first.answer ∧ second.state = first.state := by
  have hcached : echoSession.cached? Batch.sampleScope Batch.samplePath =
      some ⟨Batch.samplePath, echoId, [['T']], true⟩ := by
    decide +kernel
  have hid : ∀ c ∈ echoId, isNameChar c = true := by
    simp only [echoId, List.forall_mem_cons]
    exact ⟨rfl, rfl, rfl, rfl, rfl, rfl, rfl, rfl, nofun⟩
  have hanswer : (qualifyComment Batch.sampleScope Batch.samplePath echoComment []
      echoSession).answer =
        .ok "/** \x7bmodule:@T/T.T-T~T|...module:@T/T.T-T~T\x7d */".toList :=
    ((answers_qualifyComment hcached echoComment []).1 trivial).1.trans
      (congrArg Except.ok (by decide +kernel))
  obtain ⟨t, hfirst, -, hsecond⟩ :=
    qualifyComment_stable hcached hid (by decide +kernel) echoComment []
  obtain rfl : t = _ := Except.ok.inj (hfirst.symm.trans hanswer)
  exact ⟨hanswer, fun log' => ⟨(hsecond log').1.trans hanswer.symm, (hsecond log').2⟩⟩

end Session

end DocRefs
