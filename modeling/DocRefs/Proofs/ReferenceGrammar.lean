import Mathlib
import DocRefs.Proofs.IdentifierRuns
import DocRefs.Proofs.Rewritten

/-!
# The grammar of import references

What an import reference is, said without the search: the opening, a quoted path, a parenthesis and
the longest symbol behind it, with the nullability marker in front. The search finds nothing else,
in order and apart. It passes over a place where a reference can be read only when that place
belongs to the symbol of a reference found before.
-/

namespace DocRefs

namespace ImportRef

/-! ## The grammar -/

/-- A path that may stand between quotation marks. -/
structure Quotes (q : Char) (raw : Text) : Prop where
  quote : isQuote q = true
  ne_nil : raw ≠ []
  chars : ∀ c ∈ raw, isNameChar c = true

/-- A reference up to the parenthesis that closes it. -/
def written (q : Char) (raw : Text) : Text := opening ++ q :: (raw ++ [q, ')'])

/-- The symbol of a reference with `behind` behind its parenthesis: the longest dotted identifier
behind a dot. -/
def SymbolOf (behind : Text) : Option Text → Prop
  | none => ∀ name, DottedRun name → ¬ '.' :: name <+: behind
  | some name => ∃ post, behind = '.' :: (name ++ post) ∧ MaximalRun [] name post

/-- The specifier of a path: a relative one loses its suffix unless nothing else is left. -/
def SpecifierOf (raw specifier : Text) : Prop :=
  if ['.'] <+: raw ∧ scriptSuffix <:+ raw ∧ scriptSuffix.length < raw.length then
    raw = specifier ++ scriptSuffix
  else specifier = raw

/-- The reference stands in `t` as the grammar has it, its opening behind `before` and its path
`raw` in the quotation marks `q`. -/
structure StandsIn (t before : Text) (q : Char) (raw behind : Text) (ref : ImportRef) : Prop where
  split : t = before ++ (written q raw ++ behind)
  bare : before.getLast?.any isIdentifierChar = false
  quotes : Quotes q raw
  marker : ref.marker = before.getLast?.filter isMarker
  specifier : SpecifierOf raw ref.specifier
  symbol : SymbolOf behind ref.symbol
  text : ref.text = ref.marker.toList ++ (written q raw ++ symbolText ref.symbol)
  start : ref.start + ref.marker.toList.length = before.length
  stop : ref.stop = ref.start + ref.text.length

/-- Whether the character at offset `k` belongs to the symbol of the reference. -/
def CoversBySymbol (ref : ImportRef) (k : Nat) : Prop :=
  ∃ name, ref.symbol = some name ∧ ref.stop ≤ k + name.length ∧ k < ref.stop

/-! ## Reading one reference -/

theorem specifierOf_withoutSuffix (raw : Text) : SpecifierOf raw (withoutSuffix raw) := by
  rw [SpecifierOf, withoutSuffix]
  simp only [Bool.and_eq_true, decide_eq_true_eq, Text.startsWith_iff, Text.endsWith_iff,
    gt_iff_lt, and_assoc]
  split
  next h =>
    obtain ⟨front, hfront⟩ := h.2.1
    rw [← hfront, List.length_append, Nat.add_sub_cancel, List.take_left]
  next => rfl

theorem symbolOf_readSymbol (behind : Text) : SymbolOf behind (readSymbol behind).1 := by
  obtain ⟨hsplit, hsymbol⟩ := readSymbol_spec behind
  cases h : (readSymbol behind).1 with
  | none =>
      rintro name hname ⟨post, rfl⟩
      have hsome : (readSymbol ('.' :: name ++ post)).1.isSome = true := by
        obtain ⟨c, cs, rfl, hc, -⟩ := hname.isDotted.exists_cons
        exact isSome_readSymbol.mpr ⟨_, rfl, by simpa using hc⟩
      rw [h] at hsome
      simp at hsome
  | some name =>
      obtain ⟨hname, hends⟩ := hsymbol name h
      refine ⟨(readSymbol behind).2, ?_, maximalRun_iff.mpr ⟨hname, trivial, hends⟩⟩
      rw [h] at hsplit
      exact hsplit

/-- What is read behind an opening, with the parts of the grammar named. -/
theorem Body.exists_written {t : Text} {b : Body} (h : readBody? t = some b) :
    ∃ q behind, Quotes q b.raw ∧ t = q :: (b.raw ++ [q, ')']) ++ behind ∧
      SymbolOf behind b.symbol ∧ b.text = q :: (b.raw ++ [q, ')']) ++ symbolText b.symbol ∧
      behind = symbolText b.symbol ++ b.rest := by
  obtain ⟨q, behind, hq, hne, hraw, ht, hsymbol⟩ := exists_of_readBody? h
  have hshaped := readBody?_shaped h
  obtain ⟨q', -, htext⟩ := hshaped.text_eq
  have hboth : q :: (b.raw ++ [q, ')']) ++ behind =
      q' :: (b.raw ++ [q', ')']) ++ (symbolText b.symbol ++ b.rest) := by
    rw [← List.append_assoc, ← htext, ← hshaped.append_rest, ht]
    simp
  obtain rfl : q = q' := (List.cons.inj hboth).1
  refine ⟨q, behind, ⟨hq, hne, hraw⟩, by simpa using ht, ?_, htext,
    List.append_cancel_left hboth⟩
  rw [hsymbol]
  exact symbolOf_readSymbol behind

/-- A reference that is read behind `before` stands there. -/
theorem exists_standsIn {before t : Text} {b : Body} (hbody : readBody? t = some b)
    (hbare : before.getLast?.any isIdentifierChar = false) :
    ∃ q behind, t = q :: (b.raw ++ [q, ')']) ++ behind ∧
      StandsIn (before ++ (opening ++ t)) before q b.raw behind
        (ofBody before.getLast? before.length b) := by
  obtain ⟨q, behind, hquotes, ht, hsymbol, htext, -⟩ := Body.exists_written hbody
  have hle : (before.getLast?.filter isMarker).toList.length ≤ before.length :=
    length_filter_isMarker_le fun h => List.length_pos_iff.mpr fun hnil => by simp [hnil] at h
  refine ⟨q, behind, ht, ?_⟩
  constructor
  case split => simp [ht, written]
  case bare => exact hbare
  case quotes => exact hquotes
  case marker => rfl
  case specifier => exact specifierOf_withoutSuffix b.raw
  case symbol => exact hsymbol
  case text => simp [ofBody, htext, written]
  case start =>
    simp only [ofBody]
    omega
  case stop =>
    simp only [ofBody, List.length_append]
    omega

/-- A reference that is read where a quoted path is written has this path. -/
theorem standsIn_of_written {before behind raw t : Text} {q : Char} {b : Body}
    (hquotes : Quotes q raw) (hbody : readBody? t = some b)
    (ht : t = q :: (raw ++ [q, ')']) ++ behind)
    (hbare : before.getLast?.any isIdentifierChar = false) :
    StandsIn (before ++ (opening ++ t)) before q raw behind
      (ofBody before.getLast? before.length b) := by
  obtain ⟨b', hb', rfl, -⟩ :=
    readBody?_append hquotes.quote hquotes.ne_nil hquotes.chars behind
  obtain rfl : b = b' := by
    have hsame : readBody? t = some b' := by simpa [ht] using hb'
    exact Option.some.inj (hbody.symm.trans hsame)
  obtain ⟨q', behind', ht', hstands⟩ := exists_standsIn hbody hbare
  obtain rfl : q = q' := (List.cons.inj (ht.symm.trans ht')).1
  obtain rfl : behind = behind' := List.append_cancel_left (ht.symm.trans ht')
  exact hstands

/-- Every reference found is of the grammar. -/
theorem standsIn_of_mem_scan {t : Text} {ref : ImportRef} (href : ref ∈ scan t) :
    ∃ before q raw behind, StandsIn t before q raw behind ref := by
  obtain ⟨before, rest, b, rfl, hbody, hbare, rfl⟩ := readIn_of_mem_scanFrom href
  rw [Option.or_none] at hbare ⊢
  obtain ⟨q, behind, -, hstands⟩ := exists_standsIn hbody hbare
  exact ⟨before, q, b.raw, behind, by rwa [Nat.zero_add]⟩

/-! ## Nothing of the grammar is passed over -/

/-- A reference in a text that begins with an opening has this opening or stands behind it. -/
theorem written_cases {q : Char} {raw behind u t : Text}
    (h : opening ++ t = u ++ (written q raw ++ behind)) :
    u = [] ∧ t = q :: (raw ++ [q, ')']) ++ behind ∨
      ∃ v, u = opening ++ v ∧ t = v ++ (written q raw ++ behind) := by
  cases u with
  | nil =>
      rw [List.nil_append, written, List.append_assoc, List.append_cancel_left_eq] at h
      exact .inl ⟨rfl, h⟩
  | cons c u =>
      -- The first letter of an opening is none of the others.
      obtain ⟨rfl, htail⟩ : 'i' = c ∧ opening.tail ++ t = u ++ (written q raw ++ behind) := by
        simpa [opening] using h
      have hprefix : opening.tail <+: u :=
        (Text.prefix_append_cons_iff (x := 'i') (by decide) u
          (opening.tail ++ (q :: (raw ++ [q, ')']) ++ behind))).mp
          ⟨t, htail.trans (by simp [written, opening])⟩
      obtain ⟨v, rfl⟩ := hprefix
      rw [List.append_assoc, List.append_cancel_left_eq] at htail
      exact .inr ⟨v, rfl, htail⟩

/-- No opening begins in the quotation marks of another reference. -/
theorem Quotes.isPrefix {q : Char} {raw u w t : Text} (hquotes : Quotes q raw)
    (h : u ++ (opening ++ w) = q :: (raw ++ [q, ')']) ++ t) :
    q :: (raw ++ [q, ')']) <+: u := by
  have hparen : '(' ∉ q :: (raw ++ [q, ')']) := by
    have hq : '(' ≠ q := by
      rintro rfl
      exact absurd hquotes.quote (by decide)
    have hraw : '(' ∉ raw := fun hmem => isNameChar_ne (hquotes.chars _ hmem) rfl rfl
    simp [hq, hraw]
  have hopening : u ++ opening.dropLast ++ '(' :: w = u ++ (opening ++ w) := by simp [opening]
  -- So the quoted path ends before the parenthesis of the opening, and no letter there closes it.
  have hprefix : q :: (raw ++ [q, ')']) <+: u ++ opening.dropLast :=
    (Text.prefix_append_cons_iff hparen _ w).mp ⟨t, by rw [hopening, h]⟩
  obtain ⟨rest, hrest⟩ := hprefix
  rcases List.append_eq_append_iff.mp hrest with ⟨more, hmore, -⟩ | ⟨more, hmore, hletters⟩
  · exact ⟨more, hmore.symm⟩
  · cases hlast : more.getLast? with
    | none =>
        rw [List.getLast?_eq_none_iff.mp hlast, List.append_nil] at hmore
        exact ⟨[], by simp [hmore]⟩
    | some c =>
        have hc : c = ')' := by
          have hclosed : q :: (raw ++ [q, ')']) = (q :: raw ++ [q]) ++ [')'] := by simp
          have hends := congrArg List.getLast? hmore
          rw [hclosed, List.getLast?_concat, List.getLast?_append, hlast] at hends
          simpa using hends.symm
        have hmem : ')' ∈ opening.dropLast := by
          rw [hletters, ← hc]
          exact List.mem_append_left _ (List.mem_of_getLast? hlast)
        exact absurd hmem (by decide)

/-- An opening behind the start of a reference stands behind all of it, or in its symbol. -/
theorem Body.isPrefix_or_symbol {u w : Text} {b : Body}
    (hbody : readBody? (u ++ (opening ++ w)) = some b) :
    b.text <+: u ∨ ∃ name, b.symbol = some name ∧ b.text.length ≤ u.length + name.length ∧
      u.length < b.text.length := by
  obtain ⟨q, behind, hquotes, ht, -, htext, rfl⟩ := Body.exists_written hbody
  obtain ⟨u, rfl⟩ := hquotes.isPrefix ht
  rw [List.append_assoc, List.append_cancel_left_eq] at ht
  rw [htext]
  cases hsymbol : b.symbol with
  | none => exact .inl (by simp [symbolText])
  | some name =>
      have hdot : u ++ (opening ++ w) = '.' :: (name ++ b.rest) := by
        rw [ht, hsymbol]
        rfl
      cases u with
      | nil => simp [opening] at hdot
      | cons c u =>
          obtain ⟨rfl, hname⟩ := List.cons.inj hdot
          rcases List.append_eq_append_iff.mp hname with ⟨more, rfl, hmore⟩ | ⟨more, rfl, -⟩
          · cases more with
            | nil => exact .inl (by simp [symbolText])
            | cons d more =>
                refine .inr ⟨_, rfl, ?_, ?_⟩
                · simp only [symbolText, Option.elim_some, List.length_append, List.length_cons]
                  omega
                · simp [symbolText]
          · refine .inl ⟨more, ?_⟩
            simp [symbolText]

/-- Where a reference can be read, the search finds it or is inside of the symbol of one found. -/
theorem exists_mem_scanFrom {before? : Option Char} {offset : Nat} {t : Text} {q : Char}
    {raw behind : Text} (hquotes : Quotes q raw) {before u : Text}
    (hlast : before.getLast? = before?) (hlength : before.length = offset)
    (ht : t = u ++ (written q raw ++ behind))
    (hbare : (before ++ u).getLast?.any isIdentifierChar = false) :
    ∃ ref ∈ scanFrom before? offset t, StandsIn (before ++ t) (before ++ u) q raw behind ref ∨
      ref.CoversBySymbol (before ++ u).length := by
  fun_induction scanFrom before? offset t generalizing before u with
  | case1 => simp [written, opening] at ht
  | case2 before? offset c cs hopen ih =>
      cases u with
      | nil =>
          rw [List.nil_append, written, List.append_assoc] at ht
          simp [Text.after?_eq_some_iff.mpr ht] at hopen
      | cons d u =>
          obtain ⟨rfl, hcs⟩ : c = d ∧ cs = u ++ (written q raw ++ behind) := by
            simpa using ht
          have hmem := @ih (before ++ [c]) u (by simp) (by simp [hlength]) hcs
            (by simpa using hbare)
          simpa using hmem
  | case3 before? offset c cs t hopen _ hident ih =>
      have hopening := Text.after?_eq_some_iff.mp hopen
      rcases written_cases (hopening.symm.trans ht) with ⟨rfl, -⟩ | ⟨v, rfl, hv⟩
      · rw [List.append_nil, hlast] at hbare
        simp [hbare] at hident
      · have hmem := @ih (before ++ opening) v (by simp [opening])
          (by simp [hlength]) hv (by simpa using hbare)
        rw [hopening]
        simpa using hmem
  | case4 before? offset c cs t hopen _ hident hbody ih =>
      have hopening := Text.after?_eq_some_iff.mp hopen
      rcases written_cases (hopening.symm.trans ht) with ⟨-, hv⟩ | ⟨v, rfl, hv⟩
      · obtain ⟨b, hb, -⟩ := readBody?_append hquotes.quote hquotes.ne_nil hquotes.chars behind
        simp [hv, hb] at hbody
      · have hmem := @ih (before ++ opening) v (by simp [opening])
          (by simp [hlength]) hv (by simpa using hbare)
        rw [hopening]
        simpa using hmem
  | case5 before? offset c cs t hopen _ hident b hbody _ marker =>
      rename_i stop ih
      have hopening := Text.after?_eq_some_iff.mp hopen
      subst hlast hlength
      rcases written_cases (hopening.symm.trans ht) with ⟨rfl, hv⟩ | ⟨v, rfl, hv⟩
      · rw [hopening, List.append_nil]
        exact ⟨_, List.mem_cons_self,
          .inl (standsIn_of_written hquotes hbody hv (by simpa using hident))⟩
      · have hshaped := readBody?_shaped hbody
        have hread := hbody
        rw [hv, written, List.append_assoc] at hread
        -- The search goes on behind the reference: the place is still ahead, or in its symbol.
        rcases Body.isPrefix_or_symbol hread with ⟨w, rfl⟩ | ⟨name, hname, hle, hlt⟩
        · have hw : b.rest = w ++ (written q raw ++ behind) := by
            rw [hshaped.append_rest, List.append_assoc, List.append_cancel_left_eq] at hv
            exact hv
          obtain ⟨ref, href, hplace⟩ := @ih (before ++ (opening ++ b.text)) w
            (by rw [← List.append_assoc, List.getLast?_append_of_ne_nil _ hshaped.text_ne_nil])
            (by simp only [stop, List.length_append]; omega) hw (by simpa using hbare)
          rw [hopening, hshaped.append_rest]
          exact ⟨ref, List.mem_cons_of_mem _ href, by simpa using hplace⟩
        · refine ⟨_, List.mem_cons_self, .inr ⟨name, hname, ?_, ?_⟩⟩
          · simp only [stop, List.length_append]
            omega
          · simp only [stop, List.length_append]
            omega

/-! ## The whole search -/

/-- The search finds the references of the grammar. What it reports stands in the text as the
grammar has it, in order and apart; and wherever a reference can be read that no identifier runs
into, it is reported, or its place belongs to the symbol of one that is. -/
theorem scan_meets_grammar (t : Text) :
    (scan t).Pairwise (fun a b => a.stop ≤ b.start) ∧
      (∀ ref ∈ scan t, ref.start < ref.stop ∧ t.slice ref.start ref.stop = ref.text ∧
        ∃ before q raw behind, StandsIn t before q raw behind ref) ∧
      ∀ before q raw behind, t = before ++ (written q raw ++ behind) → Quotes q raw →
        before.getLast?.any isIdentifierChar = false →
        ∃ ref ∈ scan t, StandsIn t before q raw behind ref ∨ ref.CoversBySymbol before.length := by
  have htile := tile_scan t
  refine ⟨List.pairwise_map.mp htile.pairwise, fun ref href => ?_, ?_⟩
  · obtain ⟨hstop, -, hslice⟩ := htile.span_of_mem (List.mem_map_of_mem href)
    obtain ⟨before, q, raw, behind, hstands⟩ := standsIn_of_mem_scan href
    have hlength := congrArg List.length hstands.text
    refine ⟨?_, hslice, before, q, raw, behind, hstands⟩
    rw [hstands.stop, hlength]
    simp [written, opening]
  · intro before q raw behind ht hquotes hbare
    exact exists_mem_scanFrom hquotes List.getLast?_nil rfl ht hbare

/-- A malformed reference in front of one whose symbol reads as the start of a third, and a fourth
behind a marker. -/
def nestedText : Text := "import('import('./a.js').import('b')!import(\"c\")".toList

set_option maxRecDepth 100000 in
theorem nestedText_covered :
    scan nestedText =
        [⟨8, 31, none, "./a".toList, some "import".toList, "import('./a.js').import".toList⟩,
          ⟨36, 48, some '!', ['c'], none, "!import(\"c\")".toList⟩] ∧
      nestedText = "import('import('./a.js').".toList ++
        (written '\x27' ['b'] ++ "!import(\"c\")".toList) ∧
      ∃ ref ∈ scan nestedText, ref.CoversBySymbol 25 := by
  have hscan : scan nestedText =
      [⟨8, 31, none, "./a".toList, some "import".toList, "import('./a.js').import".toList⟩,
        ⟨36, 48, some '!', ['c'], none, "!import(\"c\")".toList⟩] := by
    decide +kernel
  have hsplit : nestedText = "import('import('./a.js').".toList ++
      (written '\x27' ['b'] ++ "!import(\"c\")".toList) := by
    decide +kernel
  obtain ⟨-, -, hfound⟩ := scan_meets_grammar nestedText
  obtain ⟨ref, href, hstands | hcovers⟩ :=
    hfound _ '\x27' ['b'] _ hsplit ⟨rfl, by simp, by simp; rfl⟩ (by decide +kernel)
  · have hstart := hstands.start
    rw [hscan] at href
    simp only [List.mem_cons, List.not_mem_nil, or_false] at href
    rcases href with rfl | rfl
    · simp at hstart
    · simp at hstart
  · exact ⟨hscan, hsplit, ref, href, hcovers⟩

end ImportRef

end DocRefs
