import Mathlib
import DocRefs.Proofs.Insertion
import DocRefs.Proofs.Runs

/-!
# What the second phase leaves of the links

The second phase searches the text for bare words, and the links that the first phase has put there
are part of that text. A link to a module stays as it is when no word of the module id stands bare.
A link that is a symbol alone, because the target has no module, is itself a bare word, so it is
qualified when the file's own module declares a type of that name.
-/

namespace DocRefs

/-- Whether none of the names can begin bare in a text, where `before` holds the characters in front
of it, the nearest first: every identifier goes on, or stands behind a qualifier that is no spread,
or is none of the names as far as the text goes. -/
def isSheltered (names : List Text) (before : Text) : Text → Bool
  | [] => true
  | c :: t =>
      (!isIdentifierChar c || before.head?.any isIdentifierChar
        || (before.head?.any TypeWord.isQualifier && !Text.startsWith before ['.', '.', '.'])
        || names.all fun name =>
          !Text.startsWith (c :: t) name && !Text.startsWith name (c :: t))
        && isSheltered names (c :: before) t

/-- Module names and package names are sheltered, unless they hold a spread. -/
theorem isSheltered_of_isNameChar (names : List Text) {before t : Text}
    (hbefore : before.head?.any TypeWord.isQualifier = true ∨
      before.head?.any isIdentifierChar = true)
    (ht : ∀ c ∈ t, isNameChar c = true) (hspread : ¬['.', '.', '.'] <:+: before.reverse ++ t) :
    isSheltered names before t = true := by
  induction t generalizing before with
  | nil => rfl
  | cons c t ih =>
      obtain ⟨hc, ht⟩ := List.forall_mem_cons.mp ht
      have hfront : Text.startsWith before ['.', '.', '.'] = false := by
        by_contra hstarts
        rw [Bool.not_eq_false, Text.startsWith_iff] at hstarts
        obtain ⟨rest, rfl⟩ := hstarts
        exact hspread ⟨rest.reverse, c :: t, by simp⟩
      have hnext : (c :: before).head?.any TypeWord.isQualifier = true ∨
          (c :: before).head?.any isIdentifierChar = true := by
        simp only [isNameChar, Bool.or_eq_true, decide_eq_true_eq] at hc
        rcases hc with ((((hc | rfl) | rfl) | rfl) | rfl) | rfl
        · exact .inr hc
        · exact .inr rfl
        · exact .inl rfl
        · exact .inl rfl
        · exact .inl rfl
        · exact .inl rfl
      rw [isSheltered, ih hnext ht (by simpa using hspread)]
      rcases hbefore with hqualifier | hident
      · simp [hqualifier, hfront]
      · simp [hident]

/-- So a module name without a spread is sheltered in the references to its module. -/
theorem isSheltered_moduleId (names : List Text) {id : Text}
    (hchars : ∀ c ∈ id, isNameChar c = true) (hspread : ¬['.', '.', '.'] <:+: id) :
    isSheltered names [':'] id = true := by
  refine isSheltered_of_isNameChar names (.inl rfl) hchars fun hinfix => ?_
  rcases List.infix_cons_iff.mp hinfix with hprefix | hinfix
  · simp at hprefix
  · exact hspread hinfix

/-- What shelters an identifier of a sheltered text. -/
theorem isSheltered_front {names : List Text} {before t u v : Text} {c : Char}
    (h : isSheltered names before t = true) (ht : t = u ++ c :: v)
    (hc : isIdentifierChar c = true) :
    (before.reverse ++ u).getLast?.any isIdentifierChar = true ∨
      ((before.reverse ++ u).getLast?.any TypeWord.isQualifier = true ∧
        ¬['.', '.', '.'] <:+ before.reverse ++ u) ∨
      ∀ name ∈ names, ¬name <+: c :: v ∧ ¬c :: v <+: name := by
  induction u generalizing before t with
  | nil =>
      subst ht
      rw [List.nil_append, isSheltered, Bool.and_eq_true, hc] at h
      simp only [Bool.not_true, Bool.false_or, Bool.or_eq_true, Bool.and_eq_true,
        Bool.not_eq_true', List.all_eq_true, ← Bool.not_eq_true, Text.startsWith_iff] at h
      rw [List.append_nil, List.getLast?_reverse]
      rcases h.1 with (hident | hqualifier) | hnames
      · exact .inl hident
      · refine .inr (.inl ⟨hqualifier.1, fun hsuffix => hqualifier.2 ?_⟩)
        rw [← List.reverse_suffix]
        exact hsuffix
      · exact .inr (.inr hnames)
  | cons d u ih =>
      subst ht
      rw [List.cons_append, isSheltered, Bool.and_eq_true] at h
      simpa using ih h.2 rfl

/-! ## Places where no bare word begins -/

namespace Bare

variable {pre name post : Text}

theorem head_isIdentifierChar (h : Bare pre name post) {c : Char} {t : Text}
    (ht : name ++ post = c :: t) : isIdentifierChar c = true := by
  obtain ⟨d, cs, rfl, hd, -⟩ := h.dotted.exists_cons
  rw [List.cons_append, List.cons.injEq] at ht
  rwa [← ht.1]

/-- A bare word is the whole dotted identifier at its place. -/
theorem eq_of_append (h : Bare pre name post) {other rest : Text} (hother : IsDotted other)
    (hrest : Ends rest) (heq : name ++ post = other ++ rest) : name = other ∧ post = rest := by
  have hdotted := h.dotted.dotted_append h.ends
  rw [heq, hother.dotted_append hrest, Prod.mk.injEq] at hdotted
  exact ⟨hdotted.1.symm, hdotted.2.symm⟩

end Bare

/-- No bare word begins inside a dotted identifier. -/
theorem IsDotted.not_bare {other u v : Text} {c : Char} (hother : IsDotted other)
    (heq : other = u ++ c :: v) (hu : u ≠ []) (front : Text) {name post t : Text}
    (ht : name ++ post = c :: t) : ¬Bare (front ++ u) name post := by
  intro hbare
  have hc := hbare.head_isIdentifierChar ht
  have hlast : (front ++ u).getLast? = u.getLast? := List.getLast?_append_of_ne_nil _ hu
  have hfront := hbare.front
  have hqualifier := hbare.qualifier
  rw [hlast] at hfront hqualifier
  obtain ⟨d, hd⟩ := Option.ne_none_iff_exists'.mp (mt List.getLast?_eq_none_iff.mp hu)
  obtain ⟨u', rfl⟩ := List.getLast?_eq_some_iff.mp hd
  rw [hd] at hfront hqualifier
  have hmem : d ∈ other := by simp [heq]
  rcases hother.chars d hmem with hident | rfl
  · simp [hident] at hfront
  · have hspread := hqualifier rfl
    -- The identifier begins with an identifier character, so two of the three dots are its own.
    obtain ⟨e, es, hes, he, -⟩ := hother.exists_cons
    have hlength : 2 ≤ (u' ++ ['.']).length := by
      cases u' with
      | nil =>
          rw [heq, List.nil_append, List.singleton_append, List.cons.injEq] at hes
          simp [← hes.1] at he
      | cons e' u' => simp
    have htwo : ['.', '.'] <:+ u' ++ ['.'] :=
      List.suffix_of_suffix_length_le ((List.suffix_cons '.' ['.', '.']).trans hspread)
        (List.suffix_append front _) (by simpa using hlength)
    obtain ⟨w, hw⟩ := htwo
    have hdots : other = w ++ '.' :: ('.' :: c :: v) := by
      rw [heq, ← hw]
      simp
    simpa using hother.head_of_dot hdots

section Segments

variable {mark : Text} {names : List Text} {t front seg behind : Text}

/-- Nothing is put into a part of a text where none of the names begins bare. -/
theorem insertAt_segment (ht : t = front ++ (seg ++ behind))
    (h : ∀ u c v, seg = u ++ c :: v → ∀ name ∈ names, ∀ post, name ++ post = c :: (v ++ behind) →
      ¬Bare (front ++ u) name post) :
    Text.insertAt mark (isMarked names t) front.length seg = seg := by
  apply Text.insertAt_of_unmarked
  intro i hle hlt
  by_contra hmarked
  rw [Bool.not_eq_false] at hmarked
  obtain ⟨pre, name, post, hsplit, hlength, hname, hbare⟩ := bare_of_isMarked hmarked
  have hj : i - front.length < seg.length := by omega
  obtain ⟨c, hc⟩ : ∃ c, seg.drop (i - front.length) = c :: seg.drop (i - front.length + 1) :=
    ⟨_, List.drop_eq_getElem_cons hj⟩
  have hseg : seg = seg.take (i - front.length) ++ c :: seg.drop (i - front.length + 1) := by
    rw [← hc, List.take_append_drop]
  have hpre : pre = front ++ seg.take (i - front.length) := by
    have htake := congrArg (List.take i) (hsplit.symm.trans ht)
    rw [← hlength, List.take_left, hlength, List.take_append, List.take_of_length_le hle,
      List.take_append_of_le_length (by omega)] at htake
    exact htake
  have hrest : name ++ post = c :: (seg.drop (i - front.length + 1) ++ behind) := by
    have hsame := hsplit.symm.trans ht
    rw [hpre, List.append_assoc] at hsame
    have hsame := List.append_cancel_left hsame
    nth_rewrite 2 [hseg] at hsame
    rw [List.append_assoc] at hsame
    exact List.append_cancel_left hsame
  rw [hpre] at hbare
  exact h _ c _ hseg name hname post hrest hbare

theorem insertAt_of_notIdentifier (ht : t = front ++ (seg ++ behind))
    (hseg : ∀ c ∈ seg, isIdentifierChar c = false) :
    Text.insertAt mark (isMarked names t) front.length seg = seg := by
  apply insertAt_segment ht
  intro u c v hsplit name _ post hrest hbare
  have hc := hbare.head_isIdentifierChar hrest
  rw [hseg c (by simp [hsplit])] at hc
  simp at hc

/-- The word that opens a module reference is a key, so it is not bare. -/
theorem insertAt_moduleMark (ht : t = front ++ (moduleMark ++ behind)) :
    Text.insertAt mark (isMarked names t) front.length moduleMark = moduleMark := by
  have hword : IsDotted moduleWord := ⟨by simp [moduleWord], rfl⟩
  have hends : Ends (':' :: behind) := ⟨rfl, fun h => absurd h (by decide)⟩
  apply insertAt_segment ht
  intro u c v hsplit name _ post hrest hbare
  cases u with
  | nil =>
      rw [List.nil_append] at hsplit
      have heq : name ++ post = moduleWord ++ ':' :: behind := by
        rw [hrest, ← List.cons_append, ← hsplit]
        rfl
      obtain ⟨-, rfl⟩ := hbare.eq_of_append hword hends heq
      exact hbare.key rfl
  | cons d u =>
      have hv : v ≠ [] := by
        rintro rfl
        have hlast := congrArg List.getLast? hsplit
        rw [List.getLast?_concat] at hlast
        obtain rfl : ':' = c := Option.some.inj hlast
        exact absurd (hbare.head_isIdentifierChar hrest) (by decide)
      have hmodule : moduleWord = (d :: u) ++ c :: v.dropLast := by
        have hdrop := congrArg List.dropLast hsplit
        rw [List.dropLast_append_of_ne_nil (by simp), List.dropLast_cons_of_ne_nil hv] at hdrop
        exact hdrop
      exact hword.not_bare hmodule (by simp) front hrest hbare

/-- Nothing is put into a sheltered text. -/
theorem insertAt_of_isSheltered {q : Char} (hq : q ≠ '.')
    (hseg : isSheltered names [q] seg = true) (ht : t = (front ++ [q]) ++ (seg ++ behind)) :
    Text.insertAt mark (isMarked names t) (front ++ [q]).length seg = seg := by
  apply insertAt_segment ht
  intro u c v hsplit name hname post hrest hbare
  have hlast : ((front ++ [q]) ++ u).getLast? = ([q] ++ u).getLast? := by
    rw [List.append_assoc]
    exact List.getLast?_append_of_ne_nil _ (by simp)
  have hfront := hbare.front
  have hqualifier := hbare.qualifier
  rw [hlast] at hfront hqualifier
  have hshelter := isSheltered_front hseg hsplit (hbare.head_isIdentifierChar hrest)
  rw [List.reverse_singleton] at hshelter
  rcases hshelter with hident | hspread | hnames
  · rw [hfront] at hident
    simp at hident
  · have hdots := hqualifier hspread.1
    rw [List.append_assoc] at hdots
    have hsuffix : [q] ++ u <:+ front ++ ([q] ++ u) := List.suffix_append _ _
    rcases Nat.le_total 3 ([q] ++ u).length with hle | hle
    · exact hspread.2 (List.suffix_of_suffix_length_le hdots hsuffix hle)
    · have hmem := (List.suffix_of_suffix_length_le hsuffix hdots hle).subset
        (show q ∈ [q] ++ u by simp)
      simp [hq] at hmem
  · -- The name may go on behind the text, so either one can be the longer.
    have hprefix : name <+: (c :: v) ++ behind := ⟨post, hrest⟩
    rcases List.prefix_or_prefix_of_prefix hprefix (List.prefix_append _ _) with hle | hle
    · exact (hnames name hname).1 hle
    · exact (hnames name hname).2 hle

/-- Nothing is put into a symbol behind its module. -/
theorem insertAt_symbol (hseg : IsDotted seg) (ht : t = (front ++ ['~']) ++ (seg ++ behind)) :
    Text.insertAt mark (isMarked names t) (front ++ ['~']).length seg = seg := by
  apply insertAt_segment ht
  intro u c v hsplit name _ post hrest hbare
  cases u with
  | nil =>
      rw [List.append_nil] at hbare
      obtain ⟨w, hw⟩ := hbare.qualifier (by simp [TypeWord.isQualifier])
      have hlast := congrArg List.getLast? hw
      simp [List.getLast?_append] at hlast
  | cons d u => exact hseg.not_bare hsplit (by simp) _ hrest hbare

/-- A mark may be put in front of a word, if it is among the names, and nowhere else. -/
theorem insertAt_word (hseg : IsDotted seg) (hbehind : Ends behind)
    (ht : t = front ++ (seg ++ behind)) :
    Text.insertAt mark (isMarked names t) front.length seg = seg ∨
      (seg ∈ names ∧ Text.insertAt mark (isMarked names t) front.length seg = mark ++ seg) := by
  obtain ⟨c, cs, rfl, hc, -⟩ := hseg.exists_cons
  have htail : Text.insertAt mark (isMarked names t) (front.length + 1) cs = cs := by
    have hlength : front.length + 1 = (front ++ [c]).length := by simp
    have ht' : t = (front ++ [c]) ++ (cs ++ behind) := by simp [ht]
    rw [hlength]
    apply insertAt_segment ht'
    intro u d v hsplit name _ post hrest hbare
    have hname : c :: cs = (c :: u) ++ d :: v := by rw [hsplit, List.cons_append]
    refine hseg.not_bare hname (by simp) front hrest ?_
    simpa using hbare
  rw [Text.insertAt, htail]
  cases hmarked : isMarked names t front.length with
  | false => exact .inl rfl
  | true =>
      obtain ⟨pre, name, post, hsplit, hlength, hname, hbare⟩ := bare_of_isMarked hmarked
      obtain ⟨-, hrest⟩ := List.append_inj (hsplit.symm.trans ht) hlength
      obtain ⟨rfl, -⟩ := hbare.eq_of_append hseg hbehind hrest
      exact .inr ⟨hname, rfl⟩

/-- Nothing is put into a reference to a module whose id is sheltered. -/
theorem insertAt_moduleReference {id : Text} {symbol : Option Text}
    (hid : isSheltered names [':'] id = true) (hsymbol : ∀ name, symbol = some name → IsDotted name)
    (ht : t = front ++ (moduleReference id symbol ++ behind)) :
    Text.insertAt mark (isMarked names t) front.length (moduleReference id symbol) =
      moduleReference id symbol := by
  have hmark : moduleMark = moduleWord ++ [':'] := rfl
  have hmodule : ∀ rest, t = front ++ (moduleMark ++ (id ++ rest)) →
      Text.insertAt mark (isMarked names t) front.length (moduleMark ++ id) = moduleMark ++ id := by
    intro rest hrest
    have hfront : t = ((front ++ moduleWord) ++ [':']) ++ (id ++ rest) := by
      rw [hrest, hmark]
      simp
    have hsheltered : Text.insertAt mark (isMarked names t) _ id = id :=
      insertAt_of_isSheltered (by decide) hid hfront
    rw [Text.insertAt_append, insertAt_moduleMark hrest, ← List.length_append, hmark,
      ← List.append_assoc front, hsheltered]
  cases symbol with
  | none => exact hmodule behind (by rw [ht, moduleReference, List.append_assoc])
  | some name =>
      have hname := hsymbol name rfl
      rw [moduleReference_some hname.1] at ht ⊢
      have hrest : t = front ++ (moduleMark ++ (id ++ ('~' :: name ++ behind))) := by
        rw [ht]
        simp
      have htilde : t = (front ++ (moduleMark ++ id)) ++ (['~'] ++ (name ++ behind)) := by
        rw [ht]
        simp
      have hfront : t = ((front ++ (moduleMark ++ id)) ++ ['~']) ++ (name ++ behind) := by
        rw [ht]
        simp
      have hplain : Text.insertAt mark (isMarked names t) _ ['~'] = ['~'] :=
        insertAt_of_notIdentifier htilde fun c hc => by rw [List.mem_singleton.mp hc]; rfl
      have hword : Text.insertAt mark (isMarked names t) _ name = name :=
        insertAt_symbol hname hfront
      rw [show '~' :: name = ['~'] ++ name from rfl, Text.insertAt_append, hmodule _ hrest,
        ← List.length_append, Text.insertAt_append, hplain, ← List.length_append, hword]

theorem insertAt_marker {ref : ImportRef} (hshaped : ref.Shaped)
    (ht : t = front ++ (ref.marker.toList ++ behind)) :
    Text.insertAt mark (isMarked names t) front.length ref.marker.toList = ref.marker.toList := by
  apply insertAt_of_notIdentifier ht
  intro c hc
  have hmarker := hshaped.marker
  rw [Option.mem_toList] at hc
  rw [hc, Option.all_some] at hmarker
  exact ImportRef.isIdentifierChar_of_isMarker hmarker

end Segments

/-! ## Links in a text -/

/-- The names that are qualified in the comments of a file. -/
def ownNames (index : TypeIndex) (info : FileIdentity) : List Text :=
  if info.moduleId.isEmpty then [] else (index.names? info.moduleId).getD []

theorem mapComments_qualifiedIn (index : TypeIndex) (info : FileIdentity) (t : Text) :
    mapComments (qualifiedIn index info) t =
      Text.insertAt (wordMark info.moduleId) (isMarked (ownNames index info) t) 0 t := by
  by_cases hid : info.moduleId.isEmpty = true
  · have hself : mapComments (qualifiedIn index info) t = t := by
      have himages : (DocComment.scan t).map (fun c => qualifiedIn index info c.text) =
          ((DocComment.scan t).map DocComment.piece).map Piece.text := by
        rw [List.map_map]
        apply List.map_congr_left
        intro c _
        rw [qualifiedIn, if_pos hid]
        rfl
      rw [mapComments, himages]
      exact Piece.weave_gaps (DocComment.tile_scanFrom 0 t)
    rw [hself, Text.insertAt_of_unmarked]
    intro k _ _
    simp [ownNames, hid, isMarked, Piece.beginsAt]
  · rw [← mapComments_qualifiedComment]
    congr 1
    funext d
    rw [qualifiedIn, if_neg hid, ownNames, if_neg hid]

/-- What the second phase makes of the reference `ref` to a module `id` in a file with identity
`own`, of which `names` are qualified. -/
structure Survives (own : FileIdentity) (names : List Text) (ref : ImportRef) (id t : Text) :
    Prop where
  inserts : Text.Inserts (wordMark own.moduleId) ((ref.substitute? id).getD ref.text) t
  /-- A link to a module stays when the id shelters the names. -/
  linked : id ≠ [] → isSheltered names [':'] id = true → ref.substitute? id = some t
  /-- A link to a module whose id is a module name or a package name stays. -/
  named : id ≠ [] → (∀ c ∈ id, isNameChar c = true) → ¬['.', '.', '.'] <:+: id →
    ref.substitute? id = some t
  /-- A symbol alone stays, or is qualified because the file's own module declares it. -/
  bare : id = [] → ∀ name, ref.symbol = some name →
    t = ref.marker.toList ++ name ∨
      (name ∈ names ∧ t = ref.marker.toList ++ moduleReference own.moduleId (some name))

section Reference

variable {mark : Text} {own : FileIdentity} {names : List Text} {ref : ImportRef}
  {id t front behind : Text}

/-- Nothing is put into a link to a module whose id is sheltered. -/
theorem insertAt_link (hshaped : ref.Shaped) (hid : id ≠ [])
    (hsheltered : isSheltered names [':'] id = true)
    (ht : t = front ++ ((ref.substitute? id).getD ref.text ++ behind)) :
    ref.substitute? id = some (Text.insertAt mark (isMarked names t) front.length
      ((ref.substitute? id).getD ref.text)) := by
  have hs : ref.substitute? id = some (ref.marker.toList ++ moduleReference id ref.symbol) := by
    simp [ImportRef.substitute?, hid]
  rw [hs, Option.getD_some, List.append_assoc] at ht
  have hreference : t = (front ++ ref.marker.toList) ++
      (moduleReference id ref.symbol ++ behind) := by
    rw [ht]
    simp
  rw [hs, Option.getD_some, Text.insertAt_append, insertAt_marker hshaped ht,
    ← List.length_append, insertAt_moduleReference hsheltered hshaped.symbol hreference]

/-- A mark may be put in front of a symbol alone, if it is among the names. -/
theorem insertAt_symbolAlone {name : Text} (hshaped : ref.Shaped) (hname : ref.symbol = some name)
    (hbehind : Ends behind)
    (ht : t = front ++ ((ref.substitute? []).getD ref.text ++ behind)) :
    let new := Text.insertAt mark (isMarked names t) front.length
      ((ref.substitute? []).getD ref.text)
    new = ref.marker.toList ++ name ∨
      (name ∈ names ∧ new = ref.marker.toList ++ (mark ++ name)) := by
  have hs : ref.substitute? [] = some (ref.marker.toList ++ name) := by
    simp [ImportRef.substitute?, hname]
  rw [hs, Option.getD_some, List.append_assoc] at ht
  have hword : t = (front ++ ref.marker.toList) ++ (name ++ behind) := by
    rw [ht]
    simp
  intro new
  have hnew : new = ref.marker.toList ++
      Text.insertAt mark (isMarked names t) (front ++ ref.marker.toList).length name := by
    simp only [new, hs, Option.getD_some]
    rw [Text.insertAt_append, insertAt_marker hshaped ht, List.length_append]
  rw [hnew]
  rcases insertAt_word (hshaped.symbol name hname) hbehind hword with hsame | ⟨hmem, hmarked⟩
  · exact .inl (by rw [hsame])
  · exact .inr ⟨hmem, by rw [hmarked]⟩

theorem survives_insertAt (hshaped : ref.Shaped)
    (ht : t = front ++ ((ref.substitute? id).getD ref.text ++ behind))
    (hbehind : ref.symbol.isSome → Ends behind) :
    Survives own names ref id (Text.insertAt (wordMark own.moduleId) (isMarked names t) front.length
      ((ref.substitute? id).getD ref.text)) where
  inserts := Text.inserts_insertAt _ _
  linked := fun hid hsheltered => insertAt_link hshaped hid hsheltered ht
  named := fun hid hchars hspread =>
    insertAt_link hshaped hid (isSheltered_moduleId names hchars hspread) ht
  bare := by
    intro hid name hname
    subst hid
    rw [moduleReference_eq (hshaped.symbol name hname).1]
    exact insertAt_symbolAlone hshaped hname (hbehind (by simp [hname])) ht

end Reference

/-- Whether two texts begin with the same marker, if the first one does not begin with an
identifier. -/
def SameFront (old new : Text) : Prop :=
  old.head?.any isIdentifierChar = true ∨
    ∃ m u v, ImportRef.isMarker m = true ∧ old = m :: u ∧ new = m :: v

/-- No identifier goes on at a text, also after links have been put into it. -/
theorem ends_weave {ι : Type} {offset : Nat} {t : Text} {xs : List ι} {piece : ι → Piece}
    {new : ι → Text} (htile : Piece.Tile offset t (xs.map piece))
    (hfront : ∀ x ∈ xs, SameFront (piece x).text (new x)) (ht : Ends t) :
    Ends (Text.weave (Piece.gaps offset t (xs.map piece)) (xs.map new)) := by
  -- Two characters decide, and these are in the first gap or reach into the first link.
  cases xs with
  | nil => exact ht
  | cons x xs =>
      obtain ⟨gap, rest, rfl, hstart, hstop, hrest⟩ := htile
      rw [List.map_cons, List.map_cons, Piece.gaps_cons _ hstart hstop, Text.weave]
      rcases hfront x List.mem_cons_self with hident | ⟨m, u, v, hm, hold, hnew⟩
      · obtain ⟨c, u, hcu⟩ : ∃ c u, (piece x).text = c :: u := by
          cases htext : (piece x).text with
          | nil => simp [htext] at hident
          | cons c u => exact ⟨c, u, rfl⟩
        have hc : isIdentifierChar c = true := by simpa [hcu] using hident
        rw [hcu] at ht
        cases gap with
        | nil => simp [Ends, hc] at ht
        | cons g gap =>
            cases gap with
            | nil =>
                refine ⟨ht.1, fun hdot => ?_⟩
                have hnot := ht.2 hdot
                simp [hc] at hnot
            | cons g' gap => exact ht
      · have hm' := ImportRef.isIdentifierChar_of_isMarker hm
        rw [hnew]
        cases gap with
        | nil =>
            refine ⟨hm', fun hdot => ?_⟩
            subst hdot
            simp [ImportRef.isMarker] at hm
        | cons g gap =>
            cases gap with
            | nil =>
                rw [hold] at ht
                exact ⟨ht.1, fun _ => hm'⟩
            | cons g' gap => exact ht

theorem ImportRef.Shaped.sameFront {ref : ImportRef} (h : ref.Shaped) (id : Text) :
    SameFront ref.text ((ref.substitute? id).getD ref.text) := by
  obtain ⟨body, htext, -⟩ := h.text_eq
  cases hmark : ref.marker with
  | none =>
      left
      rw [htext, hmark]
      rfl
  | some m =>
      right
      have hmarker := h.marker
      rw [hmark, Option.all_some] at hmarker
      have hold : ref.text = m :: (opening ++ body) := by rw [htext, hmark]; rfl
      cases hs : ref.substitute? id with
      | none => exact ⟨m, _, _, hmarker, hold, hold⟩
      | some s =>
          refine ⟨m, _, s.tail, hmarker, hold, ?_⟩
          unfold ImportRef.substitute? at hs
          rw [hmark] at hs
          split at hs
          · obtain ⟨name, -, rfl⟩ := Option.map_eq_some_iff.mp hs
            rfl
          · obtain rfl := Option.some.inj hs
            rfl

/-- Inserting marks into a text with new pieces inserts them into its gaps and its pieces. What
holds of every piece wherever it stands holds of the pieces of the result. -/
theorem exists_weave_insertAt {ι : Type} {piece : ι → Piece} {new : ι → Text}
    {source staged mark : Text} {marked : Nat → Bool} {xs : List ι} {offset : Nat} {front : Text}
    (good : ι → Text → Prop)
    (hgood : ∀ x ∈ xs, ∀ front behind, staged = front ++ (new x ++ behind) →
      (Ends (source.drop (piece x).stop) → Ends behind) →
      good x (Text.insertAt mark marked front.length (new x)))
    (htile : Piece.Tile offset (source.drop offset) (xs.map piece))
    (hfront : ∀ x ∈ xs, SameFront (piece x).text (new x))
    (hstaged : staged = front ++
      Text.weave (Piece.gaps offset (source.drop offset) (xs.map piece)) (xs.map new)) :
    ∃ gaps ts,
      Text.insertAt mark marked front.length
          (Text.weave (Piece.gaps offset (source.drop offset) (xs.map piece)) (xs.map new)) =
        Text.weave gaps ts ∧
      List.Forall₂ (Text.Inserts mark) (Piece.gaps offset (source.drop offset) (xs.map piece))
        gaps ∧
      List.Forall₂ good xs ts := by
  -- Marks are looked up at places of the whole staged text; `front` is what lies behind.
  induction xs generalizing offset front with
  | nil =>
      refine ⟨[_], [], rfl, ?_, .nil⟩
      exact .cons (Text.inserts_insertAt _ _) .nil
  | cons x xs ih =>
      obtain ⟨gap, rest, hsource, hstart, hstop, hrest⟩ := htile
      have hdrop : source.drop (piece x).stop = rest := Text.drop_stop hsource hstart hstop
      rw [← hdrop] at hrest
      have hxs : ∀ y ∈ xs, SameFront (piece y).text (new y) :=
        fun y hy => hfront y (List.mem_cons_of_mem x hy)
      rw [hsource, List.map_cons, List.map_cons, Piece.gaps_cons _ hstart hstop, Text.weave,
        ← hdrop] at hstaged ⊢
      have hbehind : staged = ((front ++ gap) ++ new x) ++ Text.weave
          (Piece.gaps (piece x).stop (source.drop (piece x).stop) (xs.map piece))
          (xs.map new) := by
        rw [hstaged]
        simp
      obtain ⟨gaps, ts, hinsert, hgaps, hts⟩ :=
        ih (fun y hy => hgood y (List.mem_cons_of_mem x hy)) hrest hxs hbehind
      refine ⟨Text.insertAt mark marked front.length gap :: gaps,
        Text.insertAt mark marked (front ++ gap).length (new x) :: ts, ?_,
        .cons (Text.inserts_insertAt _ _) hgaps, .cons ?_ hts⟩
      · rw [Text.insertAt_append, Text.insertAt_append, ← List.length_append,
          ← List.length_append, hinsert, Text.weave]
      · refine hgood x List.mem_cons_self (front ++ gap) _ ?_ fun hends =>
          ends_weave hrest hxs hends
        rw [hstaged]
        simp

/-- Behind a reference in a comment the comment goes on. -/
theorem star_mem_of_reference {d front text rest : Text} (hd : DocComment.IsWhole d)
    (heq : d = front ++ (text ++ rest)) (hstar : '*' ∉ text) (hlength : 2 ≤ text.length) :
    '*' ∈ rest := by
  obtain ⟨t, hdt, -, body, hbody⟩ := hd
  have hend : d = (['/', '*', '*'] ++ body) ++ ['*', '/'] := by
    rw [hdt, Text.eq_of_cut? hbody]
    simp [DocComment.close]
  have hsuffix : text ++ rest <:+ d := ⟨front, heq.symm⟩
  have htwo : ['*', '/'] <:+ d := ⟨_, hend.symm⟩
  have hclose : ['*', '/'] <:+ text ++ rest :=
    List.suffix_of_suffix_length_le htwo hsuffix (by simp; omega)
  have hmem : '*' ∈ text ++ rest := hclose.subset (by simp)
  exact (List.mem_append.mp hmem).resolve_left hstar

theorem Ends.append_of_star {t : Text} (h : Ends t) (hstar : '*' ∈ t) (u : Text) :
    Ends (t ++ u) := by
  cases t with
  | nil => simp at hstar
  | cons c t =>
      cases t with
      | nil =>
          obtain rfl := List.mem_singleton.mp hstar
          exact ⟨h.1, fun hdot => absurd hdot (by decide)⟩
      | cons c' t => exact h

/-- No identifier goes on behind the symbol of a reference in a comment. -/
theorem ends_behind_reference {source : Text} {r : Nat × ImportRef} (hr : r ∈ commentRefs source)
    (hsymbol : r.2.symbol.isSome) : Ends (source.drop (r.2.piece.shift r.1).stop) := by
  obtain ⟨c, hc, hr⟩ := List.mem_flatMap.mp hr
  obtain ⟨ref, href, rfl⟩ := List.mem_map.mp hr
  obtain ⟨front, rest, hsource, hstart, -⟩ :=
    (DocComment.tile_scanFrom 0 source).exists_of_mem (List.mem_map_of_mem hc)
  obtain ⟨front', rest', hcomment, hstart', hstop'⟩ :=
    (ImportRef.tile_scan c.text).exists_of_mem (List.mem_map_of_mem href)
  obtain ⟨hshaped, -, hends⟩ := ImportRef.found_of_mem_scanFrom href
  simp only [DocComment.piece, ImportRef.piece] at hsource hstart hcomment hstart' hstop'
  have hdropped : c.text.drop ref.stop = rest' :=
    Text.drop_stop ((List.drop_zero ..).trans hcomment) hstart' hstop'
  have hdrop : source.drop (c.start + ref.stop) = rest' ++ rest := by
    rw [hsource, hstart, Nat.zero_add, ← List.drop_drop, List.drop_left, ← hdropped,
      List.drop_append_of_le_length]
    rw [hstop', hstart', hcomment]
    simp
  have hstar : '*' ∈ rest' := by
    refine star_mem_of_reference (isWhole_of_mem_scan hc) hcomment hshaped.inert.star_notMem ?_
    obtain ⟨body, htext, -⟩ := hshaped.text_eq
    rw [htext]
    simp [ImportRef.opening]
    omega
  have hbehind : Ends rest' := by
    have hcut := hends hsymbol
    rwa [Nat.sub_zero, hdropped] at hcut
  simp only [Piece.shift, ImportRef.piece]
  rw [hdrop]
  exact hbehind.append_of_star hstar rest

/-- Qualifying a text whose references have been linked to the modules that `id` gives leaves of
every link what survives. -/
theorem exists_survivors (own : FileIdentity) (names : List Text) (id : ImportRef → Text)
    (source : Text) {staged : Text}
    (hstaged : staged =
      Text.weave (Piece.gaps 0 source ((commentRefs source).map fun r => r.2.piece.shift r.1))
        ((commentRefs source).map fun r => (r.2.substitute? (id r.2)).getD r.2.text)) :
    ∃ gaps ts,
      Text.insertAt (wordMark own.moduleId) (isMarked names staged) 0 staged =
        Text.weave gaps ts ∧
      List.Forall₂ (Text.Inserts (wordMark own.moduleId))
        (Piece.gaps 0 source ((commentRefs source).map fun r => r.2.piece.shift r.1)) gaps ∧
      List.Forall₂ (fun r t => r ∈ commentRefs source ∧ Survives own names r.2 (id r.2) t)
        (commentRefs source) ts := by
  have hsurvive : ∀ r ∈ commentRefs source, ∀ front behind,
      staged = front ++ ((r.2.substitute? (id r.2)).getD r.2.text ++ behind) →
      (Ends (source.drop (r.2.piece.shift r.1).stop) → Ends behind) →
      r ∈ commentRefs source ∧ Survives own names r.2 (id r.2) (Text.insertAt
        (wordMark own.moduleId) (isMarked names staged) front.length
        ((r.2.substitute? (id r.2)).getD r.2.text)) := by
    intro r hr front behind hsplit hends
    refine ⟨hr, survives_insertAt (shaped_of_mem_commentRefs hr) hsplit ?_⟩
    exact fun hsymbol => hends (ends_behind_reference hr hsymbol)
  have hweave := exists_weave_insertAt
    (fun r t => r ∈ commentRefs source ∧ Survives own names r.2 (id r.2) t) hsurvive
    (tile_commentRefs source) (fun r hr => (shaped_of_mem_commentRefs hr).sameFront (id r.2))
    ((List.nil_append _).trans hstaged.symm).symm
  rwa [List.drop_zero, ← hstaged] at hweave

/-! ## Links in a run -/

namespace Batch

variable {scope : Scope} {disk : Disk}

/-- The end session resolves the imports of listed files as the disk says. -/
theorem Ready.resolve {paths : List Path} (h : Ready scope disk paths) {p : Path} (hp : p ∈ paths)
    {r : Nat × ImportRef} (hr : r ∈ commentRefs (sourceOf scope disk p)) :
    ((Session.resolve scope (.still disk) p r.2.specifier).run
        (endSession scope disk paths)).answer =
      .ok ((moduleOf scope disk p r.2.specifier).toOption.getD []) := by
  have hanswers := Session.answers_resolve h.keeps p (colon_notMem_of_mem_commentRefs hr)
  have hnormal : scope.normalize p = p := (h.normal p hp).normalize_eq scope.cwd
  rw [hnormal] at hanswers
  exact ((hanswers []).1 ((h.stageable p hp).2.2 r hr)).1

theorem linkedText_eq_weave (scope : Scope) (disk : Disk) (p : Path) (source : Text) :
    linkedText scope disk p source =
      Text.weave (Piece.gaps 0 source ((commentRefs source).map fun r => r.2.piece.shift r.1))
        ((commentRefs source).map fun r => (linkOf scope disk p r.2).getD r.2.text) :=
  (weave_inComments ImportRef.tile_scan (fun ref => (linkOf scope disk p ref).getD ref.text)
    source).symm

/-- For every listed file of a run, the staged text is the source with every reference linked, and
the output is the staged text with marks put into it. A link to a module with a sheltered id is
still there, and a symbol alone is still there or has been qualified as a type of the file's own
module. -/
theorem links_survive {settings : Settings} {files : List Path} {r : BatchResult}
    (hscope : Scope.ofSettings disk.cwdPath settings = .ok scope)
    (hrun : ((run (.still disk) settings (some files)).run ()).answer = .ok r)
    {f : Path} (hf : f ∈ files) :
    let p := scope.normalize f
    let s := endSession scope disk (files.map scope.normalize)
    ∃ source output own staged links gaps ts,
      r.sources.get? p = some source ∧ r.outputs.get? p = some output ∧
      s.cached? scope p = some own ∧
      ((Op.collect (stage scope (.still disk)) (files.map scope.normalize)).run .fresh).answer =
        .ok staged ∧
      let refs := commentRefs source
      let old := Piece.gaps 0 source (refs.map fun r => r.2.piece.shift r.1)
      ⟨p, source, Text.weave old links⟩ ∈ staged ∧
      List.Forall₂ (fun r t => ∃ id,
        ((Session.resolve scope (.still disk) p r.2.specifier).run s).answer = .ok id ∧
        t = (r.2.substitute? id).getD r.2.text) refs links ∧
      output = Text.weave gaps ts ∧
      List.Forall₂ (Text.Inserts (wordMark own.moduleId)) old gaps ∧
      List.Forall₂ (fun r t => ∃ id,
        ((Session.resolve scope (.still disk) p r.2.specifier).run s).answer = .ok id ∧
        Survives own (ownNames s.index own) r.2 id t) refs ts := by
  intro p s
  obtain ⟨hready, rfl⟩ := ready_of_run hscope hrun
  have hp : p ∈ files.map scope.normalize := List.mem_map_of_mem hf
  have hstageable := hready.stageable p hp
  have hcached := cached?_of_keeps hready.keeps (hready.normal p hp) ⟨p, hp, .inl rfl⟩
  have hlinked := linkedText_eq_weave scope disk p (sourceOf scope disk p)
  obtain ⟨gaps, ts, houtput, hgaps, hts⟩ := exists_survivors (identityAt scope disk p)
    (ownNames s.index (identityAt scope disk p))
    (fun ref => (moduleOf scope disk p ref.specifier).toOption.getD []) (sourceOf scope disk p)
    hlinked
  refine ⟨sourceOf scope disk p, outputOf scope disk s.index p, identityAt scope disk p,
    (files.map scope.normalize).map (stagedOf scope disk),
    (commentRefs (sourceOf scope disk p)).map fun r => (linkOf scope disk p r.2).getD r.2.text,
    gaps, ts, ?_, ?_, hcached, ?_, ?_, ?_, ?_, hgaps, ?_⟩
  · rw [reportOf, OrderedMap.get?_ofPairs, if_pos hp]
  · rw [reportOf, OrderedMap.get?_ofPairs, if_pos hp]
  · exact ((answers_stages hready.normal []).1 hready.stageable).1
  · rw [← hlinked]
    exact List.mem_map_of_mem hp
  · rw [List.forall₂_map_right_iff, List.forall₂_same]
    exact fun r hr => ⟨_, hready.resolve hp hr, rfl⟩
  · rw [outputOf, mapComments_qualifiedIn, houtput]
  · refine hts.imp ?_
    intro r t h
    rcases h with ⟨hr, hsurvives⟩
    exact ⟨_, hready.resolve hp hr, hsurvives⟩

/-- The reference of the sample. -/
def importOfB : ImportRef := ⟨25, 40, none, "./b".toList, some ['T'], "import('./b').T".toList⟩

/-- The sample, and a module in the file that it imports from. -/
def linkedDisk : Disk :=
  ⟨.sub ['p'] (.file "a.js".toList (Encoding.encodeUtf8 sampleText)
    (.file "b".toList (Encoding.encodeUtf8 "/** @module b */".toList) .empty)) .empty, [['p']]⟩

set_option maxRecDepth 100000 in
theorem linked_stageable : Stageable sampleScope linkedDisk samplePath := by
  refine ⟨⟨sampleText, by decide +kernel⟩, ⟨⟨samplePath, ['a'], [['T']], true⟩, by decide +kernel⟩,
    ?_⟩
  have hmodules : ∀ r ∈ commentRefs (sourceOf sampleScope linkedDisk samplePath),
      moduleOf sampleScope linkedDisk samplePath r.2.specifier = .ok ['b'] := by
    decide +kernel
  exact fun r hr => ⟨_, hmodules r hr⟩

set_option maxRecDepth 100000 in
/-- The type that the link names is one of the file's own module as well, and nothing is put into
the link. -/
theorem sample_links_survive : ∃ r output gaps,
    ((run (.still linkedDisk) sampleSettings (some ["a.js".toList])).run ()).answer = .ok r ∧
      r.sources.get? samplePath = some sampleText ∧
      (commentRefs sampleText).map (fun r => r.2.substitute? ['b']) =
        [some "module:b~T".toList] ∧
      r.outputs.get? samplePath = some output ∧
      output = Text.weave gaps ["module:b~T".toList] := by
  have hscope : Scope.ofSettings linkedDisk.cwdPath sampleSettings = .ok sampleScope := rfl
  have hpath : ["a.js".toList].map sampleScope.normalize = [samplePath] := by decide +kernel
  obtain ⟨r, hrun⟩ : ∃ r, ((run (.still linkedDisk) sampleSettings (some ["a.js".toList])).run
      ()).answer = .ok r := by
    refine ⟨_, (run_eq_ok_iff linkedDisk sampleSettings _ _).mpr ⟨sampleScope, hscope, ?_, rfl⟩⟩
    rw [hpath]
    simpa using linked_stageable
  have hrefs : commentRefs sampleText = [(6, importOfB)] := by decide +kernel
  have hlink : importOfB.substitute? ['b'] = some "module:b~T".toList := by decide +kernel
  have hresolve : ((Session.resolve sampleScope (.still linkedDisk) samplePath "./b".toList).run
      (endSession sampleScope linkedDisk [samplePath])).answer = .ok ['b'] := by
    decide +kernel
  obtain ⟨source, output, own, -, -, gaps, ts, hsource, houtput, -, -, -, -, hweave, -, hts⟩ :=
    links_survive hscope hrun (List.mem_singleton_self _)
  have hsame : sampleScope.normalize "a.js".toList = samplePath := List.head_eq_of_cons_eq hpath
  rw [hsame] at hsource houtput hts
  rw [hpath] at hts
  obtain rfl : source = sampleText := by
    obtain ⟨-, rfl⟩ := ready_of_run hscope hrun
    rw [hpath, get?_sources_reportOf (List.mem_singleton_self _)] at hsource
    rw [← Option.some.inj hsource]
    decide +kernel
  rw [hrefs] at hts
  cases hts with
  | cons hfirst hnil =>
      cases hnil
      obtain ⟨id, hid, hsurvives⟩ := hfirst
      obtain rfl : id = ['b'] := Except.ok.inj (hid.symm.trans hresolve)
      have hnamed : ∀ c ∈ ['b'], isNameChar c = true := List.forall_mem_singleton.mpr rfl
      have hspread : ¬['.', '.', '.'] <:+: ['b'] := by decide +kernel
      have hstays := hsurvives.named (by simp) hnamed hspread
      obtain rfl := Option.some.inj (hstays.symm.trans hlink)
      exact ⟨r, output, gaps, hrun, hsource, by rw [hrefs, List.map_singleton, hlink], houtput,
        hweave⟩

set_option maxRecDepth 100000 in
/-- Staging replaces the reference by its symbol alone, and the output does not have the symbol
there but its qualification. -/
theorem sample_symbol_qualified :
    ((run (.still sampleDisk) sampleSettings (some ["a.js".toList])).run ()).answer =
        .ok sampleResult ∧
      (6, ⟨25, 40, none, "./b".toList, some ['T'], "import('./b').T".toList⟩) ∈
        commentRefs sampleText ∧
      ((Session.takeIn sampleScope (.still sampleDisk) samplePath sampleText).run .fresh).answer =
        .ok (sampleText.take 31 ++ ['T'] ++ sampleText.drop 46) ∧
      ∃ output, sampleResult.outputs.get? samplePath = some output ∧
        output = sampleText.take 31 ++ "module:a~T".toList ++ sampleText.drop 46 ∧
        ¬['T'] <+: output.drop 31 := by
  refine ⟨sample_run, ?_, ?_, _, rfl, ?_, ?_⟩ <;> decide +kernel

end Batch

end DocRefs
