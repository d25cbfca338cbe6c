import Mathlib
import DocRefs.Proofs.Insertion
import DocRefs.Proofs.Stability

/-!
# What linking replaces

The references in the comments of a text stand apart, each between the delimiters of its comment.
Linking resolves their specifiers one after the other, puts the link of each in its place, keeps
every other character, and counts the references that it has replaced.
-/

namespace DocRefs

open DocComment (IsWhole Inert)

/-! ## The link of a reference -/

namespace ImportRef

/-- The text that takes the place of a reference whose specifier has resolved to `id`. -/
def linked (ref : ImportRef) (id : Text) : Text :=
  if id = [] then ref.symbol.elim ref.text (ref.marker.toList ++ ·)
  else ref.marker.toList ++ (moduleMark ++ id ++ ref.symbol.elim [] ('~' :: ·))

/-- Whether a reference is replaced when its specifier has resolved to `id`. -/
def isReplaced (ref : ImportRef) (id : Text) : Bool := id ≠ [] || ref.symbol.isSome

variable {ref : ImportRef}

theorem isSome_substitute? (id : Text) : (ref.substitute? id).isSome = ref.isReplaced id := by
  unfold substitute? isReplaced
  by_cases hid : id = []
  · simp [hid]
  · simp [hid]

theorem Shaped.getD_substitute? (h : ref.Shaped) (id : Text) :
    (ref.substitute? id).getD ref.text = ref.linked id := by
  unfold substitute? linked
  by_cases hid : id = []
  · cases hsymbol : ref.symbol with
    | none => simp [hid]
    | some name => simp [hid]
  · cases hsymbol : ref.symbol with
    | none => simp [hid, moduleReference]
    | some name => simp [hid, moduleReference_some (h.symbol name hsymbol).1]

end ImportRef

/-! ## Where references stand -/

/-- Whether a span lies between the delimiters of a comment. -/
def Piece.IsInside (p : Piece) (c : DocComment) : Prop :=
  c.start + 3 ≤ p.start ∧ p.stop + 2 ≤ c.stop

theorem DocComment.IsWhole.eq_append {d : Text} (h : IsWhole d) :
    ∃ body, d = '/' :: '*' :: '*' :: body ++ close := by
  obtain ⟨t, rfl, -, body, hbody⟩ := h
  exact ⟨body, by simpa using Text.eq_of_cut? hbody⟩

/-- An inert text in a comment ends in front of the last two characters: it cannot end with the
slash, as it holds no star, and not with the star either. -/
theorem DocComment.Inert.two_le {d front text rest : Text} (htext : Inert text) (hd : IsWhole d)
    (hsplit : d = front ++ (text ++ rest)) : 2 ≤ rest.length := by
  obtain ⟨body, hbody⟩ := hd.eq_append
  have hstar : ∀ {u v : Text}, front ++ u = v ++ ['*'] → '*' ∉ u → u = [] := by
    intro u v huv hu
    by_contra hne
    have hlast := congrArg List.getLast? huv
    rw [List.getLast?_append_of_ne_nil _ hne, List.getLast?_concat] at hlast
    exact hu (List.mem_of_getLast? hlast)
  rw [hbody, ← List.append_assoc] at hsplit
  rcases List.append_eq_append_iff.mp hsplit with ⟨more, hmore, hclose⟩ | ⟨more, -, rfl⟩
  · cases more with
    | nil => simp [← show close = rest from hclose, close]
    | cons c more =>
        cases more with
        | nil =>
            obtain rfl : '*' = c := (List.cons.inj hclose).1
            exact absurd (hstar hmore htext.star_notMem) htext.ne_nil
        | cons c' more =>
            obtain ⟨rfl, rfl, hnil⟩ : '*' = c ∧ '/' = c' ∧ [] = more ++ rest := by
              simpa [close] using hclose
            obtain ⟨rfl, rfl⟩ := List.append_eq_nil_iff.mp hnil.symm
            obtain ⟨init, last, rfl⟩ := (List.eq_nil_or_concat' text).resolve_left htext.ne_nil
            have hends : front ++ init ++ [last] = '/' :: '*' :: '*' :: body ++ ['*'] ++ ['/'] := by
              simpa using hmore
            obtain ⟨hinit, hlast⟩ := List.append_inj' hends rfl
            obtain rfl := hstar hinit fun h => htext.star_notMem (List.mem_append_left _ h)
            exact absurd (by simpa using hlast) htext.head_ne
  · simp [close]

/-- A reference of a comment stands between its delimiters. -/
theorem ImportRef.isInside {d : Text} (hd : IsWhole d) {ref : ImportRef} (href : ref ∈ scan d) :
    3 ≤ ref.start ∧ ref.stop + 2 ≤ d.length := by
  have hwhole := hd
  obtain ⟨t, ht, -⟩ := hd
  rw [ht] at href
  have hstart := ((tile_scan_opening t).le_start (List.mem_map_of_mem href)).1
  rw [← ht] at href
  obtain ⟨front, rest, hsplit, hfront, hstop⟩ :=
    (tile_scan d).exists_of_mem (List.mem_map_of_mem href)
  have hrest := (shaped_of_mem_scan href).inert.two_le hwhole hsplit
  refine ⟨hstart, ?_⟩
  rw [hsplit, List.length_append, List.length_append]
  simp only [piece] at hfront hstop ⊢
  omega

/-- A reference in the comments of a text, as a piece of the text. -/
def refPiece (r : Nat × ImportRef) : Piece := r.2.piece.shift r.1

theorem exists_comment_of_mem_commentRefs {t : Text} {r : Nat × ImportRef}
    (hr : r ∈ commentRefs t) : ∃ c ∈ DocComment.scan t, (refPiece r).IsInside c := by
  obtain ⟨c, hc, hr⟩ := List.mem_flatMap.mp hr
  obtain ⟨ref, href, rfl⟩ := List.mem_map.mp hr
  obtain ⟨hstart, hstop⟩ := ImportRef.isInside (isWhole_of_mem_scan hc) href
  obtain ⟨hspan, -⟩ := (DocComment.tile_scanFrom 0 t).span_of_mem (List.mem_map_of_mem hc)
  refine ⟨c, hc, ?_, ?_⟩
  · simp only [refPiece, Piece.shift, ImportRef.piece]
    omega
  · simp only [refPiece, Piece.shift, ImportRef.piece, DocComment.piece] at hspan ⊢
    omega

/-- Two comments of a text are the same one or stand apart. -/
theorem DocComment.eq_or_apart {t : Text} {c c' : DocComment} (hc : c ∈ scan t)
    (hc' : c' ∈ scan t) : c = c' ∨ c.stop ≤ c'.start ∨ c'.stop ≤ c.start := by
  have hpairs := pairwise_scan t
  obtain ⟨i, hi, rfl⟩ := List.mem_iff_getElem.mp hc
  obtain ⟨j, hj, rfl⟩ := List.mem_iff_getElem.mp hc'
  rcases Nat.lt_trichotomy i j with hlt | rfl | hlt
  · exact .inr (.inl (List.pairwise_iff_getElem.mp hpairs i j hi hj hlt))
  · exact .inl rfl
  · exact .inr (.inr (List.pairwise_iff_getElem.mp hpairs j i hj hi hlt))

/-- The span of a reference lies in the text, inside of one comment and off all others. -/
theorem refPiece_places {t : Text} {r : Nat × ImportRef} (hr : r ∈ commentRefs t) :
    (refPiece r).start < (refPiece r).stop ∧ (refPiece r).stop ≤ t.length ∧
      t.slice (refPiece r).start (refPiece r).stop = r.2.text ∧
      (∃ c ∈ DocComment.scan t, (refPiece r).IsInside c) ∧
      ∀ c ∈ DocComment.scan t, (refPiece r).stop ≤ c.start ∨ (refPiece r).IsInside c ∨
        c.stop ≤ (refPiece r).start := by
  obtain ⟨hstop, hle, hslice⟩ :=
    (tile_commentRefs t).span_of_mem (List.mem_map_of_mem (f := refPiece) hr)
  have hpos := List.length_pos_iff.mpr (shaped_of_mem_commentRefs hr).inert.ne_nil
  obtain ⟨c, hc, hinside⟩ := exists_comment_of_mem_commentRefs hr
  refine ⟨?_, hle, hslice, ⟨c, hc, hinside⟩, fun c' hc' => ?_⟩
  · rw [hstop]
    exact Nat.lt_add_of_pos_right hpos
  · obtain ⟨hstart, hend⟩ := hinside
    rcases DocComment.eq_or_apart hc hc' with rfl | h | h
    · exact .inr (.inl ⟨hstart, hend⟩)
    · exact .inl (by omega)
    · exact .inr (.inr (by omega))

/-! ## Linking a text -/

namespace Session

variable {scope : Scope} {view : View} {filename : Path} {t : Text} {log : Log} {s : Session}

/-- The replacements can be made when all specifiers have been resolved. -/
theorem collect_substitutions (scope : Scope) (view : View) (filename : Path)
    (refs : List (Nat × ImportRef)) (log : Log) (s : Session) :
    Op.collect (fun r => substitution? scope view filename r.1 r.2) refs log s =
      (Op.collect (fun r : Nat × ImportRef => resolve scope view filename r.2.specifier) refs >>=
        fun ids => pure (List.zipWith (fun r id => (r.2.substitute? id).map
          (Replacement.mk (refPiece r).start (refPiece r).stop)) refs ids)) log s :=
  Op.collect_bind_pure _ refs log s

/-- Linking that returns has resolved every specifier. -/
theorem exists_resolved {u : Text} (h : (linkImports scope view filename t log s).answer = .ok u) :
    ∃ ids, (Op.collect (fun r : Nat × ImportRef => resolve scope view filename r.2.specifier)
      (commentRefs t) log s).answer = .ok ids := by
  cases hids : (Op.collect (fun r : Nat × ImportRef => resolve scope view filename r.2.specifier)
      (commentRefs t) log s).answer with
  | ok ids => exact ⟨ids, rfl⟩
  | error e =>
      have hcollect := collect_substitutions scope view filename (commentRefs t) log s
      rw [Op.bind_of_error hids] at hcollect
      rw [linkImports, Op.bind_of_error (by rw [hcollect])] at h
      simp at h

/-- Linking splices the links of the ids to which the specifiers have resolved. -/
theorem linkImports_of_resolved {ids : List Text}
    (hids : (Op.collect (fun r : Nat × ImportRef => resolve scope view filename r.2.specifier)
      (commentRefs t) log s).answer = .ok ids) :
    let resolved := (Op.collect (fun r : Nat × ImportRef =>
      resolve scope view filename r.2.specifier) (commentRefs t) log s).state
    let replacements := ((commentRefs t).zip ids).filterMap fun p =>
      (p.1.2.substitute? p.2).map (Replacement.mk (refPiece p.1).start (refPiece p.1).stop)
    (linkImports scope view filename t log s).answer = .ok (Replacement.splice t replacements) ∧
      (linkImports scope view filename t log s).state =
        { resolved with
          linkedReferences := resolved.linkedReferences + replacements.length } := by
  intro resolved replacements
  have hcollect := collect_substitutions scope view filename (commentRefs t) log s
  rw [Op.bind_of_ok hids] at hcollect
  have hreplacements : (List.zipWith (fun (r : Nat × ImportRef) id => (r.2.substitute? id).map
      (Replacement.mk (refPiece r).start (refPiece r).stop)) (commentRefs t) ids).filterMap id =
        replacements := by
    rw [← List.map_uncurry_zip_eq_zipWith, List.filterMap_map]
    rfl
  rw [linkImports, Op.bind_of_ok (congrArg Outcome.answer hcollect), hreplacements]
  cases hnil : replacements.isEmpty with
  | true =>
      rw [List.isEmpty_iff.mp hnil, Replacement.splice_nil]
      exact ⟨rfl, congrArg Outcome.state hcollect⟩
  | false => exact ⟨rfl, by rw [hcollect]; rfl⟩

/-- Linking replaces the references and nothing else, whatever the session and the disk are. The
spans of the references are in the text, in order and apart, and each lies between the delimiters of
a comment and off those of all others. Around the spans nothing changes, and in the place of each
stands the link of the id to which its specifier has resolved. The session is left as resolving
leaves it, but for the number of references replaced. -/
theorem linkImports_replaces {u : Text}
    (h : (linkImports scope view filename t log s).answer = .ok u) :
    let refs := commentRefs t
    let gaps := Piece.gaps 0 t (refs.map refPiece)
    let resolved := Op.collect
      (fun r : Nat × ImportRef => resolve scope view filename r.2.specifier) refs log s
    (refs.map refPiece).Pairwise (fun p q => p.stop ≤ q.start) ∧
      (∀ r ∈ refs, (refPiece r).start < (refPiece r).stop ∧ (refPiece r).stop ≤ t.length ∧
        t.slice (refPiece r).start (refPiece r).stop = r.2.text ∧
        (∃ c ∈ DocComment.scan t, (refPiece r).IsInside c) ∧
        ∀ c ∈ DocComment.scan t, (refPiece r).stop ≤ c.start ∨ (refPiece r).IsInside c ∨
          c.stop ≤ (refPiece r).start) ∧
      ∃ ids, resolved.answer = .ok ids ∧ ids.length = refs.length ∧
        t = Text.weave gaps (refs.map fun r => r.2.text) ∧
        u = Text.weave gaps ((refs.zip ids).map fun p => p.1.2.linked p.2) ∧
        (linkImports scope view filename t log s).state = { resolved.state with
          linkedReferences := s.linkedReferences +
            (refs.zip ids).countP fun p => p.1.2.isReplaced p.2 } := by
  intro refs gaps resolved
  have htile : Piece.Tile 0 t (refs.map refPiece) := tile_commentRefs t
  refine ⟨htile.pairwise, fun r hr => refPiece_places hr, ?_⟩
  obtain ⟨ids, hids⟩ := exists_resolved h
  have hlength : ids.length = refs.length := Op.length_of_collect hids
  obtain ⟨hanswer, hstate⟩ := linkImports_of_resolved hids
  refine ⟨ids, hids, hlength, ?_, ?_, hstate.trans ?_⟩
  · have hweave := Piece.weave_gaps htile
    rw [List.map_map] at hweave
    exact hweave.symm
  · have hfst : (refs.zip ids).map (refPiece ∘ Prod.fst) = refs.map refPiece := by
      rw [← List.map_map, List.map_fst_zip hlength.ge]
    have hzip : Piece.Tile 0 t ((refs.zip ids).map (refPiece ∘ Prod.fst)) := by rwa [hfst]
    have hsplice := Replacement.splice_tile hzip
      (fun p hp => (shaped_of_mem_commentRefs (List.of_mem_zip hp).1).inert.ne_nil)
      fun p => p.1.2.substitute? p.2
    rw [hfst] at hsplice
    rw [Except.ok.inj (h.symm.trans hanswer)]
    refine hsplice.trans (congrArg (Text.weave gaps) ?_)
    exact List.map_congr_left fun p hp =>
      (shaped_of_mem_commentRefs (List.of_mem_zip hp).1).getD_substitute? p.2
  · have hcount : resolved.state.linkedReferences = s.linkedReferences := by
      refine (Op.state_collect_iff (fun s' => s'.linkedReferences = s.linkedReferences)
        (fun _ _ _ => False) (fun r log' s' => ?_) refs log s).mpr (.inl rfl)
      rw [or_false, meets_resolve_counts filename r.2.specifier log']
    rw [List.length_filterMap_eq_countP]
    simp only [Option.isSome_map, ImportRef.isSome_substitute?]
    rw [← hcount]

/-- A reference to a package, one degraded to its symbol, and one left as it is. A fourth stands
outside of all comments. -/
def mixedText : Text :=
  "/** !import('k').A|import('./x').B|import('./y') */ import('z')".toList

set_option maxRecDepth 100000 in
theorem mixedText_replaced :
    (linkImports Batch.sampleScope emptied Batch.samplePath mixedText [] .fresh).answer =
        .ok "/** !module:k~A|B|import('./y') */ import('z')".toList ∧
      (linkImports Batch.sampleScope emptied Batch.samplePath mixedText []
        .fresh).state.linkedReferences = 2 := by
  have hids : (Op.collect (fun r : Nat × ImportRef =>
      resolve Batch.sampleScope emptied Batch.samplePath r.2.specifier) (commentRefs mixedText) []
        fresh).answer = .ok [['k'], [], []] := by
    decide +kernel
  obtain ⟨hanswer, -⟩ := linkImports_of_resolved hids
  obtain ⟨-, -, ids, hids', -, -, htext, hstate⟩ := linkImports_replaces hanswer
  obtain rfl : ids = [['k'], [], []] := Except.ok.inj (hids'.symm.trans hids)
  rw [hanswer, hstate, htext]
  decide +kernel

end Session

end DocRefs
