import Mathlib
import DocRefs.Proofs.Words

/-!
# Rewriting the comments of a text

Both passes exchange the doc comments of a text and keep the gaps. An exchange of whole comments for
whole comments can be followed by another one: the second meets exactly the comments that the first
has put there. Linked and qualified comments are whole as long as no module id holds a `*`.
-/

namespace DocRefs

open DocComment (IsWhole Inert)

/-- The text with every doc comment exchanged for its image. -/
def mapComments (f : Text → Text) (t : Text) : Text :=
  Text.weave (Piece.gaps 0 t ((DocComment.scan t).map DocComment.piece))
    ((DocComment.scan t).map fun c => f c.text)

section Exchange

variable {f g : Text → Text} {t : Text}

/-- The search in an exchanged text finds the images between the old gaps. -/
theorem splits_mapComments (hf : ∀ c ∈ DocComment.scan t, IsWhole (f c.text)) :
    DocComment.Splits (mapComments f t)
      (Piece.gaps 0 t ((DocComment.scan t).map DocComment.piece))
      ((DocComment.scan t).map fun c => f c.text) := by
  apply DocComment.splits_weave
  · intro d hd
    obtain ⟨c, hc, rfl⟩ := List.mem_map.mp hd
    exact hf c hc
  · rw [List.length_map, DocComment.scan]

theorem scan_mapComments (hf : ∀ c ∈ DocComment.scan t, IsWhole (f c.text)) :
    (DocComment.scan (mapComments f t)).map DocComment.text =
      (DocComment.scan t).map fun c => f c.text :=
  (splits_mapComments hf 0).1

theorem gaps_mapComments (hf : ∀ c ∈ DocComment.scan t, IsWhole (f c.text)) :
    Piece.gaps 0 (mapComments f t)
        ((DocComment.scan (mapComments f t)).map DocComment.piece) =
      Piece.gaps 0 t ((DocComment.scan t).map DocComment.piece) :=
  (splits_mapComments hf 0).2

/-- Two exchanges in a row are one. -/
theorem mapComments_mapComments (hf : ∀ c ∈ DocComment.scan t, IsWhole (f c.text)) :
    mapComments g (mapComments f t) = mapComments (fun d => g (f d)) t := by
  have himages : (DocComment.scan (mapComments f t)).map (fun c => g c.text) =
      (DocComment.scan t).map fun c => g (f c.text) := by
    have hscan := congrArg (List.map g) (scan_mapComments hf)
    rwa [List.map_map, List.map_map] at hscan
  rw [mapComments, gaps_mapComments hf, himages, mapComments]

end Exchange

theorem isWhole_of_mem_scan {t : Text} {c : DocComment} (hc : c ∈ DocComment.scan t) :
    IsWhole c.text :=
  DocComment.isWhole_of_mem_scanFrom hc

/-- The search in a whole comment finds the comment. -/
theorem scan_of_isWhole {d : Text} (hd : IsWhole d) :
    DocComment.scan d = [⟨0, d.length, d⟩] := by
  have hscan := DocComment.scanFrom_append_of_isWhole hd 0 []
  rw [List.append_nil] at hscan
  rw [DocComment.scan, hscan, DocComment.scanFrom]
  simp

theorem mapComments_of_isWhole {d : Text} (hd : IsWhole d) (f : Text → Text) :
    mapComments f d = f d := by
  simp [mapComments, scan_of_isWhole hd, DocComment.piece, Piece.gaps, Text.weave]

theorem IsDotted.inert {name : Text} (h : IsDotted name) : Inert name := by
  obtain ⟨c, cs, rfl, hc, -⟩ := h.exists_cons
  refine ⟨by simp, ?_, h.notMem rfl (by decide)⟩
  simpa using ne_of_isIdentifierChar hc rfl

theorem inert_moduleReference_none {id : Text} (hid : '*' ∉ id) :
    Inert (moduleReference id none) := by
  refine ⟨by simp [moduleReference, moduleMark], by simp [moduleReference, moduleMark], ?_⟩
  simp [moduleReference, moduleMark, hid]

theorem moduleReference_some {name : Text} (hname : name ≠ []) (id : Text) :
    moduleReference id (some name) = moduleMark ++ id ++ '~' :: name := by
  cases name with
  | nil => exact absurd rfl hname
  | cons c cs => rfl

theorem inert_moduleReference {id name : Text} (hid : '*' ∉ id) (hname : IsDotted name) :
    Inert (moduleReference id (some name)) := by
  have hstar := hname.inert.star_notMem
  rw [moduleReference_some hname.1]
  refine ⟨by simp [moduleMark], by simp [moduleMark], ?_⟩
  simp [moduleMark, hid, hstar]

/-! ## Pieces of comments -/

/-- What a search finds in the doc comments of a text, with the offset of the comment. -/
def inComments {κ : Type} (inner : Text → List κ) (t : Text) : List (Nat × κ) :=
  (DocComment.scan t).flatMap fun c => (inner c.text).map fun x => (c.start, x)

section Nested

variable {κ : Type} {inner : Text → List κ} {piece : κ → Piece}

theorem tile_shift_inner (hinner : ∀ d, Piece.Tile 0 d ((inner d).map piece)) (c : DocComment) :
    Piece.Tile c.piece.start c.piece.text
      (((inner c.text).map fun x => (c.start, x)).map fun r => (piece r.2).shift r.1) := by
  have htile := (hinner c.text).shift c.start
  rw [List.map_map] at htile ⊢
  exact htile

theorem tile_inComments (hinner : ∀ d, Piece.Tile 0 d ((inner d).map piece)) (t : Text) :
    Piece.Tile 0 t ((inComments inner t).map fun r => (piece r.2).shift r.1) := by
  rw [inComments, List.map_flatMap]
  exact (DocComment.tile_scanFrom 0 t).flatMap fun c _ => tile_shift_inner hinner c

/-- Weaving new texts into the comments of a text at once, or comment by comment. -/
theorem weave_inComments (hinner : ∀ d, Piece.Tile 0 d ((inner d).map piece)) (new : κ → Text)
    (t : Text) :
    Text.weave (Piece.gaps 0 t ((inComments inner t).map fun r => (piece r.2).shift r.1))
        ((inComments inner t).map fun r => new r.2) =
      mapComments
        (fun d => Text.weave (Piece.gaps 0 d ((inner d).map piece)) ((inner d).map new)) t := by
  have hweave := Piece.weave_flatMap (fun r : Nat × κ => new r.2) (DocComment.tile_scanFrom 0 t)
    fun c _ => tile_shift_inner hinner c
  refine hweave.trans ?_
  rw [mapComments, DocComment.scan]
  congr 2
  funext c
  rw [List.map_map, List.map_map]
  have hgaps := Piece.gaps_shift c.start 0 c.text ((inner c.text).map piece)
  rw [List.map_map] at hgaps
  exact congrArg (Text.weave · ((inner c.text).map new)) hgaps

end Nested

/-! ## Linked comments -/

/-- A comment with its references exchanged for what `new` gives; the others stay. -/
def linkedComment (new : ImportRef → Option Text) (comment : Text) : Text :=
  Text.weave (Piece.gaps 0 comment ((ImportRef.scan comment).map ImportRef.piece))
    ((ImportRef.scan comment).map fun ref => (new ref).getD ref.text)

theorem ImportRef.tile_scan (t : Text) :
    Piece.Tile 0 t ((ImportRef.scan t).map ImportRef.piece) :=
  ImportRef.tile_scanFrom none 0 t (by simp)

theorem ImportRef.shaped_of_mem_scan {t : Text} {ref : ImportRef} (href : ref ∈ ImportRef.scan t) :
    ref.Shaped :=
  (ImportRef.found_of_mem_scanFrom href).shaped

/-- No reference begins in the opening of a doc comment. -/
theorem ImportRef.scan_opening (t : Text) :
    ImportRef.scan ('/' :: '*' :: '*' :: t) = ImportRef.scanFrom (some '*') 3 t := by
  have hstep : ∀ (before : Option Char) (offset : Nat) (c : Char) (cs : Text), c ≠ 'i' →
      ImportRef.scanFrom before offset (c :: cs) =
        ImportRef.scanFrom (some c) (offset + 1) cs := by
    intro before offset c cs hc
    rw [ImportRef.scanFrom]
    split
    · rfl
    next hsome => simp [Text.after?, ImportRef.opening, Ne.symm hc] at hsome
  rw [ImportRef.scan, hstep _ _ _ _ (by decide), hstep _ _ _ _ (by decide),
    hstep _ _ _ _ (by decide)]

theorem ImportRef.tile_scan_opening (t : Text) :
    Piece.Tile 3 t ((ImportRef.scan ('/' :: '*' :: '*' :: t)).map ImportRef.piece) := by
  rw [ImportRef.scan_opening]
  simpa [Option.filter, ImportRef.isMarker] using
    ImportRef.tile_scanFrom (some '*') 3 t (by simp)

theorem isWhole_linkedComment {new : ImportRef → Option Text} {d : Text} (hd : IsWhole d)
    (hnew : ∀ ref ∈ ImportRef.scan d, ∀ s, new ref = some s → Inert s) :
    IsWhole (linkedComment new d) := by
  have hwhole := hd
  obtain ⟨t, rfl, -⟩ := hd
  refine DocComment.isWhole_weave (ImportRef.tile_scan_opening t) ?_ ?_ hwhole
  · intro ref href
    exact (ImportRef.shaped_of_mem_scan href).inert
  · intro ref href
    cases hs : new ref with
    | none => exact (ImportRef.shaped_of_mem_scan href).inert
    | some s => exact hnew ref href s hs

theorem shaped_of_mem_commentRefs {t : Text} {r : Nat × ImportRef} (hr : r ∈ commentRefs t) :
    r.2.Shaped := by
  obtain ⟨c, -, hr⟩ := List.mem_flatMap.mp hr
  obtain ⟨ref, href, rfl⟩ := List.mem_map.mp hr
  exact ImportRef.shaped_of_mem_scan href

theorem tile_commentRefs (t : Text) :
    Piece.Tile 0 t ((commentRefs t).map fun r => r.2.piece.shift r.1) :=
  tile_inComments ImportRef.tile_scan t

/-- Splicing new texts for the references in the comments of a text links comment by comment. -/
theorem splice_commentRefs (new : ImportRef → Option Text) (t : Text) :
    Replacement.splice t ((commentRefs t).filterMap fun r =>
        (new r.2).map (Replacement.mk (r.1 + r.2.start) (r.1 + r.2.stop))) =
      mapComments (linkedComment new) t := by
  have hsplice := Replacement.splice_tile (tile_commentRefs t)
    (fun r hr => (shaped_of_mem_commentRefs hr).inert.ne_nil) fun r => new r.2
  exact hsplice.trans
    (weave_inComments ImportRef.tile_scan (fun ref => (new ref).getD ref.text) t)

/-- What an import reference becomes is inert when the module id holds no `*`. -/
theorem ImportRef.Shaped.inert_substitute {ref : ImportRef} (h : ref.Shaped) {id s : Text}
    (hid : '*' ∉ id) (hs : ref.substitute? id = some s) : Inert s := by
  have hmarker : ∀ {u : Text}, Inert u → Inert (ref.marker.toList ++ u) := by
    intro u hu
    have hmark := h.marker
    cases hm : ref.marker with
    | none => exact hu
    | some m =>
        rw [hm, Option.all_some] at hmark
        simp only [ImportRef.isMarker, Bool.or_eq_true, decide_eq_true_eq] at hmark
        have hstar := hu.star_notMem
        rcases hmark with rfl | rfl
        · exact ⟨by simp, by simp, by simp [hstar]⟩
        · exact ⟨by simp, by simp, by simp [hstar]⟩
  unfold ImportRef.substitute? at hs
  split at hs
  · obtain ⟨name, hname, rfl⟩ := Option.map_eq_some_iff.mp hs
    exact hmarker (h.symbol name hname).inert
  · obtain rfl := Option.some.inj hs
    apply hmarker
    cases hname : ref.symbol with
    | none => exact inert_moduleReference_none hid
    | some name => exact inert_moduleReference hid (h.symbol name hname)

/-! ## Qualified comments -/

theorem tile_slotWords_opening (t : Text) :
    Piece.Tile 3 t ((slotWords 0 ('/' :: '*' :: '*' :: t)).map TypeWord.piece) := by
  have hstep : ∀ (offset : Nat) (c : Char) (cs : Text), c ≠ '{' →
      TypeSlot.scanFrom offset (c :: cs) = TypeSlot.scanFrom (offset + 1) cs := by
    intro offset c cs hc
    rw [TypeSlot.scanFrom, if_neg hc]
  rw [slotWords, hstep _ _ _ (by decide), hstep _ _ _ (by decide), hstep _ _ _ (by decide)]
  exact tile_slotWords 3 t

theorem isWhole_qualifiedComment {id : Text} (names : List Text) {d : Text} (hid : '*' ∉ id)
    (hd : IsWhole d) : IsWhole (qualifiedComment id names d) := by
  have hwhole := hd
  obtain ⟨t, rfl, -⟩ := hd
  refine DocComment.isWhole_weave (tile_slotWords_opening t) ?_ ?_ hwhole
  · intro w hw
    exact (isDotted_of_mem_slotWords hw).inert
  · intro w hw
    have hname := isDotted_of_mem_slotWords hw
    unfold qualifiedWord?
    split
    · exact inert_moduleReference hid hname
    · exact hname.inert

/-- Splicing the images of those comments that change exchanges all comments. -/
theorem splice_comments (f : Text → Text) (t : Text) :
    Replacement.splice t ((DocComment.scan t).filterMap fun c =>
        if f c.text = c.text then none else some ⟨c.start, c.stop, f c.text⟩) =
      mapComments f t := by
  have hsplice := Replacement.splice_tile (DocComment.tile_scanFrom 0 t)
    (fun c hc => by
      obtain ⟨u, hu, -⟩ := isWhole_of_mem_scan hc
      simp [DocComment.piece, hu])
    fun c => if f c.text = c.text then none else some (f c.text)
  have hreplacement : ∀ c : DocComment,
      (if f c.text = c.text then none else some (f c.text)).map
          (Replacement.mk c.piece.start c.piece.stop) =
        if f c.text = c.text then none else some ⟨c.start, c.stop, f c.text⟩ := by
    intro c
    split <;> rfl
  have himage : ∀ c : DocComment,
      (if f c.text = c.text then none else some (f c.text)).getD c.piece.text = f c.text := by
    intro c
    split
    next heq => exact heq.symm
    next => rfl
  simp only [hreplacement, himage] at hsplice
  exact hsplice

end DocRefs
