import Mathlib
import DocRefs.Proofs.Decomposition
import DocRefs.Proofs.InPlace
import DocRefs.Proofs.Writing

/-!
# Line endings of files rewritten in place

Reading a source folds its line endings and writing does not unfold them. Folding changes no
character that opens or closes a comment, so the search cuts a folded text as it cuts the text
itself. A file that is rewritten in place therefore keeps what stands between its comments exactly
when no carriage return stands there.
-/

namespace DocRefs

/-! ## Folding, piece by piece -/

section Folding

variable {t u : Text} {c : Char}

theorem foldNewlines_cons (h : c ≠ '\r') (t : Text) :
    foldNewlines (c :: t) = c :: foldNewlines t := by
  rw [foldNewlines]
  · rintro u rfl
    exact absurd rfl h
  · rintro rfl
    exact absurd rfl h

theorem foldNewlines_cr (h : t.head? ≠ some '\n') :
    foldNewlines ('\r' :: t) = '\n' :: foldNewlines t := by
  rw [foldNewlines]
  rintro u rfl
  simp at h

/-- A character of a folded text that is no line feed was there before. -/
theorem exists_of_foldNewlines_eq_cons (h : foldNewlines t = c :: u) (hc : c ≠ '\n') :
    ∃ t', t = c :: t' ∧ u = foldNewlines t' := by
  cases t with
  | nil => simp [foldNewlines] at h
  | cons a t =>
      by_cases ha : a = '\r'
      · subst ha
        have hhead : c = '\n' := by
          unfold foldNewlines at h
          split at h
          · simp at h
          · exact (List.cons.inj h).1.symm
          · exact (List.cons.inj h).1.symm
          next hcr heq => exact absurd (List.cons.inj heq).1.symm hcr
        exact absurd hhead hc
      · rw [foldNewlines_cons ha] at h
        obtain ⟨rfl, rfl⟩ := List.cons.inj h
        exact ⟨t, rfl, rfl⟩

theorem head?_foldNewlines (hc : c ≠ '\n') (hcr : c ≠ '\r') :
    (foldNewlines t).head? = some c ↔ t.head? = some c := by
  constructor
  · intro h
    obtain ⟨u, hu⟩ := List.head?_eq_some_iff.mp h
    obtain ⟨t', rfl, -⟩ := exists_of_foldNewlines_eq_cons hu hc
    rfl
  · intro h
    obtain ⟨t', rfl⟩ := List.head?_eq_some_iff.mp h
    rw [foldNewlines_cons hcr]
    rfl

/-- Folding goes through a seam unless it cuts a line ending of two characters. -/
theorem foldNewlines_append (h : t.getLast? = some '\r' → u.head? ≠ some '\n') :
    foldNewlines (t ++ u) = foldNewlines t ++ foldNewlines u := by
  fun_induction foldNewlines t with
  | case1 => rfl
  | case2 t ih =>
      have hlast : t.getLast? = some '\r' → u.head? ≠ some '\n' := by
        intro hlast
        apply h
        simp [List.getLast?_cons, hlast]
      rw [List.cons_append, List.cons_append, foldNewlines, ih hlast, List.cons_append]
  | case3 t hnext ih =>
      cases t with
      | nil =>
          rw [List.cons_append, List.nil_append, foldNewlines_cr (h rfl)]
          rfl
      | cons a t =>
          have ha : a ≠ '\n' := by
            rintro rfl
            exact hnext t rfl
          rw [List.cons_append, foldNewlines_cr (by simpa using ha), ih (by simpa using h),
            List.cons_append]
  | case4 a t hnext hcr ih =>
      have ha : a ≠ '\r' := fun ha => hcr ha
      cases t with
      | nil => simp [foldNewlines, foldNewlines_cons ha]
      | cons b t =>
          rw [List.cons_append, foldNewlines_cons ha, ih (by simpa using h), List.cons_append]

end Folding

namespace DocComment

variable {t : Text}

/-- A text is closed where its folding is. -/
theorem cut?_foldNewlines (t : Text) :
    Text.cut? close (foldNewlines t) =
      (Text.cut? close t).map fun p => (foldNewlines p.1, foldNewlines p.2) := by
  fun_induction foldNewlines t with
  | case1 => rfl
  | case2 t ih =>
      rw [cut?_close_cons, if_neg (by simp), cut?_close_cons, if_neg (by simp), cut?_close_cons,
        if_neg (by simp), ih]
      cases Text.cut? close t <;> simp [foldNewlines]
  | case3 t hnext ih =>
      rw [cut?_close_cons, if_neg (by simp), cut?_close_cons, if_neg (by simp), ih]
      cases hcut : Text.cut? close t with
      | none => rfl
      | some p =>
          -- What stands in front of the closing begins like the whole.
          have hhead : p.1.head? ≠ some '\n' := by
            intro hhead
            obtain ⟨body, hbody⟩ := List.head?_eq_some_iff.mp hhead
            have heq := Text.eq_of_cut? hcut
            rw [hbody] at heq
            exact hnext _ heq
          simp [foldNewlines_cr hhead]
  | case4 c t hnext hcr ih =>
      have hc : c ≠ '\r' := fun hc => hcr hc
      have hslash : (foldNewlines t).head? = some '/' ↔ t.head? = some '/' :=
        head?_foldNewlines (by decide) (by decide)
      rw [cut?_close_cons, cut?_close_cons]
      by_cases hclose : c = '*' ∧ t.head? = some '/'
      · rw [if_pos ⟨hclose.1, hslash.mpr hclose.2⟩, if_pos hclose]
        obtain ⟨rest, rfl⟩ := List.head?_eq_some_iff.mp hclose.2
        rw [foldNewlines_cons (by decide)]
        rfl
      · rw [if_neg (fun h => hclose ⟨h.1, hslash.mp h.2⟩), if_neg hclose, ih]
        cases Text.cut? close t <;> simp [foldNewlines_cons hc]

theorem isWhole_foldNewlines {d : Text} (h : IsWhole d) : IsWhole (foldNewlines d) := by
  obtain ⟨t, rfl, hhead, body, hbody⟩ := h
  refine ⟨foldNewlines t, ?_, ?_, foldNewlines body, ?_⟩
  · rw [foldNewlines_cons (by decide), foldNewlines_cons (by decide), foldNewlines_cons (by decide)]
  · rwa [Ne, head?_foldNewlines (by decide) (by decide)]
  · rw [cut?_foldNewlines, hbody]
    rfl

theorem take_two_of_foldNewlines (h : (foldNewlines t).take 2 = ['*', '*']) :
    t.take 2 = ['*', '*'] := by
  have hfold : foldNewlines t = '*' :: '*' :: (foldNewlines t).drop 2 := by
    nth_rewrite 1 [← List.take_append_drop 2 (foldNewlines t), h]
    rfl
  obtain ⟨t', rfl, hrest⟩ := exists_of_foldNewlines_eq_cons hfold (by decide)
  obtain ⟨t'', rfl, -⟩ := exists_of_foldNewlines_eq_cons hrest.symm (by decide)
  rfl

/-- The first gap begins like the text. -/
theorem head?_gaps_head {offset : Nat} {ps : List Piece} (htile : Piece.Tile offset t ps)
    {gap : Text} {gaps : List Text} (h : Piece.gaps offset t ps = gap :: gaps) {c : Char}
    (hc : gap.head? = some c) : t.head? = some c := by
  cases ps with
  | nil =>
      obtain ⟨rfl, -⟩ := List.cons.inj h
      exact hc
  | cons p ps =>
      obtain ⟨front, rest, rfl, hstart, hstop, -⟩ := htile
      rw [Piece.gaps_cons ps hstart hstop] at h
      obtain ⟨rfl, -⟩ := List.cons.inj h
      obtain ⟨front, rfl⟩ := List.head?_eq_some_iff.mp hc
      rfl

theorem map_foldNewlines_modifyHead {front : Text} {gaps : List Text}
    (h : ∀ gap ∈ gaps.head?, front.getLast? = some '\r' → gap.head? ≠ some '\n') :
    (gaps.modifyHead (front ++ ·)).map foldNewlines =
      (gaps.map foldNewlines).modifyHead (foldNewlines front ++ ·) := by
  cases gaps with
  | nil => rfl
  | cons gap gaps =>
      rw [List.modifyHead_cons, List.map_cons, List.map_cons, List.modifyHead_cons,
        foldNewlines_append (h gap rfl)]

/-- Folding a text that begins with a character of a gap. -/
theorem Splits.fold_char {gaps ds : List Text} {c : Char} (hc : c ≠ '\r')
    (hopen : ¬(c = '/' ∧ t.take 2 = ['*', '*']))
    (h : Splits (foldNewlines t) (gaps.map foldNewlines) ds) :
    Splits (foldNewlines (c :: t)) ((gaps.modifyHead ([c] ++ ·)).map foldNewlines) ds := by
  rw [foldNewlines_cons hc, map_foldNewlines_modifyHead (by simp [hc]), foldNewlines_cons hc]
  exact h.char fun hboth => hopen ⟨hboth.1, take_two_of_foldNewlines hboth.2⟩

/-- Folding a text that begins with a carriage return. -/
theorem Splits.fold_cr {offset : Nat} {ds : List Text}
    (h : Splits (foldNewlines t)
      ((Piece.gaps offset t ((scanFrom offset t).map piece)).map foldNewlines) ds) :
    Splits (foldNewlines ('\r' :: t))
      (((Piece.gaps offset t ((scanFrom offset t).map piece)).modifyHead
        (['\r'] ++ ·)).map foldNewlines) ds := by
  by_cases hnext : t.head? = some '\n'
  · -- The line feed begins the first gap, where it makes one line ending with what comes before.
    obtain ⟨t, rfl⟩ := List.head?_eq_some_iff.mp hnext
    rw [scanFrom_cons (by simp)] at h ⊢
    have hgaps : Piece.gaps offset ('\n' :: t) ((scanFrom (offset + 1) t).map piece) = _ :=
      Piece.gaps_skip ['\n'] (tile_scanFrom (offset + 1) t)
    obtain ⟨gap, gaps, hcons⟩ := List.exists_cons_of_ne_nil
      (Piece.gaps_ne_nil (offset + 1) t ((scanFrom (offset + 1) t).map piece))
    rw [hgaps, List.length_singleton, hcons] at h ⊢
    have hfold : ∀ u, foldNewlines ('\r' :: '\n' :: u) = foldNewlines ('\n' :: u) := by
      intro u
      rw [foldNewlines, foldNewlines_cons (by decide)]
    rw [hfold]
    simpa [hfold] using h
  · rw [foldNewlines_cr hnext, map_foldNewlines_modifyHead]
    · exact h.char (by simp)
    · intro gap hgap _ hhead
      obtain ⟨gaps, hgaps⟩ := List.head?_eq_some_iff.mp hgap
      exact hnext (head?_gaps_head (tile_scanFrom offset t) hgaps hhead)

/-- The search cuts a folded text into the folded gaps and the folded comments. -/
theorem splits_foldNewlines (offset : Nat) (t : Text) :
    Splits (foldNewlines t)
      ((Piece.gaps offset t ((scanFrom offset t).map piece)).map foldNewlines)
      ((scanFrom offset t).map fun c => foldNewlines c.text) := by
  fun_induction scanFrom offset t with
  | case1 offset => exact Splits.nil
  | case2 offset rest ih =>
      have hgaps : Piece.gaps offset ('/' :: '*' :: '*' :: '/' :: rest)
          ((scanFrom (offset + 4) rest).map piece) = _ :=
        Piece.gaps_skip ['/', '*', '*', '/'] (tile_scanFrom _ rest)
      rw [hgaps, map_foldNewlines_modifyHead (by simp)]
      exact ih.block
  | case3 offset rest hslash hcut =>
      refine Splits.unclosed (fun u hu => ?_) ?_
      · obtain ⟨rest', rfl, -⟩ := exists_of_foldNewlines_eq_cons hu (by decide)
        exact hslash rest' rfl
      · rw [cut?_foldNewlines, hcut]
        rfl
  | case4 offset rest hslash body after hcut _ text ih =>
      have hrest : '/' :: '*' :: '*' :: rest = text ++ after := by
        simp [text, Text.eq_of_cut? hcut]
      have hgaps : Piece.gaps offset (text ++ after) (piece ⟨offset, offset + text.length, text⟩ ::
          (scanFrom (offset + text.length) after).map piece) = _ :=
        Piece.gaps_cons_self offset text after _
      -- A comment ends with a slash, so no line ending goes on behind it.
      have hlast : text.getLast? = some '/' := by
        rw [show text = ('/' :: '*' :: '*' :: (body ++ ['*'])) ++ ['/'] by simp [text, close]]
        exact List.getLast?_concat
      rw [hrest, List.map_cons, hgaps, foldNewlines_append (by simp [hlast])]
      exact ih.comment (isWhole_foldNewlines (isWhole_of_cut? hslash hcut))
  | case5 offset c rest _ hopen ih =>
      have hgaps : Piece.gaps offset (c :: rest) ((scanFrom (offset + 1) rest).map piece) = _ :=
        Piece.gaps_skip [c] (tile_scanFrom _ rest)
      rw [hgaps]
      by_cases hc : c = '\r'
      · subst hc
        exact ih.fold_cr
      · refine ih.fold_char hc ?_
        rintro ⟨rfl, htake⟩
        apply hopen (rest.drop 2) rfl
        rw [← List.take_append_drop 2 rest, htake]
        rfl

/-- What stands before, between and behind the doc comments of a text. -/
def outside (t : Text) : List Text := Piece.gaps 0 t ((scan t).map piece)

/-- Folding a text folds what stands outside its comments. -/
theorem outside_foldNewlines (t : Text) : outside (foldNewlines t) = (outside t).map foldNewlines :=
  (splits_foldNewlines 0 t 0).2

end DocComment

theorem map_foldNewlines_eq_self_iff {ts : List Text} :
    ts.map foldNewlines = ts ↔ ∀ t ∈ ts, '\r' ∉ t := by
  constructor
  · intro h t ht
    rw [← h] at ht
    obtain ⟨u, -, rfl⟩ := List.mem_map.mp ht
    exact cr_notMem_foldNewlines u
  · intro h
    have hid : ts.map foldNewlines = ts.map id :=
      List.map_congr_left fun t ht => foldNewlines_of_notMem (h t ht)
    rw [hid, List.map_id]

namespace Batch

open DocComment (outside)

variable {scope : Scope} {disk : Disk} {settings : Settings} {paths : List Path} {p : Path}

/-- A listed file keeps what stands outside its comments, in its text as read. -/
theorem Ready.outside_output (h : Ready scope disk paths)
    (hstar : ∀ m ∈ (endSession scope disk paths).modules, '*' ∉ m.1) (hp : p ∈ paths) :
    outside (outputOf scope disk (endSession scope disk paths).index p) =
      outside (sourceOf scope disk p) := by
  have hlinked := fun c (hc : c ∈ DocComment.scan (sourceOf scope disk p)) =>
    h.isWhole_linkedComment hstar hp hc
  have hid : '*' ∉ (identityAt scope disk p).moduleId := by
    obtain ⟨info, hinfo⟩ := (h.stageable p hp).2.1
    rw [identityAt, hinfo]
    exact h.keeps.star_notMem hstar ⟨p, hp, .inl rfl⟩ hinfo
  rw [outputOf, linkedText, mapComments_mapComments hlinked]
  exact gaps_mapComments fun c hc => isWhole_qualifiedIn hid (hlinked c hc)

/-- The jobs of writing a result in place. -/
theorem writeJobs_none (settings : Settings) (r : BatchResult) :
    writeJobs settings r none = (Text.sort r.changed).map fun p =>
      ((Route.ofPath p).toPath, (r.outputs.get? p).getD []) := by
  rw [writeJobs, targets, mergeSort_targets, List.map_map]
  rfl

/-- A text that is read is what the content of the file stands for, folded. -/
theorem exists_decode_of_readText {encoding : Value} {t : Text} {content : Bytes}
    (hp : Path.IsNormal p) (h : disk.readText encoding p = .ok t)
    (hread : disk.read p = .ok content) :
    ∃ enc u, Encoding.ofValue encoding = .ok enc ∧ enc.decode content = some u ∧
      t = foldNewlines u := by
  unfold Disk.readText at h
  rw [hp.toPath_ofPath, hread] at h
  split at h
  · simp at h
  · cases hvalue : Encoding.ofValue encoding with
    | error e => simp [hvalue, Bind.bind, Except.bind] at h
    | ok enc =>
        simp only [hvalue, Bind.bind, Except.bind] at h
        split at h
        · simp [throw, throwThe, MonadExceptOf.throw] at h
        next u hu => exact ⟨enc, u, rfl, hu, (Except.ok.inj h).symm⟩

/-- A file is written in place when a path that changed leads to it: it then stands for the output
of such a path. Otherwise it is as before. -/
theorem Ready.written_in_place (h : Ready scope disk paths) {encoding : Value} {d : Disk}
    {changed : List Path} {text : Path → Text} (hchanged : ∀ q ∈ changed, q ∈ paths)
    (hstored : Stored disk encoding ((Text.sort changed).map fun q =>
      ((Route.ofPath q).toPath, text q)) d)
    {place : List Text} {old : Bytes} (hplace : disk.locate p = .ok place)
    (hold : disk.root.find? place = some (.file old)) :
    ((¬∃ q ∈ changed, disk.locate q = disk.locate p) ∧ d.read p = .ok old) ∨
      ∃ q ∈ changed, disk.locate q = disk.locate p ∧ ∃ content,
        d.read p = .ok content ∧ written? encoding (text q) = some content := by
  have hcontent := hstored.content place
  rw [Dir.content?_eq_some_iff.mpr hold] at hcontent
  have hread : ∀ content, d.read p = .ok content ↔ d.root.content? place = some content :=
    fun content => Disk.read_eq_ok_iff (hstored.grew.locate_eq hplace)
  have hlocate : ∀ q ∈ changed, d.locate (Route.ofPath q).toPath = .ok place ↔
      disk.locate q = disk.locate p := by
    intro q hq
    obtain ⟨place', -, hplace', -⟩ := h.exists_place (hchanged q hq)
    rw [(h.normal q (hchanged q hq)).toPath_ofPath, hstored.grew.locate_eq hplace', hplace', hplace]
  cases hlast : lastAt d encoding ((Text.sort changed).map fun q =>
      ((Route.ofPath q).toPath, text q)) place with
  | none =>
      refine .inl ⟨?_, (hread old).mpr (by rw [hcontent, hlast]; rfl)⟩
      rintro ⟨q, hq, hsame⟩
      have hjob : ((Route.ofPath q).toPath, text q) ∈ (Text.sort changed).map fun q =>
          ((Route.ofPath q).toPath, text q) := List.mem_map_of_mem (List.mem_mergeSort.mpr hq)
      exact lastAt_ne_none hstored.placed hjob ((hlocate q hq).mpr hsame) hlast
  | some content =>
      obtain ⟨job, hjob, hjobplace, hwritten⟩ := exists_of_lastAt hlast
      obtain ⟨q, hq, rfl⟩ := List.mem_map.mp hjob
      have hq : q ∈ changed := List.mem_mergeSort.mp hq
      exact .inr ⟨q, hq, (hlocate q hq).mp hjobplace, content,
        (hread content).mpr (by rw [hcontent, hlast]; rfl), hwritten⟩

/-- **Line endings.** When a run is written in place and no module id holds a `*`: a listed file to
which no changed path leads is as before; in one that is rewritten, what stands outside the doc
comments has its line endings folded. So it stays the same exactly when the file is not rewritten or
no carriage return stands there. -/
theorem in_place_folds_outside {files? : Option (List Path)} {r : BatchResult}
    {written : List Path} (hrun : ((run (.still disk) settings files?).run ()).answer = .ok r)
    (hwrite : ((write settings r none).run disk).answer = .ok written)
    (hstar : ∀ m ∈ r.modules, '*' ∉ m.1) (hp : p ∈ OrderedMap.keys r.outputs) :
    let d := ((write settings r none).run disk).state
    let rewritten := ∃ q ∈ r.changed, disk.locate q = disk.locate p
    ∃ enc old new t t', Encoding.ofValue settings.encoding = .ok enc ∧
      disk.read p = .ok old ∧ enc.decode old = some t ∧
      d.read p = .ok new ∧ enc.decode new = some t' ∧
      (¬rewritten → new = old) ∧
      (rewritten → outside t' = (outside t).map foldNewlines) ∧
      (outside t' = outside t ↔ ¬rewritten ∨ ∀ gap ∈ outside t, '\r' ∉ gap) := by
  intro d rewritten
  obtain ⟨scope, paths, hscope, hready, rfl⟩ := exists_ready_of_run hrun
  rw [mem_keys_outputs] at hp
  have hencoding := encoding_of_scope hscope
  obtain ⟨place, old, hplace, hold⟩ := hready.exists_place hp
  have hread : disk.read p = .ok old :=
    (Disk.read_eq_ok_iff hplace).mpr (Dir.content?_eq_some_iff.mpr hold)
  obtain ⟨enc, t, henc, ht, hsource⟩ :=
    exists_decode_of_readText (hready.normal p hp) (hready.readText_eq hp) hread
  rw [hencoding] at henc
  let r := reportOf scope disk paths
  have hchanged : ∀ q ∈ r.changed, q ∈ paths := by
    intro q hq
    obtain ⟨_, hget, -⟩ := (BatchResult.mem_changed (OrderedMap.nodup_keys_ofPairs _) q).mp hq
    exact mem_keys_outputs.mp (OrderedMap.mem_keys_of_get? hget)
  have hstored : Stored disk settings.encoding ((Text.sort r.changed).map fun q =>
      ((Route.ofPath q).toPath, (r.outputs.get? q).getD [])) d := by
    rw [← writeJobs_none]
    exact ((meets_write settings r none disk []).1 written hwrite).2
  rcases hready.written_in_place hchanged hstored hplace hold with
    ⟨hnot, hnew⟩ | ⟨q, hq, hsame, new, hnew, hwritten⟩
  · exact ⟨enc, old, old, t, t, henc, hread, ht, hnew, ht, fun _ => rfl,
      fun hrewritten => absurd hrewritten hnot, iff_of_true rfl (.inl hnot)⟩
  · have hlisted := hchanged q hq
    have htext : (r.outputs.get? q).getD [] =
        outputOf scope disk (endSession scope disk paths).index q := by
      simp only [r, reportOf, OrderedMap.get?_ofPairs, if_pos hlisted, Option.getD_some]
    rw [htext] at hwritten
    obtain ⟨enc', henc', hdecode⟩ := exists_decode_of_written? hwritten
    obtain rfl : enc' = enc := Except.ok.inj (henc'.symm.trans henc)
    -- Both paths lead to one file, so they were read as one text.
    have hsources : sourceOf scope disk q = foldNewlines t := by
      obtain ⟨enc, u, hvalue, hu, hfold⟩ := exists_decode_of_readText (hready.normal q hlisted)
        (hready.readText_eq hlisted) ((read_congr hsame).trans hread)
      rw [hencoding] at hvalue
      obtain rfl : enc = enc' := Except.ok.inj (hvalue.symm.trans henc)
      rw [hfold, Option.some.inj (hu.symm.trans ht)]
    have hfold : outside (outputOf scope disk (endSession scope disk paths).index q) =
        (outside t).map foldNewlines := by
      rw [hready.outside_output hstar hlisted, hsources, DocComment.outside_foldNewlines]
    have hrewritten : rewritten := ⟨q, hq, hsame⟩
    refine ⟨enc', old, new, t, _, henc, hread, ht, hnew, hdecode,
      fun hnot => absurd hrewritten hnot, fun _ => hfold, ?_⟩
    rw [hfold, map_foldNewlines_eq_self_iff, or_iff_right (not_not.mpr hrewritten)]

/-! ## A file with two-character line endings -/

def crlfText : Text :=
  "x\r\n/** @module m\n @typedef \x7bobject\x7d T\n @type \x7bT\x7d */\r\ny".toList

def crlfDisk : Disk :=
  ⟨.sub ['p'] (.file "a.js".toList (Encoding.encodeUtf8 crlfText) .empty) .empty, [['p']]⟩

def crlfResult : BatchResult where
  sources := [(samplePath, foldNewlines crlfText)]
  outputs := [(samplePath,
    "x\n/** @module m\n @typedef \x7bobject\x7d T\n @type \x7bmodule:m~T\x7d */\ny".toList)]
  modules := [(['m'], ⟨[samplePath], [['T']]⟩)]
  statistics := ⟨1, 1, 1, 0, 1⟩

set_option maxRecDepth 100000 in
theorem crlf_run :
    ((run (.still crlfDisk) sampleSettings none).run ()).answer = .ok crlfResult := by
  decide +kernel

set_option maxRecDepth 100000 in
theorem crlf_write :
    ((write sampleSettings crlfResult none).run crlfDisk).answer = .ok [samplePath] := by
  decide +kernel

set_option maxRecDepth 100000 in
theorem crlf_in_place :
    ((run (.still crlfDisk) sampleSettings none).run ()).answer = .ok crlfResult ∧
      ((write sampleSettings crlfResult none).run crlfDisk).answer = .ok [samplePath] ∧
      ∃ enc : Encoding, ∃ new t', Encoding.ofValue sampleSettings.encoding = .ok enc ∧
        crlfDisk.read samplePath = .ok (Encoding.encodeUtf8 crlfText) ∧
        enc.decode (Encoding.encodeUtf8 crlfText) = some crlfText ∧
        ((write sampleSettings crlfResult none).run crlfDisk).state.read samplePath = .ok new ∧
        enc.decode new = some t' ∧ outside t' ≠ outside crlfText := by
  obtain ⟨enc, old, new, t, t', henc, hold, ht, hnew, ht', -, -, hiff⟩ :=
    in_place_folds_outside crlf_run crlf_write (by decide) List.mem_cons_self
  have hutf8 : enc = .utf8 := by
    have hvalue : Encoding.ofValue sampleSettings.encoding = .ok .utf8 := by decide +kernel
    exact Except.ok.inj (henc.symm.trans hvalue)
  have hread : crlfDisk.read samplePath = .ok (Encoding.encodeUtf8 crlfText) := by decide +kernel
  have hdecode : enc.decode (Encoding.encodeUtf8 crlfText) = some crlfText := by
    rw [hutf8]
    exact Encoding.decodeUtf8_encodeUtf8 crlfText
  obtain rfl := Except.ok.inj (hread.symm.trans hold)
  obtain rfl := Option.some.inj (hdecode.symm.trans ht)
  refine ⟨crlf_run, crlf_write, enc, new, t', henc, hread, hdecode, hnew, ht', fun hsame => ?_⟩
  rcases hiff.mp hsame with hnot | hreturn
  · exact hnot ⟨samplePath, by decide +kernel, rfl⟩
  · revert hreturn
    decide +kernel

end Batch

end DocRefs
