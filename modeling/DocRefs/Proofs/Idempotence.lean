import Mathlib
import DocRefs.Proofs.Coherence
import DocRefs.Proofs.Decomposition
import DocRefs.Proofs.InPlace
import DocRefs.Proofs.Requalified

/-!
# A second run

A run that is written in place leaves comments whose tags say what they said before, whose
references are those that have no module and no symbol, and none of whose words is to be qualified,
as long as the ids of modules and the places of references are tame. The second run then gives every
file the identity that the first one gave it, resolves every import alike, and changes nothing.
-/

namespace DocRefs

open DocComment (IsWhole)

theorem mapComments_eq_self {f : Text → Text} {t : Text}
    (h : ∀ c ∈ DocComment.scan t, f c.text = c.text) : mapComments f t = t := by
  have himages : (DocComment.scan t).map (fun c => f c.text) =
      ((DocComment.scan t).map DocComment.piece).map Piece.text := by
    rw [List.map_map]
    exact List.map_congr_left h
  rw [mapComments, himages]
  exact Piece.weave_gaps (DocComment.tile_scanFrom 0 t)

/-- Exchanging comments brings in no character that the images do not bring in. -/
theorem notMem_mapComments {x : Char} {f : Text → Text} {t : Text} (ht : x ∉ t)
    (hf : ∀ c ∈ DocComment.scan t, x ∉ c.text → x ∉ f c.text) : x ∉ mapComments f t := by
  refine Piece.notMem_weave_gaps ht fun u hu => ?_
  obtain ⟨c, hc, rfl⟩ := List.mem_map.mp hu
  obtain ⟨front, rest, heq, -⟩ :=
    (DocComment.tile_scanFrom 0 t).exists_of_mem (List.mem_map_of_mem hc)
  exact hf c hc fun hmem => ht (by rw [heq]; simp [DocComment.piece, hmem])

theorem notMem_linkedComment {x : Char} {new : ImportRef → Option Text} {d : Text} (hd : x ∉ d)
    (hnew : ∀ ref ∈ ImportRef.scan d, ∀ t, new ref = some t → x ∉ t) :
    x ∉ linkedComment new d := by
  refine Piece.notMem_weave_gaps hd fun u hu => ?_
  obtain ⟨ref, href, rfl⟩ := List.mem_map.mp hu
  cases hlink : new ref with
  | some t => exact hnew ref href t hlink
  | none =>
      obtain ⟨front, rest, heq, -⟩ :=
        (ImportRef.tile_scan d).exists_of_mem (List.mem_map_of_mem href)
      exact fun hmem => hd (by rw [heq]; simpa [ImportRef.piece] using .inr (.inl hmem))

/-- A link holds no carriage return that the module id does not hold. -/
theorem ImportRef.Shaped.cr_notMem {ref : ImportRef} (h : ref.Shaped) {id t : Text}
    (hid : '\r' ∉ id) (ht : ref.substitute? id = some t) : '\r' ∉ t := by
  have hmarker : '\r' ∉ ref.marker.toList := by
    intro hmem
    have hmark := h.marker
    rw [Option.mem_toList.mp hmem] at hmark
    exact absurd hmark (by decide)
  have hname : ∀ name, ref.symbol = some name → '\r' ∉ name :=
    fun name hname => (h.symbol name hname).notMem rfl (by decide)
  rcases ref.substitute?_cases id with ⟨hnone, -⟩ | ⟨-, name, hsymbol, hsome⟩ | ⟨-, hsome⟩
  · simp [hnone] at ht
  · obtain rfl := Option.some.inj (hsome.symm.trans ht)
    simp [hmarker, hname name hsymbol]
  · obtain rfl := Option.some.inj (hsome.symm.trans ht)
    cases hsymbol : ref.symbol with
    | none => simp [hmarker, moduleReference, moduleMark, hid]
    | some name =>
        rw [moduleReference_some (h.symbol name hsymbol).1]
        simp [hmarker, moduleMark, hid, hname name hsymbol]

/-- Texts whose comments say the same give a file the same identity. -/
theorem FileIdentity.ofText_congr {t t' : Text}
    (hmodule : (DocComment.scan t').map (fun c => moduleTag? c.text) =
      (DocComment.scan t).map fun c => moduleTag? c.text)
    (htypes : (DocComment.scan t').map (fun c => declaredTypes c.text) =
      (DocComment.scan t).map fun c => declaredTypes c.text) (roots : List Path) (p : Path) :
    ofText roots p t' = ofText roots p t := by
  have htag : firstModuleTag? (DocComment.scan t') = firstModuleTag? (DocComment.scan t) := by
    have hsome := congrArg (List.findSome? id) hmodule
    rwa [List.findSome?_map, List.findSome?_map] at hsome
  have hnames : (DocComment.scan t').flatMap (fun c => declaredTypes c.text) =
      (DocComment.scan t).flatMap fun c => declaredTypes c.text := by
    rw [List.flatMap, List.flatMap, htypes]
  unfold ofText
  simp only [htag, hnames]

section Disk

variable (scope : Scope) (disk : Disk)

/-- The module id of an import, empty when it cannot be resolved. -/
def importId (importer : Path) (specifier : Text) : Text :=
  (moduleOf scope disk importer specifier).toOption.getD []

/-- What lets a run be written in place so that a second one changes nothing. -/
structure Rerunnable (r : BatchResult) : Prop where
  /-- Ids of modules can be put into comments. -/
  plain : ∀ m ∈ r.modules, isPlainId m.1 = true
  /-- Ids of modules with a listed file neither quote nor expose the type names of the module. -/
  sheltered : ∀ m ∈ r.modules, (∃ p ∈ m.2.files, p ∈ OrderedMap.keys r.outputs) →
    m.1.any TypeWord.isQuote = false ∧ isSheltered m.2.typeNames [':'] m.1 = true
  /-- References and tags stand in places where linking and qualifying leave the tags alone. -/
  tame : ∀ e ∈ r.sources, ∀ c ∈ DocComment.scan e.2,
    isTameComment (importId scope disk e.1) c.text = true
  /-- No two listed paths lead to one file. -/
  apart : ∀ p ∈ OrderedMap.keys r.outputs, ∀ q ∈ OrderedMap.keys r.outputs,
    disk.locate p = disk.locate q → p = q

end Disk

namespace Batch

variable {scope : Scope} {disk disk' : Disk} {settings : Settings} {paths : List Path}

theorem mem_sources {p : Path} (hp : p ∈ paths) :
    (p, sourceOf scope disk p) ∈ (reportOf scope disk paths).sources :=
  OrderedMap.mem_of_get? (get?_sources_reportOf hp)

theorem path_identityOf {p : Path} {info : FileIdentity}
    (h : identityOf scope disk p = .ok info) : info.path = p := by
  unfold identityOf at h
  split at h
  · exact FileIdentity.path_of_ofText h
  · simp at h

/-- A comment of a listed file after both passes. -/
def finished (scope : Scope) (disk : Disk) (index : TypeIndex) (p : Path) (d : Text) : Text :=
  qualifiedIn index (identityAt scope disk p) (linkedComment (linkOf scope disk p) d)

/-! ## The outputs of the first run -/

section FirstRun

variable (h : Ready scope disk paths) (hrerun : Rerunnable scope disk (reportOf scope disk paths))
  {p : Path} (hp : p ∈ paths)

include h hrerun hp

theorem isPlainId_identityAt : isPlainId (identityAt scope disk p).moduleId = true := by
  obtain ⟨info, hinfo⟩ := (h.stageable p hp).2.1
  rw [identityAt, hinfo]
  exact h.keeps.of_modules (fun id => isPlainId id = true) rfl hrerun.plain ⟨p, hp, .inl rfl⟩ hinfo

/-- The own module of a listed file exposes none of its type names. -/
theorem sheltered_identityAt (hid : (identityAt scope disk p).moduleId ≠ []) :
    (identityAt scope disk p).moduleId.any TypeWord.isQuote = false ∧
      isSheltered (((endSession scope disk paths).index.names?
        (identityAt scope disk p).moduleId).getD []) [':']
        (identityAt scope disk p).moduleId = true := by
  obtain ⟨info, hinfo⟩ := (h.stageable p hp).2.1
  have hcached := cached?_of_keeps h.keeps (h.normal p hp) ⟨p, hp, .inl rfl⟩
  obtain ⟨files, hfile, hmem⟩ := Session.mem_modules hcached hid
  refine hrerun.sheltered _ hmem ⟨p, ?_, mem_keys_outputs.mpr hp⟩
  have hpath : (identityAt scope disk p).path = p := by
    rw [identityAt, hinfo]
    exact path_identityOf hinfo
  rwa [hpath] at hfile

/-- No word of a finished comment is to be qualified. -/
theorem notMem_of_mem_finished (hid : (identityAt scope disk p).moduleId ≠ []) (d : Text) :
    ∀ w ∈ slotWords 0 (finished scope disk (endSession scope disk paths).index p d),
      w.token ∉ ((endSession scope disk paths).index.names?
        (identityAt scope disk p).moduleId).getD [] := by
  obtain ⟨hquotes, hsheltered⟩ := sheltered_identityAt h hrerun hp hid
  have hplain := isPlainId_identityAt h hrerun hp
  unfold finished qualifiedIn
  rw [if_neg (by simpa using hid)]
  exact notMem_of_mem_qualifiedComment hsheltered (by simpa using hquotes)
    (notMem_of_isPlainId hplain (.inr (.inr rfl)))

section Comment

variable {c : DocComment} (hc : c ∈ DocComment.scan (sourceOf scope disk p))

include hc

/-- The ids of imported modules can be put into comments. -/
theorem isPlainId_importId {ref : ImportRef} (href : ref ∈ ImportRef.scan c.text) :
    isPlainId (importId scope disk p ref.specifier) = true := by
  have hmem := mem_commentRefs hc href
  obtain ⟨id, hid⟩ := (h.stageable p hp).2.2 _ hmem
  have himport : importId scope disk p ref.specifier = id := by
    rw [importId, hid]
    rfl
  rcases moduleOf_cases hid with rfl | ⟨q, hq, info, hinfo, rfl⟩
  · -- A package name is made of name characters, and a reference that is linked holds no tag.
    have hshaped := ImportRef.shaped_of_mem_scan href
    have htame := hrerun.tame _ (mem_sources hp) c hc
    simp only [isTameComment, Bool.and_eq_true, List.all_eq_true, Bool.or_eq_true,
      Option.isNone_iff_eq_none, ImportRef.substitute?_eq_none_iff] at htame
    rw [himport]
    rcases htame.2 ref href with ⟨hnil, -⟩ | hplaced
    · rw [← himport, hnil]
      rfl
    · simp only [ImportRef.isPlaced, Bool.and_eq_true] at hplaced
      exact isPlainId_of_isNameChar hshaped.specifier_chars
        (isTagFree_of_isInfix hplaced.1.2 hshaped.specifier_within)
  · rw [himport]
    exact h.keeps.of_modules (fun id => isPlainId id = true) rfl hrerun.plain
      ⟨p, hp, .inr ⟨_, hmem, hq⟩⟩ hinfo

/-- A finished comment says what its source said. -/
theorem settled_finished : Settled (importId scope disk p) c.text
    (finished scope disk (endSession scope disk paths).index p c.text) := by
  have hlinked : Settled (importId scope disk p) c.text
      (linkedComment (linkOf scope disk p) c.text) :=
    settled_linkedComment (fun _ href => isPlainId_importId h hrerun hp hc href)
      (hrerun.tame _ (mem_sources hp) c hc)
  unfold finished qualifiedIn
  split
  · exact hlinked
  · exact hlinked.qualifiedComment (isPlainId_identityAt h hrerun hp) _

theorem isWhole_linked : IsWhole (linkedComment (linkOf scope disk p) c.text) :=
  h.isWhole_linkedComment (fun m hm => notMem_of_isPlainId (hrerun.plain m hm) (.inl rfl)) hp hc

end Comment

theorem output_eq : outputOf scope disk (endSession scope disk paths).index p =
    mapComments (finished scope disk (endSession scope disk paths).index p)
      (sourceOf scope disk p) :=
  mapComments_mapComments fun _ hc => isWhole_linked h hrerun hp hc

/-- The comments of an output are the finished comments of the source. -/
theorem scan_output :
    (DocComment.scan (outputOf scope disk (endSession scope disk paths).index p)).map
        DocComment.text =
      (DocComment.scan (sourceOf scope disk p)).map fun c =>
        finished scope disk (endSession scope disk paths).index p c.text := by
  rw [output_eq h hrerun hp]
  apply scan_mapComments
  intro c hc
  exact isWhole_qualifiedIn (notMem_of_isPlainId (isPlainId_identityAt h hrerun hp) (.inl rfl))
    (isWhole_linked h hrerun hp hc)

theorem exists_of_mem_scan_output {c : DocComment}
    (hc : c ∈ DocComment.scan (outputOf scope disk (endSession scope disk paths).index p)) :
    ∃ c' ∈ DocComment.scan (sourceOf scope disk p),
      c.text = finished scope disk (endSession scope disk paths).index p c'.text := by
  have hmem := List.mem_map_of_mem (f := DocComment.text) hc
  rw [scan_output h hrerun hp] at hmem
  obtain ⟨c', hc', heq⟩ := List.mem_map.mp hmem
  exact ⟨c', hc', heq.symm⟩

/-- The output of a file identifies as its source does. -/
theorem ofText_output (roots : List Path) (q : Path) :
    FileIdentity.ofText roots q (outputOf scope disk (endSession scope disk paths).index p) =
      FileIdentity.ofText roots q (sourceOf scope disk p) := by
  have hscan := scan_output h hrerun hp
  have hsettled := fun c hc => settled_finished h hrerun hp (c := c) hc
  apply FileIdentity.ofText_congr
  · have hmap := congrArg (List.map moduleTag?) hscan
    rw [List.map_map, List.map_map] at hmap
    exact hmap.trans (List.map_congr_left fun c hc => (hsettled c hc).module)
  · have hmap := congrArg (List.map declaredTypes) hscan
    rw [List.map_map, List.map_map] at hmap
    exact hmap.trans (List.map_congr_left fun c hc => (hsettled c hc).types)

theorem cr_notMem_output :
    '\r' ∉ outputOf scope disk (endSession scope disk paths).index p := by
  have hsource := cr_notMem_of_readText (h.readText_eq hp)
  rw [output_eq h hrerun hp]
  refine notMem_mapComments hsource fun c hc hclean => ?_
  have hlinked : '\r' ∉ linkedComment (linkOf scope disk p) c.text := by
    refine notMem_linkedComment hclean fun ref href t ht => ?_
    exact (ImportRef.shaped_of_mem_scan href).cr_notMem
      (notMem_of_isPlainId (isPlainId_importId h hrerun hp hc href) (.inr (.inl rfl))) ht
  have hid := notMem_of_isPlainId (isPlainId_identityAt h hrerun hp) (c := '\r') (.inr (.inl rfl))
  unfold finished qualifiedIn
  split
  · exact hlinked
  · exact notMem_qualifiedComment (by simp [wordMark, moduleMark, hid]) hlinked

end FirstRun

/-! ## The second run -/

/-- A first run over the listed files, and the disk that writing it in place has left. -/
structure WrittenBack (scope : Scope) (disk : Disk) (paths : List Path) (disk' : Disk) : Prop where
  ready : Ready scope disk paths
  rerunnable : Rerunnable scope disk (reportOf scope disk paths)
  rewrote : Rewrote scope disk paths (outputOf scope disk (endSession scope disk paths).index) disk'
  normal : ∀ f, Path.IsNormal (scope.normalize f)

namespace WrittenBack

variable (h : WrittenBack scope disk paths disk') {p : Path}

include h

/-- Every file has the identity that it had. -/
theorem identityOf_eq {q : Path} (hq : Path.IsNormal q) :
    identityOf scope disk' q = identityOf scope disk q := by
  obtain ⟨content, hoverwritten⟩ := h.rewrote.overwritten
  unfold identityOf countedText
  rw [hoverwritten.isFile_eq]
  by_cases hfile : disk.isFile q = true
  · rw [if_pos hfile, if_pos hfile]
    rcases h.rewrote.other q hq with hsame | ⟨p, hp, hold, hnew⟩
    · rw [hsame]
    · -- An imported path may lead to a file that is listed under another path.
      rw [hold, hnew]
      exact ofText_output h.ready h.rerunnable hp scope.roots q
  · rw [if_neg hfile, if_neg hfile]

theorem targetOf_eq (importer : Path) (specifier : Text) :
    targetOf scope disk' importer specifier = targetOf scope disk importer specifier := by
  obtain ⟨content, hoverwritten⟩ := h.rewrote.overwritten
  rw [targetOf, targetOf, hoverwritten.target?_eq]

/-- Every import leads to the module that it led to. -/
theorem moduleOf_eq (importer : Path) (specifier : Text) :
    moduleOf scope disk' importer specifier = moduleOf scope disk importer specifier := by
  unfold moduleOf importedIdentity
  rw [h.targetOf_eq]
  split
  · cases targetOf scope disk importer specifier with
    | error e => rfl
    | ok q => simp only [h.identityOf_eq (h.normal q)]
  · rfl

theorem linkOf_eq (importer : Path) : linkOf scope disk' importer = linkOf scope disk importer := by
  funext ref
  rw [linkOf, linkOf, h.moduleOf_eq]

theorem sourceOf_eq (hp : p ∈ paths) : sourceOf scope disk' p =
    outputOf scope disk (endSession scope disk paths).index p := by
  rw [sourceOf, h.rewrote.listed p hp]
  rfl

/-- Only imports of the source are left. -/
theorem exists_specifier (hp : p ∈ paths) {r : Nat × ImportRef}
    (hr : r ∈ commentRefs (sourceOf scope disk' p)) :
    ∃ r' ∈ commentRefs (sourceOf scope disk p), r'.2.specifier = r.2.specifier := by
  rw [h.sourceOf_eq hp] at hr
  obtain ⟨c, hc, hr⟩ := List.mem_flatMap.mp hr
  obtain ⟨ref, href, rfl⟩ := List.mem_map.mp hr
  obtain ⟨c', hc', htext⟩ := exists_of_mem_scan_output h.ready h.rerunnable hp hc
  rw [htext] at href
  obtain ⟨ref', href', hspecifier, -⟩ :=
    (settled_finished h.ready h.rerunnable hp hc').exists_ref href
  exact ⟨_, mem_commentRefs hc' href', hspecifier⟩

/-- Every listed file can be staged again. -/
theorem ready_again : Ready scope disk' paths where
  normal := h.ready.normal
  stageable := by
    intro p hp
    refine ⟨⟨_, h.rewrote.listed p hp⟩, ?_, fun r hr => ?_⟩
    · rw [h.identityOf_eq (h.ready.normal p hp)]
      exact (h.ready.stageable p hp).2.1
    · obtain ⟨r', hr', hspecifier⟩ := h.exists_specifier hp hr
      rw [h.moduleOf_eq, ← hspecifier]
      exact (h.ready.stageable p hp).2.2 r' hr'

/-- The second run meets no other files. -/
theorem filesMet_subset : filesMet scope disk' paths ⊆ filesMet scope disk paths := by
  rintro q ⟨p, hp, rfl | ⟨r, hr, hrelative, target, htarget, rfl⟩⟩
  · exact ⟨q, hp, .inl rfl⟩
  · obtain ⟨r', hr', hspecifier⟩ := h.exists_specifier hp hr
    rw [h.targetOf_eq] at htarget
    refine ⟨p, hp, .inr ⟨r', hr', ?_, target, ?_, rfl⟩⟩
    · rwa [hspecifier]
    · rwa [hspecifier]

theorem normal_of_mem_filesMet {q : Path} (hq : q ∈ filesMet scope disk paths) :
    Path.IsNormal q := by
  obtain ⟨p, hp, rfl | ⟨r, hr, -, target, -, rfl⟩⟩ := hq
  · exact h.ready.normal q hp
  · exact h.normal target

/-- The second run indexes no other names. -/
theorem names_subset (id : Text) :
    ((endSession scope disk' paths).index.names? id).getD [] ⊆
      ((endSession scope disk paths).index.names? id).getD [] := by
  have hkeeps := h.ready.keeps
  have hkeeps' := h.ready_again.keeps
  intro name hname
  rw [hkeeps'.indexed.getD_names?, Text.mem_sortedSet, mem_declaredIn] at hname
  rw [hkeeps.indexed.getD_names?, Text.mem_sortedSet, mem_declaredIn]
  obtain ⟨info, hinfo, hid, hmem⟩ := hname
  obtain ⟨⟨q, info'⟩, hentry, rfl⟩ := List.mem_map.mp hinfo
  obtain ⟨hknown, hidentity⟩ := hkeeps'.mem_cache_iff.mp hentry
  have hmet := h.filesMet_subset hknown
  rw [h.identityOf_eq (h.normal_of_mem_filesMet hmet)] at hidentity
  exact ⟨info', List.mem_map.mpr ⟨_, hkeeps.mem_cache_iff.mpr ⟨hmet, hidentity⟩, rfl⟩, hid, hmem⟩

/-- Every listed file is left as it is. -/
theorem outputOf_eq (hp : p ∈ paths) :
    outputOf scope disk' (endSession scope disk' paths).index p = sourceOf scope disk' p := by
  have hidentity : identityAt scope disk' p = identityAt scope disk p := by
    rw [identityAt, identityAt, h.identityOf_eq (h.ready.normal p hp)]
  have hcomment : ∀ c ∈ DocComment.scan (sourceOf scope disk' p),
      ∃ c' ∈ DocComment.scan (sourceOf scope disk p),
        c.text = finished scope disk (endSession scope disk paths).index p c'.text := by
    rw [h.sourceOf_eq hp]
    exact fun c hc => exists_of_mem_scan_output h.ready h.rerunnable hp hc
  have hlinked : linkedText scope disk' p (sourceOf scope disk' p) = sourceOf scope disk' p := by
    apply mapComments_eq_self
    intro c hc
    obtain ⟨c', hc', htext⟩ := hcomment c hc
    rw [h.linkOf_eq, htext]
    exact (settled_finished h.ready h.rerunnable hp hc').linkedComment_eq
  rw [outputOf, hlinked, hidentity]
  apply mapComments_eq_self
  intro c hc
  obtain ⟨c', hc', htext⟩ := hcomment c hc
  unfold qualifiedIn
  split
  · rfl
  next hid =>
    -- The second index may hold fewer names: imports that were linked are gone.
    apply qualifiedComment_eq_self
    rw [htext]
    intro w hw hmem
    exact notMem_of_mem_finished h.ready h.rerunnable hp (by simpa using hid) _ w hw
      (h.names_subset _ hmem)

end WrittenBack

def packageText : Text :=
  "/** @module a\n @typedef \x7bimport('k').T\x7d S\n @type \x7bS|import('./c')\x7d */".toList

def packageDisk : Disk :=
  ⟨.sub ['p'] (.file "a.js".toList (Encoding.encodeUtf8 packageText) .empty) .empty, [['p']]⟩

def packageResult : BatchResult where
  sources := [(samplePath, packageText)]
  outputs := [(samplePath, "/** @module a\n @typedef \x7bmodule:k~T\x7d S\n".toList
    ++ " @type \x7bmodule:a~S|import('./c')\x7d */".toList)]
  modules := [(['a'], ⟨[samplePath], [['S']]⟩)]
  statistics := ⟨2, 2, 1, 1, 1⟩

set_option maxRecDepth 100000 in
theorem package_run :
    ((run (.still packageDisk) sampleSettings none).run ()).answer = .ok packageResult := by
  decide +kernel

set_option maxRecDepth 100000 in
theorem package_write :
    ((write sampleSettings packageResult none).run packageDisk).answer = .ok [samplePath] := by
  decide +kernel

set_option maxRecDepth 100000 in
theorem package_rerunnable : Rerunnable sampleScope packageDisk packageResult where
  plain := by decide +kernel
  sheltered := by decide +kernel
  tame := by decide +kernel
  apart := by decide +kernel

def cutText : Text :=
  "/** @module m\n @typedef \x7bobject\x7d import('./b').T\n @type \x7bT\x7d */".toList

def cutDisk : Disk :=
  ⟨.sub ['p'] (.file "a.js".toList (Encoding.encodeUtf8 cutText) .empty) .empty, [['p']]⟩

def cutResult : BatchResult where
  sources := [(samplePath, cutText)]
  outputs := [(samplePath, "/** @module m\n @typedef \x7bobject\x7d T\n @type \x7bT\x7d */".toList)]
  modules := [(['m'], ⟨[samplePath], ["import".toList]⟩)]
  statistics := ⟨2, 2, 1, 1, 0⟩

def cutAgain : BatchResult where
  sources := cutResult.outputs
  outputs := [(samplePath,
    "/** @module m\n @typedef \x7bobject\x7d T\n @type \x7bmodule:m~T\x7d */".toList)]
  modules := [(['m'], ⟨[samplePath], [['T']]⟩)]
  statistics := ⟨1, 1, 1, 0, 1⟩

end Batch

end DocRefs
