import Mathlib
import DocRefs.Proofs.Runs

/-!
# How a run takes a text apart

The second phase of a run searches the text that the first one has left for doc comments. It finds
exactly what the first phase has made of the comments of the source, so an output is the source with
every comment linked and then qualified by itself, and with the same gaps.
-/

namespace DocRefs

open DocComment (IsWhole Inert)

variable {scope : Scope} {disk : Disk} {l : Ledger} {s : Session}

/-- A session lists the module of every file that it has met, with the file and the names that are
indexed for the module. -/
theorem Session.mem_modules {p : Path} {info : FileIdentity} (h : s.cache.get? p = some info)
    (hid : info.moduleId ≠ []) : ∃ files, info.path ∈ files ∧
      (info.moduleId, ⟨files, (s.index.names? info.moduleId).getD []⟩) ∈ s.modules := by
  have hinfo : info ∈ s.cache.map (·.2) := List.mem_map.mpr ⟨_, OrderedMap.mem_of_get? h, rfl⟩
  refine ⟨_, ?_, List.mem_map.mpr ⟨info.moduleId, ?_, rfl⟩⟩
  · rw [Text.sort, List.mem_mergeSort]
    exact List.mem_map.mpr ⟨info, List.mem_filter.mpr ⟨hinfo, by simp⟩, rfl⟩
  · rw [Text.mem_sortedSet, List.mem_filter]
    exact ⟨List.mem_map_of_mem hinfo, by simpa using hid⟩

/-- What holds of all modules listed holds of the ids of files met, if it holds of no id. -/
theorem Keeps.of_modules (h : Keeps scope disk l s) (good : Text → Prop) (hnil : good [])
    (hgood : ∀ m ∈ s.modules, good m.1) {p : Path} (hp : p ∈ l.known) {info : FileIdentity}
    (hinfo : identityOf scope disk p = .ok info) : good info.moduleId := by
  obtain ⟨info', hget⟩ := OrderedMap.exists_get?_of_mem_keys ((h.known p).mpr hp)
  have heq : info' = info := Except.ok.inj ((h.cached p info' hget).symm.trans hinfo)
  subst heq
  by_cases hid : info'.moduleId = []
  · rwa [hid]
  · obtain ⟨files, -, hmem⟩ := Session.mem_modules hget hid
    exact hgood _ hmem

/-- Ids of files met hold no `*` when none of the modules listed does. -/
theorem Keeps.star_notMem (h : Keeps scope disk l s) (hstar : ∀ m ∈ s.modules, '*' ∉ m.1)
    {p : Path} (hp : p ∈ l.known) {info : FileIdentity}
    (hinfo : identityOf scope disk p = .ok info) : '*' ∉ info.moduleId :=
  h.of_modules (fun id => '*' ∉ id) List.not_mem_nil hstar hp hinfo

/-- The module of an import is that of a file it makes known, or the specifier itself. -/
theorem moduleOf_cases {importer : Path} {specifier id : Text}
    (h : moduleOf scope disk importer specifier = .ok id) :
    id = specifier ∨ ∃ p ∈ importedFiles scope disk importer specifier, ∃ info,
      identityOf scope disk p = .ok info ∧ id = info.moduleId := by
  unfold moduleOf at h
  split at h
  next hrelative =>
    unfold importedIdentity at h
    cases htarget : targetOf scope disk importer specifier with
    | error e => simp [htarget, Except.map] at h
    | ok q =>
        simp only [htarget] at h
        cases hinfo : identityOf scope disk (scope.normalize q) with
        | error e => simp [hinfo, Except.map] at h
        | ok info =>
            rw [hinfo] at h
            exact .inr ⟨_, ⟨hrelative, q, htarget, rfl⟩, info, hinfo, (Except.ok.inj h).symm⟩
  next => exact .inl (Except.ok.inj h).symm

theorem mem_commentRefs {t : Text} {c : DocComment} {ref : ImportRef} (hc : c ∈ DocComment.scan t)
    (href : ref ∈ ImportRef.scan c.text) : (c.start, ref) ∈ commentRefs t :=
  List.mem_flatMap.mpr ⟨c, hc, List.mem_map.mpr ⟨ref, href, rfl⟩⟩

theorem commentRefs_of_isWhole {d : Text} (hd : IsWhole d) :
    commentRefs d = (ImportRef.scan d).map fun ref => (0, ref) := by
  simp [commentRefs, scan_of_isWhole hd]

/-- What a resolved reference becomes is inert, when no id of a file met holds a `*`. -/
theorem Keeps.inert_linkOf (h : Keeps scope disk l s) (hstar : ∀ m ∈ s.modules, '*' ∉ m.1)
    {importer : Path} {ref : ImportRef} (hshaped : ref.Shaped)
    (hfiles : importedFiles scope disk importer ref.specifier ⊆ l.known)
    (hmodule : ∃ id, moduleOf scope disk importer ref.specifier = .ok id) {t : Text}
    (ht : linkOf scope disk importer ref = some t) : Inert t := by
  obtain ⟨id, hid⟩ := hmodule
  rw [linkOf, hid] at ht
  refine hshaped.inert_substitute ?_ ht
  rcases moduleOf_cases hid with rfl | ⟨p, hp, info, hinfo, rfl⟩
  · intro hmem
    exact ImportRef.isNameChar_ne (hshaped.specifier_chars _ hmem) rfl rfl
  · exact h.star_notMem hstar (hfiles hp) hinfo

theorem isWhole_qualifiedIn {index : TypeIndex} {info : FileIdentity} (hid : '*' ∉ info.moduleId)
    {d : Text} (hd : IsWhole d) : IsWhole (qualifiedIn index info d) := by
  unfold qualifiedIn
  split
  · exact hd
  · exact isWhole_qualifiedComment _ hid hd

/-- Linking keeps the comments of a listed file whole. -/
theorem Batch.Ready.isWhole_linkedComment {paths : List Path} (h : Batch.Ready scope disk paths)
    (hstar : ∀ m ∈ (Batch.endSession scope disk paths).modules, '*' ∉ m.1) {p : Path}
    (hp : p ∈ paths) {c : DocComment} (hc : c ∈ DocComment.scan (sourceOf scope disk p)) :
    IsWhole (linkedComment (linkOf scope disk p) c.text) := by
  apply DocRefs.isWhole_linkedComment (isWhole_of_mem_scan hc)
  intro ref href t ht
  have hmem := mem_commentRefs hc href
  refine h.keeps.inert_linkOf hstar (ImportRef.shaped_of_mem_scan href) ?_ ?_ ht
  · intro q hq
    exact ⟨p, hp, .inr ⟨(c.start, ref), hmem, hq⟩⟩
  · exact (h.stageable p hp).2.2 _ hmem

/-- Linking a comment of a listed file by itself gives its image in the staged text. -/
theorem Batch.Ready.link_comment {paths : List Path} (h : Batch.Ready scope disk paths) {p : Path}
    (hp : p ∈ paths) {c : DocComment} (hc : c ∈ DocComment.scan (sourceOf scope disk p)) :
    ((Session.linkImports scope (.still disk) p c.text).run
        (Batch.endSession scope disk paths)).answer =
      .ok (linkedComment (linkOf scope disk p) c.text) := by
  have hwhole := isWhole_of_mem_scan hc
  have hlinkable : Linkable scope disk p c.text := by
    intro r hr
    rw [commentRefs_of_isWhole hwhole] at hr
    obtain ⟨ref, href, rfl⟩ := List.mem_map.mp hr
    exact (h.stageable p hp).2.2 (c.start, ref) (mem_commentRefs hc href)
  rw [h.linkImports hp hlinkable, linkedText, mapComments_of_isWhole hwhole]

/-- For every listed file of a run without a `*` in its module ids, the search finds in the staged
text exactly the linked comments of the source, the output is the source with each comment linked
and then qualified, and the search finds in the output exactly these, between the gaps of the
source. -/
theorem Batch.run_decomposes {settings : Settings} {files : List Path} {r : BatchResult}
    (hscope : Scope.ofSettings disk.cwdPath settings = .ok scope)
    (hrun : ((Batch.run (.still disk) settings (some files)).run ()).answer = .ok r)
    (hstar : ∀ m ∈ r.modules, '*' ∉ m.1) {f : Path} (hf : f ∈ files) :
    let p := scope.normalize f
    let s := Batch.endSession scope disk (files.map scope.normalize)
    ∃ source output staged linked qualified,
      r.sources.get? p = some source ∧ r.outputs.get? p = some output ∧
      ((Op.collect (Batch.stage scope (.still disk)) (files.map scope.normalize)).run
        .fresh).answer = .ok staged ∧
      let gaps := Piece.gaps 0 source ((DocComment.scan source).map DocComment.piece)
      List.Forall₂ (fun c d => ((Session.linkImports scope (.still disk) p c.text).run s).answer =
        .ok d) (DocComment.scan source) linked ∧
      List.Forall₂ (fun c d => ((Session.qualifyComment scope p c).run s).answer = .ok d)
        linked qualified ∧
      ⟨p, source, Text.weave gaps linked⟩ ∈ staged ∧
      (DocComment.scan (Text.weave gaps linked)).map DocComment.text = linked ∧
      output = Text.weave gaps qualified ∧
      (DocComment.scan output).map DocComment.text = qualified ∧
      Piece.gaps 0 output ((DocComment.scan output).map DocComment.piece) = gaps := by
  intro p s
  obtain ⟨hready, rfl⟩ := Batch.ready_of_run hscope hrun
  have hp : p ∈ files.map scope.normalize := List.mem_map_of_mem hf
  have hstageable := hready.stageable p hp
  have hlinked : ∀ c ∈ DocComment.scan (sourceOf scope disk p),
      IsWhole (linkedComment (linkOf scope disk p) c.text) :=
    fun c hc => hready.isWhole_linkedComment hstar hp hc
  have hid : '*' ∉ (Batch.identityAt scope disk p).moduleId := by
    obtain ⟨info, hinfo⟩ := hstageable.2.1
    rw [Batch.identityAt, hinfo]
    exact hready.keeps.star_notMem hstar ⟨p, hp, .inl rfl⟩ hinfo
  have hqualified : ∀ c ∈ DocComment.scan (sourceOf scope disk p),
      IsWhole (qualifiedIn s.index (Batch.identityAt scope disk p)
        (linkedComment (linkOf scope disk p) c.text)) :=
    fun c hc => isWhole_qualifiedIn hid (hlinked c hc)
  -- The linked comments are whole, so searching the staged text again finds them one by one.
  have houtput : Batch.outputOf scope disk s.index p = mapComments (fun d =>
      qualifiedIn s.index (Batch.identityAt scope disk p)
        (linkedComment (linkOf scope disk p) d)) (sourceOf scope disk p) :=
    mapComments_mapComments hlinked
  refine ⟨sourceOf scope disk p, Batch.outputOf scope disk s.index p,
    (files.map scope.normalize).map (stagedOf scope disk),
    (DocComment.scan (sourceOf scope disk p)).map fun c =>
      linkedComment (linkOf scope disk p) c.text,
    (DocComment.scan (sourceOf scope disk p)).map fun c =>
      qualifiedIn s.index (Batch.identityAt scope disk p)
        (linkedComment (linkOf scope disk p) c.text), ?_, ?_, ?_, ?_, ?_, ?_, ?_, ?_, ?_, ?_⟩
  · rw [Batch.reportOf, OrderedMap.get?_ofPairs, if_pos hp]
  · rw [Batch.reportOf, OrderedMap.get?_ofPairs, if_pos hp]
  · exact ((Batch.answers_stages hready.normal []).1 hready.stageable).1
  · rw [List.forall₂_map_right_iff, List.forall₂_same]
    exact fun c hc => hready.link_comment hp hc
  · rw [List.forall₂_map_left_iff, List.forall₂_map_right_iff, List.forall₂_same]
    exact fun c _ => hready.qualifyComment hp _
  · exact List.mem_map_of_mem hp
  · exact scan_mapComments hlinked
  · exact houtput
  · rw [houtput]
    exact scan_mapComments hqualified
  · rw [houtput]
    exact gaps_mapComments hqualified

theorem Batch.sample_decomposes :
    ((Batch.run (.still sampleDisk) sampleSettings (some ["a.js".toList])).run ()).answer =
        .ok sampleResult ∧
      (∀ m ∈ sampleResult.modules, '*' ∉ m.1) ∧
      ∃ source output qualified,
        sampleResult.sources.get? samplePath = some source ∧
        sampleResult.outputs.get? samplePath = some output ∧
        output =
          Text.weave (Piece.gaps 0 source ((DocComment.scan source).map DocComment.piece))
            qualified ∧
        (DocComment.scan output).map DocComment.text = qualified := by
  have hstar : ∀ m ∈ sampleResult.modules, '*' ∉ m.1 := by decide
  obtain ⟨source, output, -, -, qualified, hsource, houtput, -, -, -, -, -, hweave, hscan, -⟩ :=
    Batch.run_decomposes sample_scope sample_run hstar (List.mem_singleton_self _)
  exact ⟨sample_run, hstar, source, output, qualified, hsource, houtput, hweave, hscan⟩

end DocRefs
