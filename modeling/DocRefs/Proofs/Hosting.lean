import Mathlib
import DocRefs.Plugin
import DocRefs.Proofs.OrderIndependence

/-!
# The plugin and the batch run agree

The start of a run stages the listed files as a batch run does, whatever the plugin held before. The
events that follow find every listed file prepared and cached, so they neither look at the disk nor
change what later events see, and in any order they give the texts and the comments of the batch
run.
-/

namespace DocRefs

/-- An event between the start of a run and its end. -/
inductive Plugin.Event
  | beforeParse (filename : Path) (source : Text)
  | commentFound (filename : Path) (comment : Text)

namespace Plugin

/-- Handles an event: the answer is the text that takes the place of the source or comment. -/
def Event.op (scope : Scope) (view : View) : Event → Op Plugin Text
  | beforeParse filename source => Plugin.beforeParse scope view filename source
  | commentFound filename comment => Plugin.commentFound scope filename comment

def Event.filename : Event → Path
  | beforeParse filename _ => filename
  | commentFound filename _ => filename

/-- What comes with the event belongs to a staged file: its source, or a comment of its text. -/
def Event.BelongsTo (f : Batch.Staged) : Event → Prop
  | beforeParse _ source => source = f.source
  | commentFound _ comment => ∃ c ∈ DocComment.scan f.text, comment = c.text

/-- The event is about a staged file, by any spelling of its path. -/
def Event.Fits (scope : Scope) (staged : List Batch.Staged) (event : Event) : Prop :=
  ∃ f ∈ staged, f.path = scope.normalize event.filename ∧ event.BelongsTo f

/-- The answer is the staged text of the file, or what `qualified` makes of the comment. -/
def Event.Agrees (scope : Scope) (staged : List Batch.Staged) (qualified : Path → Text → Text) :
    Event → Text → Prop
  | beforeParse filename _, t => ∃ f ∈ staged, f.path = scope.normalize filename ∧ t = f.text
  | commentFound filename comment, t => t = qualified (scope.normalize filename) comment

variable {scope : Scope} {disk : Disk} {plugin : Plugin} {paths : List Path}

/-! ## The start of a run -/

section Disk

variable (scope : Scope) (disk : Disk)

/-- The files prepared when the listed ones have been staged. -/
def preparedOf (paths : List Path) : OrderedMap Path (Text × Text) :=
  OrderedMap.ofPairs (paths.map fun p =>
    (p, sourceOf scope disk p, linkedText scope disk p (sourceOf scope disk p)))

/-- The plugin holds the listed files, staged, and nothing else. -/
structure Holds (paths : List Path) (plugin : Plugin) : Prop where
  session : Keeps scope disk (Batch.ledgerOf scope disk paths) plugin.session
  prepared : plugin.prepared = preparedOf scope disk paths

end Disk

theorem holds_fresh : Holds scope disk [] .fresh := by
  refine ⟨?_, rfl⟩
  have hempty : filesMet scope disk [] = ∅ := by
    ext q
    simp [filesMet]
  rw [Batch.ledgerOf, hempty]
  exact keeps_fresh scope disk

theorem answers_prepare (h : Holds scope disk paths plugin) {filename : Path}
    (hnormal : Path.IsNormal (scope.normalize filename))
    (hstageable : Stageable scope disk (scope.normalize filename)) :
    (prepare scope (.still disk) filename).Answers plugin True ()
      (Holds scope disk (paths ++ [scope.normalize filename])) := by
  obtain ⟨⟨source, hread⟩, hidentity, hlinkable⟩ := hstageable
  have hsource : sourceOf scope disk (scope.normalize filename) = source := by
    rw [sourceOf, hread]
    rfl
  have hcounted : countedText scope disk (scope.normalize (scope.normalize filename)) =
      .ok source := by
    rw [Scope.normalize, hnormal.normalize_eq scope.cwd]
    exact countedText_of_readText hnormal hread
  have hagain : scope.normalize (scope.normalize filename) = scope.normalize filename :=
    hnormal.normalize_eq scope.cwd
  unfold prepare
  apply Op.meets_see_bind
  rw [if_pos (hnormal.isFile_of_readText hread), hread]
  -- Reading answers at once, so the session takes the file in as staging does.
  have htake := Session.answers_takeIn h.session rfl (scope.normalize filename) hcounted
  rw [hagain] at htake
  rw [hsource] at hlinkable
  have hzoom : (onSession (Session.takeIn scope (.still disk) (scope.normalize filename)
      source)).Answers plugin True (linkedText scope disk (scope.normalize filename) source)
      fun p => Keeps scope disk (Batch.ledgerOf scope disk (paths ++ [scope.normalize filename]))
        p.session ∧ p.prepared = plugin.prepared := by
    refine (htake.congr (iff_true_intro ⟨hidentity, hlinkable⟩)).zoom fun s hs => ?_
    rw [Batch.ledgerOf, filesMet_append, linksMade_append, hsource]
    exact ⟨hs, rfl⟩
  refine hzoom.andThen fun plugin' _ h' => ?_
  intro log
  refine ⟨fun _ => ⟨rfl, h'.1, ?_⟩, fun hnot => absurd trivial hnot⟩
  rw [preparedOf, List.map_append, List.map_singleton, OrderedMap.ofPairs_append, hsource]
  exact congrArg (OrderedMap.put (scope.normalize filename) _) (h'.2.trans h.prepared)

/-- The start of a run leaves the listed files staged, whatever was there before. -/
theorem answers_parseBegin {files : List Path}
    (hready : Batch.Ready scope disk (files.map scope.normalize)) :
    (parseBegin scope (.still disk) files).Answers plugin True ()
      (Holds scope disk (files.map scope.normalize)) := by
  unfold parseBegin
  apply Op.meets_modify_bind
  have hprepare : (Op.forEach (prepare scope (.still disk)) files).Answers fresh True ()
      (Holds scope disk (files.map scope.normalize)) := by
    refine Op.answers_forEach (fun done => Holds scope disk (done.map scope.normalize)) ?_
      holds_fresh
    intro done filename hfile plugin hplugin
    have hmem := List.mem_map_of_mem (f := scope.normalize) hfile
    rw [List.map_append, List.map_singleton]
    exact answers_prepare hplugin (hready.normal _ hmem) (hready.stageable _ hmem)
  refine hprepare.andThen fun plugin' _ h' => ?_
  apply Op.meets_get_bind
  intro log
  exact ⟨fun _ => ⟨rfl, h'⟩, fun hnot => absurd trivial hnot⟩

/-! ## The events of a run -/

/-- The prepared files are those of `first`, and so is the session but for its phase and its number
of words replaced. -/
def Follows (first plugin : Plugin) : Prop :=
  plugin.prepared = first.prepared ∧ ∃ n, Rests first.session n plugin.session

/-- The text that an event about a listed file gives. -/
def Event.answer (scope : Scope) (disk : Disk) (index : TypeIndex) : Event → Text
  | beforeParse filename _ =>
      linkedText scope disk (scope.normalize filename)
        (sourceOf scope disk (scope.normalize filename))
  | commentFound filename comment =>
      qualifiedIn index (Batch.identityAt scope disk (scope.normalize filename)) comment

/-- A staged file is a listed one. -/
theorem mem_of_mem_staged {f : Batch.Staged} (hf : f ∈ paths.map (stagedOf scope disk)) :
    f.path ∈ paths ∧ f = stagedOf scope disk f.path := by
  obtain ⟨p, hp, rfl⟩ := List.mem_map.mp hf
  exact ⟨hp, rfl⟩

theorem Event.Fits.staged {event : Event}
    (hfits : event.Fits scope (paths.map (stagedOf scope disk))) :
    scope.normalize event.filename ∈ paths ∧
      event.BelongsTo (stagedOf scope disk (scope.normalize event.filename)) := by
  obtain ⟨f, hf, hpath, hbelongs⟩ := hfits
  obtain ⟨hp, hstaged⟩ := mem_of_mem_staged hf
  rw [hpath] at hp hstaged
  rw [hstaged] at hbelongs
  exact ⟨hp, hbelongs⟩

/-- An event about a listed file is answered by what the start of the run has prepared, and only
the phase and the counter of words change. -/
theorem Event.answers_op {first : Plugin} (hready : Batch.Ready scope disk paths)
    (hfirst : Holds scope disk paths first) (hplugin : Follows first plugin) {event : Event}
    (hfits : event.Fits scope (paths.map (stagedOf scope disk))) :
    (event.op scope (.still disk)).Answers plugin True
      (event.answer scope disk first.session.index) (Follows first) := by
  obtain ⟨hmem, hbelongs⟩ := hfits.staged
  have hfollows := hplugin
  obtain ⟨hprepared, n, hrests⟩ := hplugin
  cases event with
  | beforeParse filename source =>
      have hsource : sourceOf scope disk (scope.normalize filename) = source := hbelongs.symm
      have hget : plugin.prepared.get? (scope.normalize filename) =
          some (sourceOf scope disk (scope.normalize filename),
            linkedText scope disk (scope.normalize filename)
              (sourceOf scope disk (scope.normalize filename))) := by
        rw [hprepared, hfirst.prepared, preparedOf, OrderedMap.get?_ofPairs]
        exact if_pos hmem
      -- The source is the one that was staged, so what was prepared is the answer.
      apply Op.meets_get_bind
      rw [hget]
      dsimp only
      rw [if_pos hsource]
      exact Op.answers_pure hfollows
  | commentFound filename comment =>
      have hnormal := hready.normal _ hmem
      have hcached := Batch.cached?_of_keeps hfirst.session hnormal ⟨_, hmem, .inl rfl⟩
      have hcached' : plugin.session.cached? scope filename =
          some (Batch.identityAt scope disk (scope.normalize filename)) := by
        rw [Session.cached?, Scope.normalize, hnormal.normalize_eq scope.cwd] at hcached
        rw [hrests]
        exact hcached
      have hqualify := Session.answers_qualifyComment hcached' comment
      have hindex : plugin.session.index = first.session.index := by rw [hrests]
      rw [hindex] at hqualify
      refine hqualify.zoom fun s hs => ⟨hprepared, s.qualifiedIdentifiers, ?_⟩
      rw [hs, Rests, hrests]

theorem Event.answers_run {first : Plugin} (hready : Batch.Ready scope disk paths)
    (hfirst : Holds scope disk paths first) {events : List Event}
    (hfits : ∀ event ∈ events, event.Fits scope (paths.map (stagedOf scope disk))) :
    (Op.collect (Event.op scope (.still disk)) events).Answers first True
      (events.map (Event.answer scope disk first.session.index)) (Follows first) := by
  have hcollect : (Op.collect (Event.op scope (.still disk)) events).Answers first
      (∀ event ∈ events, True) (events.map (Event.answer scope disk first.session.index))
      (Follows first) := by
    refine Op.answers_collect (fun _ => Follows first) ?_ ⟨rfl, _, rfl⟩
    intro done event hevent plugin hplugin
    exact Event.answers_op hready hfirst hplugin (hfits event hevent)
  exact hcollect.congr (iff_of_true (fun _ _ => trivial) trivial)

theorem Event.agrees_answer {index : TypeIndex} {event : Event}
    (hfits : event.Fits scope (paths.map (stagedOf scope disk))) :
    event.Agrees scope (paths.map (stagedOf scope disk))
      (fun p => qualifiedIn index (Batch.identityAt scope disk p))
      (event.answer scope disk index) := by
  cases event with
  | beforeParse filename source => exact ⟨_, List.mem_map_of_mem hfits.staged.1, rfl, rfl⟩
  | commentFound filename comment => rfl

/-- Splicing the images of all comments exchanges them. -/
theorem splice_all_comments (f : Text → Text) (t : Text) :
    Replacement.splice t ((DocComment.scan t).map fun c => ⟨c.start, c.stop, f c.text⟩) =
      mapComments f t := by
  have hsplice := Replacement.splice_tile (DocComment.tile_scanFrom 0 t)
    (fun c hc => by
      obtain ⟨u, hu, -⟩ := isWhole_of_mem_scan hc
      simp [DocComment.piece, hu])
    fun c => some (f c.text)
  simp only [Option.map_some, List.filterMap_eq_map', Option.getD_some] at hsplice
  exact hsplice

/-- Where a run over files succeeds, the plugin agrees with it from any state: the start of the run
succeeds, and afterwards any events about listed files, in any order and number and by any spelling
of the paths, are answered. A file gets the text that the first phase of the run has staged, a
comment of that text gets what the second phase makes of it, and splicing these comments into the
staged text gives the output of the run. -/
theorem events_agree_with_run {settings : Settings} {files : List Path} {r : BatchResult}
    (hscope : Scope.ofSettings disk.cwdPath settings = .ok scope)
    (hrun : ((Batch.run (.still disk) settings (some files)).run ()).answer = .ok r)
    (plugin : Plugin) (log : Log) :
    let paths := files.map scope.normalize
    let begun := parseBegin scope (.still disk) files log plugin
    begun.answer = .ok () ∧ ∃ staged qualified,
      ((Op.collect (Batch.stage scope (.still disk)) paths).run .fresh).answer = .ok staged ∧
      staged.map Batch.Staged.path = paths ∧
      (∀ f ∈ staged, r.sources.get? f.path = some f.source ∧
        (∀ c ∈ DocComment.scan f.text, ((Session.qualifyComment scope f.path c.text).run
          (Batch.endSession scope disk paths)).answer = .ok (qualified f.path c.text)) ∧
        r.outputs.get? f.path = some (Replacement.splice f.text ((DocComment.scan f.text).map
          fun c => ⟨c.start, c.stop, qualified f.path c.text⟩))) ∧
      ∀ events : List Event, (∀ event ∈ events, event.Fits scope staged) →
        ∃ answers,
          (Op.collect (Event.op scope (.still disk)) events begun.log begun.state).answer =
            .ok answers ∧
          List.Forall₂ (Event.Agrees scope staged qualified) events answers := by
  intro paths begun
  obtain ⟨hready, rfl⟩ := Batch.ready_of_run hscope hrun
  have hbegin : (parseBegin scope (.still disk) files).Answers plugin True ()
      (Holds scope disk paths) := answers_parseBegin hready
  obtain ⟨hbegun, hholds⟩ := (hbegin log).1 trivial
  -- Staging leaves the same files known as the whole run, hence the same index.
  have hindex : begun.state.session.index = (Batch.endSession scope disk paths).index :=
    hholds.session.index_eq hready.keeps rfl
  refine ⟨hbegun, paths.map (stagedOf scope disk), fun p =>
    qualifiedIn (Batch.endSession scope disk paths).index (Batch.identityAt scope disk p),
    ((Batch.answers_stages hready.normal []).1 hready.stageable).1, ?_, ?_, ?_⟩
  · rw [List.map_map]
    exact List.map_id' paths
  · intro f hf
    obtain ⟨hp, hstaged⟩ := mem_of_mem_staged hf
    refine ⟨?_, fun c _ => hready.qualifyComment hp c.text, ?_⟩
    · rw [Batch.reportOf, OrderedMap.get?_ofPairs, if_pos hp, hstaged]
      rfl
    · rw [Batch.reportOf, OrderedMap.get?_ofPairs, if_pos hp, splice_all_comments, hstaged]
      rfl
  · intro events hfits
    obtain ⟨hanswers, -⟩ := (Event.answers_run hready hholds hfits begun.log).1 trivial
    refine ⟨_, hanswers, ?_⟩
    rw [List.forall₂_map_right_iff, List.forall₂_same]
    intro event hevent
    rw [hindex]
    exact Event.agrees_answer (hfits event hevent)

/-- The state of a plugin that is past taking files in and holds another text for the file. -/
def stalePlugin : Plugin := ⟨{ Session.fresh with phase := .qualify }, [(Batch.samplePath, [], [])]⟩

def sampleComment : Text := "/** @module a\n @typedef \x7bT\x7d T */".toList

/-- A comment is found before its file is parsed, each under a spelling of its own. -/
def sampleEvents : List Event :=
  [.commentFound "./a.js".toList sampleComment, .beforeParse "/p/a.js".toList Batch.sampleText]

set_option maxRecDepth 100000 in
theorem sample_events_agree :
    ((Batch.run (.still Batch.sampleDisk) Batch.sampleSettings (some ["a.js".toList])).run
        ()).answer = .ok Batch.sampleResult ∧
      let begun := parseBegin Batch.sampleScope (.still Batch.sampleDisk) ["a.js".toList] []
        stalePlugin
      begun.answer = .ok () ∧ ∃ staged qualified,
        (∀ event ∈ sampleEvents, event.Fits Batch.sampleScope staged) ∧
        ∃ answers, (Op.collect (Event.op Batch.sampleScope (.still Batch.sampleDisk)) sampleEvents
            begun.log begun.state).answer = .ok answers ∧
          List.Forall₂ (Event.Agrees Batch.sampleScope staged qualified) sampleEvents answers := by
  obtain ⟨hbegun, staged, qualified, hstaged, -, -, hevents⟩ :=
    events_agree_with_run Batch.sample_scope Batch.sample_run stalePlugin []
  have hfile : ((Op.collect (Batch.stage Batch.sampleScope (.still Batch.sampleDisk))
      (["a.js".toList].map Batch.sampleScope.normalize)).run .fresh).answer.toOption.map
        (List.map fun f => (f.path, f.source, f.text)) =
      some [(Batch.samplePath, Batch.sampleText, "let x ".toList ++ sampleComment ++
        " + y".toList)] := by
    decide +kernel
  rw [hstaged] at hfile
  obtain ⟨f, rest, rfl⟩ : ∃ f rest, staged = f :: rest := by
    cases staged with
    | nil => simp [Except.toOption] at hfile
    | cons f rest => exact ⟨f, rest, rfl⟩
  simp only [Except.toOption, Option.map_some, List.map_cons, Option.some.injEq, List.cons.injEq,
    Prod.mk.injEq] at hfile
  obtain ⟨⟨hpath, hsource, htext⟩, -⟩ := hfile
  have hfits : ∀ event ∈ sampleEvents, event.Fits Batch.sampleScope (f :: rest) := by
    refine List.forall_mem_cons.mpr ⟨?_, List.forall_mem_singleton.mpr ?_⟩
    · refine ⟨f, List.mem_cons_self, hpath.trans (by decide +kernel), ⟨6, 38, sampleComment⟩, ?_,
        rfl⟩
      rw [htext]
      decide +kernel
    · exact ⟨f, List.mem_cons_self, hpath.trans (by decide +kernel), hsource.symm⟩
  exact ⟨Batch.sample_run, hbegun, f :: rest, qualified, hfits, hevents sampleEvents hfits⟩

end Plugin

end DocRefs
