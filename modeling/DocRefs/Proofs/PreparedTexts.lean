import Mathlib
import DocRefs.Plugin
import DocRefs.Proofs.Stability

/-!
# Prepared texts

The start of a run prepares a text for every listed file, and an event may ask for it much later,
when the disk is another one and more files are known. It is then still the text that linking gives:
all that it depends on, the paths of imports and the module ids of the files there, stays until the
next start. So the three ways in which a source is answered before it is parsed agree with linking
the source in the session that the event leaves.
-/

namespace DocRefs

namespace Session

/-- The session has a module id for every import of a text, and linked by these the text is `u`. -/
def LinksTo (scope : Scope) (s : Session) (importer : Path) (t u : Text) : Prop :=
  (∀ r ∈ commentRefs t, ∃ id, s.module? scope importer r.2.specifier = some id) ∧
    u = Replacement.splice t (s.links scope importer t)

variable {scope : Scope} {view : View} {s s' : Session} {importer filename : Path} {t u : Text}

theorem LinksTo.extend (h : s.LinksTo scope importer t u) (hextends : Extends s s') :
    s'.LinksTo scope importer t u := by
  obtain ⟨hsettled, rfl⟩ := h
  refine ⟨fun r hr => ?_, by rw [hextends.links_eq hsettled]⟩
  obtain ⟨id, hid⟩ := hsettled r hr
  exact ⟨id, hextends.module? hid⟩

/-- What a session links a text to is what linking answers there, on any disk. -/
theorem LinksTo.meets_linkImports (h : s.LinksTo scope (scope.normalize filename) t u) :
    (linkImports scope view filename t).Meets s fun r _ => r = .ok u := by
  rw [h.2]
  exact meets_linkImports_of_settled h.1

theorem meets_takeIn_linksTo (filename : Path) (t : Text) :
    (takeIn scope view filename t).Meets s fun r s' =>
      Moves scope s s' ∧ ∀ u, r = .ok u → s'.LinksTo scope (scope.normalize filename) t u := by
  refine (meets_requireIngest (some filename)).bind ?_ ?_
  · rintro e s' ⟨-, rfl⟩
    exact ⟨.refl, fun _ h => by simp at h⟩
  · rintro _ s' ⟨-, rfl⟩
    refine (meets_identity_moves filename (some t)).bind ?_ ?_
    · intro e s' h
      exact ⟨h.1, fun _ hok => by simp at hok⟩
    · intro _ s' h
      refine (meets_linkImports_moves filename t).mono fun r s'' h' => ?_
      exact ⟨h.1.trans h'.1, h'.2⟩

end Session

namespace Plugin

/-! ## Events of a host -/

/-- An event, with the disk as it is seen while the event is handled. -/
inductive HostEvent
  | parseBegin (view : View) (files : List Path)
  | beforeParse (view : View) (filename : Path) (source : Text)
  | commentFound (filename : Path) (comment : Text)

/-- The operation that handles an event, without its answer. -/
def HostEvent.op (scope : Scope) : HostEvent → Op Plugin Unit
  | parseBegin view files => Plugin.parseBegin scope view files
  | beforeParse view filename source =>
      Plugin.beforeParse scope view filename source >>= fun _ => pure ()
  | commentFound filename comment =>
      Plugin.commentFound scope filename comment >>= fun _ => pure ()

/-- The plugin after some events, whether they fail or not. -/
def afterEvents (scope : Scope) : List HostEvent → Log → Plugin → Plugin
  | [], _, plugin => plugin
  | event :: events, log, plugin =>
      afterEvents scope events (event.op scope log plugin).log (event.op scope log plugin).state

/-- Every text prepared is what the session links its source to. -/
def Current (scope : Scope) (plugin : Plugin) : Prop :=
  ∀ p source linked, plugin.prepared.get? p = some (source, linked) →
    plugin.session.LinksTo scope p source linked

variable {scope : Scope} {view : View} {plugin : Plugin} {filename : Path} {source : Text}

theorem current_fresh : Current scope .fresh := by
  intro p source linked hget
  simp [fresh] at hget

theorem Current.put (h : Current scope plugin) {p : Path} {linked : Text}
    (hlinks : plugin.session.LinksTo scope p source linked) :
    Current scope { plugin with prepared := plugin.prepared.put p (source, linked) } := by
  intro q source' linked' hget
  rw [OrderedMap.get?_put] at hget
  split at hget
  next heq =>
    obtain ⟨rfl, rfl⟩ := Prod.mk.inj (Option.some.inj hget)
    rwa [← heq]
  next => exact h q source' linked' hget

/-- Prepared texts stay current under whatever only moves the session. -/
theorem Current.meets_onSession {α : Type} {m : Op Session α} {post : α → Session → Prop}
    (h : Current scope plugin)
    (hm : m.Meets plugin.session fun r s' =>
      Session.Moves scope plugin.session s' ∧ ∀ a, r = .ok a → post a s') :
    (onSession m).Meets plugin fun r plugin' =>
      Current scope plugin' ∧ ∀ a, r = .ok a → post a plugin'.session := by
  refine hm.zoom fun r s' h' => ⟨?_, h'.2⟩
  intro p source linked hget
  exact (h p source linked hget).extend h'.1.extends

/-! ## What events keep -/

/-- A source that was not prepared is answered by what the session links it to from then on. -/
theorem Current.meets_linkNow (h : Current scope plugin) :
    (beforeParse.linkNow scope view filename source plugin).Meets plugin fun r plugin' =>
      Current scope plugin' ∧ ∀ t, r = .ok t →
        plugin'.session.LinksTo scope (scope.normalize filename) source t := by
  unfold beforeParse.linkNow
  split
  · exact h.meets_onSession (Session.meets_takeIn_linksTo filename source)
  · exact h.meets_onSession (Session.meets_linkImports_moves filename source)

theorem Current.meets_beforeParse (h : Current scope plugin) :
    (beforeParse scope view filename source).Meets plugin fun r plugin' =>
      Current scope plugin' ∧ ∀ t, r = .ok t →
        plugin'.session.LinksTo scope (scope.normalize filename) source t := by
  unfold beforeParse
  apply Op.meets_get_bind
  cases hget : plugin.prepared.get? (scope.normalize filename) with
  | none => exact h.meets_linkNow
  | some entry =>
      obtain ⟨known, linked⟩ := entry
      dsimp only
      split
      next hknown =>
        subst hknown
        refine Op.meets_pure ⟨h, fun t ht => ?_⟩
        obtain rfl := Except.ok.inj ht
        exact h _ _ _ hget
      next => exact h.meets_linkNow

theorem Current.meets_commentFound (h : Current scope plugin) (filename : Path) (comment : Text) :
    (commentFound scope filename comment).Meets plugin fun _ plugin' => Current scope plugin' := by
  have hmoves : (Session.qualifyComment scope filename comment).Meets plugin.session fun r s' =>
      Session.Moves scope plugin.session s' ∧ ∀ a, r = .ok a → True :=
    (Session.meets_qualifyComment_moves filename comment).mono
      fun _ _ h' => ⟨h', fun _ _ => trivial⟩
  exact (h.meets_onSession hmoves).mono fun _ _ h' => h'.1

section Start

-- A file is taken in under its normal path, which the session normalizes once more.
variable (hnormal : ∀ p, scope.normalize (scope.normalize p) = scope.normalize p)

include hnormal

theorem Current.meets_prepare (h : Current scope plugin) (filename : Path) :
    (prepare scope view filename).Meets plugin fun _ plugin' => Current scope plugin' := by
  unfold prepare
  refine Op.meets_view_bind fun disk => ?_
  split
  · refine Op.meets_ofExcept_bind (fun _ _ => h) fun source _ => ?_
    have htaken : (Session.takeIn scope view (scope.normalize filename) source).Meets
        plugin.session _ :=
      Session.meets_takeIn_linksTo (scope.normalize filename) source
    refine (h.meets_onSession htaken).bind (fun _ _ h' => h'.1) fun linked plugin' h' => ?_
    have hlinks := h'.2 linked rfl
    rw [hnormal] at hlinks
    exact fun _ => h'.1.put hlinks
  · exact fun _ => h

/-- The start of a run leaves current texts, whatever was there before and wherever it ends. -/
theorem meets_parseBegin_current (files : List Path) :
    (parseBegin scope view files).Meets plugin fun _ plugin' => Current scope plugin' := by
  unfold parseBegin
  apply Op.meets_modify_bind
  have hprepared : (Op.forEach (prepare scope view) files).Meets fresh fun _ plugin' =>
      Current scope plugin' :=
    Op.meets_forEach (fun filename _ _ h => h.meets_prepare hnormal filename) current_fresh
  refine hprepared.bind (fun _ _ h => h) fun _ plugin' h => ?_
  exact fun _ => h

theorem HostEvent.meets_op (event : HostEvent) (h : Current scope plugin) :
    (event.op scope).Meets plugin fun _ plugin' => Current scope plugin' := by
  have hforget : ∀ {m : Op Plugin Text}, m.Meets plugin (fun _ p' => Current scope p') →
      (m >>= fun _ => (pure () : Op Plugin Unit)).Meets plugin fun _ p' => Current scope p' :=
    fun hm => hm.bind (fun _ _ h' => h') fun _ _ h' => Op.meets_pure h'
  cases event with
  | parseBegin view files => exact meets_parseBegin_current hnormal files
  | beforeParse view filename source =>
      exact hforget (h.meets_beforeParse.mono fun _ _ h' => h'.1)
  | commentFound filename comment => exact hforget (h.meets_commentFound filename comment)

theorem current_afterEvents (h : Current scope plugin) (events : List HostEvent) (log : Log) :
    Current scope (afterEvents scope events log plugin) := by
  induction events generalizing plugin log with
  | nil => exact h
  | cons event events ih => exact ih (event.meets_op hnormal h log) _

end Start

/-- After any events, failed ones among them, and whatever disk each of them has seen: a text that
is given in place of a source is the text that linking the source gives in the session left, on any
disk. It may have been prepared at the start of the run, or come with taking the source in, or with
linking it only. -/
theorem beforeParse_agrees_with_linking {disk : Disk} {settings : Settings}
    (hscope : Scope.ofSettings disk.cwdPath settings = .ok scope) (events : List HostEvent)
    (start : Log) (view : View) (filename : Path) (source : Text) (log : Log) :
    let outcome := beforeParse scope view filename source log
      (afterEvents scope events start .fresh)
    ∀ t, outcome.answer = .ok t → ∀ view' log',
      (Session.linkImports scope view' filename source log' outcome.state.session).answer =
        .ok t := by
  intro outcome t ht view' log'
  have hnormal : ∀ p, scope.normalize (scope.normalize p) = scope.normalize p := fun p =>
    (Batch.isNormal_normalize hscope p).normalize_eq scope.cwd
  have hcurrent : Current scope (afterEvents scope events start .fresh) :=
    current_afterEvents hnormal current_fresh events start
  have hlinks := (hcurrent.meets_beforeParse log).2 t ht
  exact hlinks.meets_linkImports log'

/-- A comment of an unknown file is refused, a run is started, and a comment of its file is
found. -/
def sampleHistory : List HostEvent :=
  [.commentFound "a.js".toList [], .parseBegin (.still Batch.sampleDisk) ["a.js".toList],
    .commentFound "./a.js".toList "/** \x7bT\x7d */".toList]

/-- The sample text when its import is linked: the file that it names has no module. -/
def sampleLinked : Text := "let x /** @module a\n @typedef \x7bT\x7d T */ + y".toList

/-- The file as another plugin has changed it, with a reference to a package, and when this is
linked. -/
def changedText : Text := "/** \x7bimport('k').A\x7d */".toList

def changedLinked : Text := "/** \x7bmodule:k~A\x7d */".toList

set_option maxRecDepth 100000 in
theorem beforeParse_sampleText : (beforeParse Batch.sampleScope Session.emptied
    "d/../a.js".toList Batch.sampleText []
      (afterEvents Batch.sampleScope sampleHistory [] .fresh)).answer = .ok sampleLinked := by
  decide +kernel

set_option maxRecDepth 100000 in
theorem beforeParse_changedText : (beforeParse Batch.sampleScope Session.emptied
    "d/../a.js".toList changedText []
      (afterEvents Batch.sampleScope sampleHistory [] .fresh)).answer = .ok changedLinked := by
  decide +kernel

/-- The first text was prepared at the start of the run; the other one is linked when it comes. -/
theorem sample_beforeParse_agrees :
    (beforeParse Batch.sampleScope Session.emptied "d/../a.js".toList Batch.sampleText []
        (afterEvents Batch.sampleScope sampleHistory [] .fresh)).answer = .ok sampleLinked ∧
      (Session.linkImports Batch.sampleScope Session.emptied "d/../a.js".toList Batch.sampleText []
        (beforeParse Batch.sampleScope Session.emptied "d/../a.js".toList Batch.sampleText []
          (afterEvents Batch.sampleScope sampleHistory [] .fresh)).state.session).answer =
        .ok sampleLinked ∧
      (beforeParse Batch.sampleScope Session.emptied "d/../a.js".toList changedText []
        (afterEvents Batch.sampleScope sampleHistory [] .fresh)).answer = .ok changedLinked ∧
      (Session.linkImports Batch.sampleScope Session.emptied "d/../a.js".toList changedText []
        (beforeParse Batch.sampleScope Session.emptied "d/../a.js".toList changedText []
          (afterEvents Batch.sampleScope sampleHistory [] .fresh)).state.session).answer =
        .ok changedLinked := by
  have hprepared := beforeParse_agrees_with_linking Batch.sample_scope sampleHistory []
    Session.emptied "d/../a.js".toList Batch.sampleText [] sampleLinked beforeParse_sampleText
  have hchanged := beforeParse_agrees_with_linking Batch.sample_scope sampleHistory []
    Session.emptied "d/../a.js".toList changedText [] changedLinked beforeParse_changedText
  exact ⟨beforeParse_sampleText, hprepared Session.emptied [], beforeParse_changedText,
    hchanged Session.emptied []⟩

end Plugin

end DocRefs
