import DocRefs.Session.Passes

/-!
# Plugin

The handlers of a documentation generator's events. The start of a run takes every listed file in,
so that comments can be qualified in whatever order the generator then parses files and finds
comments.
-/

namespace DocRefs

/-- A session, and the files prepared at the start of the run: their text and what it becomes. -/
structure Plugin where
  session : Session
  prepared : OrderedMap Path (Text × Text)
  deriving Repr

namespace Plugin

/-- The plugin before any event. -/
def fresh : Plugin := ⟨.fresh, []⟩

/-- The names of the events handled, sorted. -/
def handlers : List String := ["beforeParse", "jsdocCommentFound", "parseBegin"]

/-- An operation on the session. -/
def onSession {α : Type} (m : Op Session α) : Op Plugin α :=
  m.zoom Plugin.session fun s p => { p with session := s }

/-- Takes in one of the files listed at the start of a run; a missing one is skipped. -/
def prepare (scope : Scope) (view : View) (filename : Path) : Op Plugin Unit := do
  let path := scope.normalize filename
  let disk ← Op.see view
  if disk.isFile path then
    let source ← Op.ofExcept (disk.readText scope.encoding path)
    let linked ← onSession (Session.takeIn scope view path source)
    Op.modify fun p => { p with prepared := p.prepared.put path (source, linked) }
  else
    Op.log .warning "typeref.host" ("Skipping missing source file: ".toList ++ path)

/-- Starts a new run and takes in every listed file. -/
def parseBegin (scope : Scope) (view : View) (files : List Path) : Op Plugin Unit := do
  Op.modify fun _ => fresh
  Op.forEach (prepare scope view) files
  let p ← Op.get
  Op.log .info "typeref.host" <|
    "Ingested ".toList ++ Text.ofNat p.prepared.length ++ " source files".toList

/-- The text that replaces a file's source before it is parsed. A source that another plugin has
changed since the start of the run is taken in while that is allowed, and only linked after. -/
def beforeParse (scope : Scope) (view : View) (filename : Path) (source : Text) :
    Op Plugin Text := do
  let p ← Op.get
  match p.prepared.get? (scope.normalize filename) with
  | some (known, linked) =>
      if known = source then return linked else linkNow p
  | none => linkNow p
where
  /-- Links a source that was not prepared. -/
  linkNow (p : Plugin) : Op Plugin Text :=
    if p.session.phase = .ingest then onSession (Session.takeIn scope view filename source)
    else onSession (Session.linkImports scope view filename source)

/-- The text that replaces a comment that was found. -/
def commentFound (scope : Scope) (filename : Path) (comment : Text) : Op Plugin Text :=
  onSession (Session.qualifyComment scope filename comment)

end Plugin

end DocRefs
