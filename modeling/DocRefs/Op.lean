import DocRefs.Failure

/-!
# Operations

An operation acts on a state, may fail, and writes log entries. Its outcome tells the state it
leaves in either case, since later operations see it. The log may lie on the disk that operations
look at, so what they see there can depend on what has been logged.
-/

namespace DocRefs

namespace Log

/-- How grave a log entry is. -/
inductive Level
  | debug
  | info
  | warning
  | error
  deriving DecidableEq, Repr

namespace Level

/-- The number of a level; an entry is written when its number reaches the threshold. -/
def number : Level → Nat
  | debug => 10
  | info => 20
  | warning => 30
  | error => 40

/-- The name of a level. -/
def name : Level → String
  | debug => "DEBUG"
  | info => "INFO"
  | warning => "WARNING"
  | error => "ERROR"

end Level

/-- An entry of the log. -/
structure Entry where
  level : Level
  /-- The part of the program that writes it. -/
  source : String
  message : Text
  deriving DecidableEq, Repr

/-- The entry as a line. -/
def Entry.line (e : Entry) : Text :=
  e.level.name.toList ++ [' ', '['] ++ e.source.toList ++ [']', ' '] ++ e.message ++ ['\n']

end Log

/-- What has been logged, the latest entry first. -/
abbrev Log : Type := List Log.Entry

/-- The disk as it is when something has been logged. -/
abbrev View : Type := Log → Disk

/-- A disk that no log entry changes. -/
def View.still (d : Disk) : View := fun _ => d

/-- What an operation did: its answer, the state it leaves, and all that has been logged then. -/
structure Outcome (σ α : Type) where
  answer : Except Failure α
  state : σ
  log : Log

/-- An operation on states of type `σ`. -/
def Op (σ α : Type) : Type := Log → σ → Outcome σ α

namespace Op

variable {σ τ α β : Type}

/-- Does nothing. -/
protected def pure (a : α) : Op σ α := fun log s => ⟨.ok a, s, log⟩

/-- One operation after the other; a failure ends the sequence with the state reached. -/
protected def bind (m : Op σ α) (f : α → Op σ β) : Op σ β := fun log s =>
  match m log s with
  | ⟨.error e, s', log'⟩ => ⟨.error e, s', log'⟩
  | ⟨.ok a, s', log'⟩ => f a log' s'

instance : Monad (Op σ) where
  pure := Op.pure
  bind := Op.bind

/-- Fails and leaves the state as it is. -/
def fail (e : Failure) : Op σ α := fun log s => ⟨.error e, s, log⟩

/-- The state. -/
def get : Op σ σ := fun log s => ⟨.ok s, s, log⟩

/-- Changes the state. -/
def modify (f : σ → σ) : Op σ Unit := fun log s => ⟨.ok (), f s, log⟩

/-- The disk as it is now. -/
def see (view : View) : Op σ Disk := fun log s => ⟨.ok (view log), s, log⟩

/-- Writes a log entry. -/
def log (level : Log.Level) (source : String) (message : Text) : Op σ Unit :=
  fun log s => ⟨.ok (), s, ⟨level, source, message⟩ :: log⟩

/-- An answer that may be a failure, without effect on the state. -/
def ofExcept : Except Failure α → Op σ α
  | .ok a => Op.pure a
  | .error e => fail e

/-- An operation on a part of the state. -/
def zoom (part : τ → σ) (put : σ → τ → τ) (m : Op σ α) : Op τ α := fun log t =>
  match m log (part t) with
  | ⟨answer, s, log'⟩ => ⟨answer, put s t, log'⟩

/-- An operation on a state of its own, which it gives back. -/
def within (s : σ) (m : Op σ α) : Op τ (α × σ) := fun log t =>
  match m log s with
  | ⟨.ok a, s', log'⟩ => ⟨.ok (a, s'), t, log'⟩
  | ⟨.error e, _, log'⟩ => ⟨.error e, t, log'⟩

/-- What an operation does when nothing has been logged before. -/
def run (m : Op σ α) (s : σ) : Outcome σ α := m [] s

/-- An operation for every element, in order, and the answers. -/
def collect (f : α → Op σ β) : List α → Op σ (List β)
  | [] => Op.pure []
  | a :: as => do
      let b ← f a
      let bs ← collect f as
      return b :: bs

/-- An operation for every element, in order. -/
def forEach (f : α → Op σ Unit) : List α → Op σ Unit
  | [] => Op.pure ()
  | a :: as => do
      f a
      forEach f as

end Op

/-- An operation without a state. -/
abbrev Logged (α : Type) : Type := Op Unit α

end DocRefs
