import DocRefs.Op

/-!
# Type index

The type names declared in each module, by module id. Ids and names are kept in code-point order
and without repetition, so an index is determined by the names that each id has. The empty id holds
the names of files without a module. Values that are no texts can be recorded too; they are kept
beside the names, count as names, and name no type.
-/

namespace DocRefs

/-- Type names by module id. -/
structure TypeIndex where
  entries : List (Text × List Text)
  /-- The values recorded under an id that are no texts, in the order of their first appearance. -/
  strays : List (Text × List Value)
  deriving Repr

namespace TypeIndex

/-- The index without an id. -/
def empty : TypeIndex := ⟨[], []⟩

/-- The entries with names added under an id. -/
def addTo (id : Text) (names : List Text) : List (Text × List Text) → List (Text × List Text)
  | [] => [(id, Text.sortedSet names)]
  | (k, ns) :: es =>
      if k = id then (k, Text.sortedSet (ns ++ names)) :: es
      else if Text.le id k then (id, Text.sortedSet names) :: (k, ns) :: es
      else (k, ns) :: addTo id names es

/-- Adds names to a module, which is in the index from then on. -/
def record (index : TypeIndex) (id : Text) (names : List Text) : TypeIndex :=
  { index with entries := addTo id names index.entries }

/-- The names of a module; none when the id was never recorded. -/
def names? (index : TypeIndex) (id : Text) : Option (List Text) :=
  (index.entries.find? fun e => e.1 = id).map (·.2)

/-- Whether an id was recorded. -/
def contains (index : TypeIndex) (id : Text) : Bool := (index.names? id).isSome

/-- The recorded ids, in order. -/
def ids (index : TypeIndex) : List Text := index.entries.map (·.1)

/-- The number of recorded ids. -/
def size (index : TypeIndex) : Nat := index.entries.length

/-- The number of names in all modules together. -/
def nameCount (index : TypeIndex) : Nat :=
  index.strays.foldl (fun n e => n + e.2.length)
    (index.entries.foldl (fun n e => n + e.2.length) 0)

/-- The values under an id that are no texts. -/
def straysOf (index : TypeIndex) (id : Text) : List Value := (index.strays.lookup id).getD []

/-- Adds a value that is no text, unless it is there. -/
def addStray (id : Text) (index : TypeIndex) (v : Value) : TypeIndex :=
  let vs := index.straysOf id
  if vs.any (Value.sameKey v) then index
  else { index with strays := (id, vs ++ [v]) :: index.strays.filter (·.1 != id) }

/-- Values in order: numbers can be ordered, and so can a single value. -/
def sortedStrays : List Value → Except Failure (List Value)
  | [v] => .ok [v]
  | vs =>
      if vs.all (·.units?.isSome) then
        .ok (vs.mergeSort fun a b => decide (a.units?.getD 0 ≤ b.units?.getD 0))
      else .error .wrongKind

/-- All that is recorded under an id, in order. Texts cannot be ordered with other values. -/
def listed (index : TypeIndex) (id : Text) : Except Failure (Option (List Value)) :=
  match index.names? id, index.straysOf id with
  | none, _ => .ok none
  | some names, [] => .ok (some (names.map .text))
  | some [], vs => (sortedStrays vs).map some
  | some _, _ => .error .wrongKind

/-- The whole index: all that is recorded under each id, in order. -/
def table (index : TypeIndex) : Except Failure (List (Text × List Value)) :=
  index.ids.mapM fun id => do return (id, (← index.listed id).getD [])

/-- Adds the names that a value runs through. The id is recorded even when the value runs through
nothing, and the names in front of one that is no key are added. -/
def recordValue (id : Text) (names : Value) : Op TypeIndex Unit := do
  match names.elements? with
  | none =>
      Op.modify (·.record id [])
      Op.fail .wrongKind
  | some vs =>
      let keys := vs.takeWhile Value.isKey
      Op.modify (·.record id (keys.filterMap Value.text?))
      Op.modify ((keys.filter (·.text?.isNone)).foldl (addStray id) ·)
      if vs.all Value.isKey then return () else Op.fail .wrongKind

end TypeIndex

end DocRefs
