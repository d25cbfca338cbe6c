import DocRefs.Yaml.Atom
import DocRefs.Yaml.Node

/-!
# Reading YAML

Reads a text as one YAML 1.1 document of the core vocabulary. Every node is read once, collections
in the order in which they are met, so of several faults the one met first counts. Mappings may
take entries over from others by the key `<<`; an entry of their own wins. A text without a
document has no value.
-/

namespace DocRefs

namespace Yaml

/-- An entry of a mapping. -/
abbrev NodeEntry := NodeId × NodeId

/-- The kinds of collections. -/
inductive Collection
  | sequence
  | mapping
  | set
  | pairs
  deriving DecidableEq, Repr

/-- The kind of collection that a tag asks for. -/
def Collection.ofTag? (tag : Text) : Option Collection :=
  if isCore "seq" tag then some .sequence
  else if isCore "map" tag then some .mapping
  else if isCore "set" tag then some .set
  else if isCore "omap" tag || isCore "pairs" tag then some .pairs
  else none

/-- The value of a node in terms of the nodes inside it. -/
inductive Shape
  | atom (v : Value)
  | list (items : List NodeId)
  | table (entries : List (Value × NodeId))
  | set (keys : List Value)
  | pairs (items : List NodeEntry)

/-- How far a document has been read. -/
structure Reading where
  nodes : Array Node
  /-- The shapes of the nodes that have been met. -/
  shapes : Array (Option Shape)
  /-- The collections met, in order. -/
  met : Array NodeId := #[]

/-- A step of reading a document. -/
abbrev Read := StateT Reading (Except Misread)

namespace Read

/-- The document asks for something that cannot be built. -/
def fail {α : Type} : Read α := throw .malformed

/-- A node by its number. -/
def node (id : NodeId) : Read Node := return (← get).nodes[id]?.getD ⟨[], .scalar []⟩

/-- The tag of a node. -/
def tag (id : NodeId) : Read Text := return (← node id).tag

/-- The entries of a node, if it is a mapping. -/
def entries? (id : NodeId) : Read (Option (List NodeEntry)) := do
  match (← node id).content with
  | .mapping es => return some es
  | _ => return none

/-- Changes a node. -/
def change (id : NodeId) (f : Node → Node) : Read Unit :=
  modify fun r => { r with nodes := r.nodes.modify id f }

/-- Sets the entries of a mapping. -/
def setEntries (id : NodeId) (es : List NodeEntry) : Read Unit :=
  change id fun n => { n with content := .mapping es }

/-- The shape of a node that has been met. -/
def shape? (id : NodeId) : Read (Option Shape) := return ((← get).shapes[id]?).join

/-- Sets the shape of a node. -/
def setShape (id : NodeId) (s : Shape) : Read Unit :=
  modify fun r => { r with shapes := r.shapes.modify id fun _ => some s }

/-- How long a chain of nodes may be that refer to each other, before the stack that the program is
run with is used up. -/
def chainLimit : Nat := 980

/-! ### Scalars -/

/-- The text of a scalar. A mapping that has a value key stands for the scalar under it. -/
def scalarText (id : NodeId) : Nat → Read Text
  | 0 => throw (.failed .tooDeep)
  | fuel + 1 => do
      match (← node id).content with
      | .scalar t => return t
      | .sequence _ => fail
      | .mapping es =>
          match ← es.findM? fun e => return isCore "value" (← tag e.1) with
          | none => fail
          | some e => scalarText e.2 fuel

/-- The value of a node that is no collection. -/
def atom (id : NodeId) : Read Value := do
  let n ← node id
  if !isAtomTag n.tag then fail
  let t ← scalarText id chainLimit
  match n.content with
  | .scalar _ => atomValue n.tag t
  | _ => if isCore "timestamp" n.tag then throw (.failed .wrongKind) else atomValue n.tag t

/-- Meets a node: a scalar is read at once, a collection is put down to be read later. -/
def meet (id : NodeId) : Read Unit := do
  if (← shape? id).isNone then
    match Collection.ofTag? (← tag id) with
    | some _ =>
        setShape id (.list [])
        modify fun r => { r with met := r.met.push id }
    | none => setShape id (.atom (← atom id))

/-! ### Merging -/

mutual

/-- Takes over the entries that the merge keys of a mapping name, in front of its own. -/
def merge (fuel : Nat) (id : NodeId) : Read Unit :=
  match fuel with
  | 0 => throw (.failed .tooDeep)
  | fuel + 1 => do
      let taken ← takeOver fuel id [] ((← entries? id).getD [])
      if !taken.isEmpty then setEntries id (taken ++ (← entries? id).getD [])
termination_by (fuel, 0, 0)
decreasing_by exact Prod.Lex.left _ _ (Nat.lt_succ_self _)

/-- The entries that the merge keys among the entries of a mapping name; each such key is removed
before its entries are looked for. The entries `before`, the last first, have been passed. When the
mapping was merged meanwhile, as part of itself, nothing is left to do. -/
def takeOver (fuel : Nat) (id : NodeId) (before rest : List NodeEntry) : Read (List NodeEntry) :=
  match rest with
  | [] => return []
  | e :: rest => do
      let t ← tag e.1
      if isCore "merge" t then
        let remaining := before.reverse ++ rest
        setEntries id remaining
        let taken ← named fuel e.2
        if (← entries? id) = some remaining then
          return taken ++ (← takeOver fuel id before rest)
        else return taken
      else
        if isCore "value" t then change e.1 fun n => { n with tag := coreTag "str" }
        takeOver fuel id (e :: before) rest
termination_by (fuel, 3, rest.length)

/-- The entries that the value of a merge key names: those of a mapping, or of the mappings of a
sequence, the last first. -/
def named (fuel : Nat) (id : NodeId) : Read (List NodeEntry) := do
  match (← node id).content with
  | .scalar _ => fail
  | .sequence items => return (← namedAll fuel items).reverse.flatten
  | .mapping _ =>
      merge fuel id
      return (← entries? id).getD []
termination_by (fuel, 2, 0)

/-- The entries of each of a list of mappings. -/
def namedAll (fuel : Nat) (items : List NodeId) : Read (List (List NodeEntry)) :=
  match items with
  | [] => return []
  | id :: items => do
      if (← entries? id).isNone then fail
      merge fuel id
      let es := (← entries? id).getD []
      return es :: (← namedAll fuel items)
termination_by (fuel, 1, items.length)

end

/-! ### Collections -/

/-- The table of a mapping's entries, where `done` holds those before; every key has to be one that
a table can have. -/
def tableEntries (done : List (Value × NodeId)) : List NodeEntry → Read (List (Value × NodeId))
  | [] => return done
  | (k, v) :: es => do
      meet k
      match ← shape? k with
      | some (.atom key) =>
          meet v
          tableEntries (Value.insert key v done) es
      | _ => fail

/-- The entries of a mapping, after those that it takes over. -/
def mappingEntries (id : NodeId) : Read (List (Value × NodeId)) := do
  if (← entries? id).isNone then fail
  merge chainLimit id
  tableEntries [] ((← entries? id).getD [])

/-- The pair that a mapping of one entry is. -/
def pairOf (id : NodeId) : Read NodeEntry := do
  match ← entries? id with
  | some [(k, v)] =>
      meet k
      meet v
      return (k, v)
  | _ => fail

/-- The items of a sequence. -/
def items (id : NodeId) : Read (List NodeId) := do
  match (← node id).content with
  | .sequence ids => return ids
  | _ => fail

/-- Reads a collection that was met. -/
def collection (id : NodeId) : Read Unit := do
  match Collection.ofTag? (← tag id) with
  | none => return ()
  | some .sequence =>
      let ids ← items id
      ids.forM meet
      setShape id (.list ids)
  | some .mapping => setShape id (.table (← mappingEntries id))
  | some .set => setShape id (.set ((← mappingEntries id).map (·.1)))
  | some .pairs => setShape id (.pairs (← (← items id).mapM pairOf))

/-- Reads the collections met, from the `i`th on, and those met meanwhile. -/
def collections (i : Nat) : Nat → Read Unit
  | 0 => return ()
  | fuel + 1 => do
      match (← get).met[i]? with
      | none => return ()
      | some id =>
          collection id
          collections (i + 1) fuel

/-- Reads a whole document. -/
def document (root : NodeId) : Read Unit := do
  meet root
  collections 0 ((← get).nodes.size + 1)

end Read

/-! ### Values -/

/-- The value of a shape, where `values` holds those of the nodes. -/
def Shape.value (values : Array Value) : Shape → Value
  | .atom v => v
  | .list ids => .list (ids.map (values.getD · .null))
  | .table es => .map (es.map fun e => (e.1, values.getD e.2 .null))
  | .set ks => .set ks
  | .pairs ps => .list (ps.map fun p => .pair (values.getD p.1 .null) (values.getD p.2 .null))

/-- The values of all nodes, given the values that the nodes had in the round before. -/
def round (order : List NodeId) (shapes : Array (Option Shape)) (values : Array Value) :
    Array Value :=
  order.foldl (fun vs id =>
    match (shapes[id]?).join with
    | none => vs
    | some s => vs.setIfInBounds id (s.value vs)) values

/-- The values after some rounds. -/
def rounds (order : List NodeId) (shapes : Array (Option Shape)) (values : Array Value) :
    Nat → Array Value
  | 0 => values
  | n + 1 => rounds order shapes (round order shapes values) n

/-- How many rounds a document takes. A node comes after those inside it, so one round gives every
value. What is inside itself has no end; it is unrolled deeper than values may be nested
anywhere. -/
def Document.rounds (d : Document) : Nat := if d.cyclic then 1000 else 1

/-- The value of a document. -/
def Document.value (d : Document) : Except Misread Value := do
  let start : Reading := ⟨d.nodes, Array.replicate d.nodes.size none, #[]⟩
  let ((), r) ← (Read.document d.root).run start
  let values := Yaml.rounds d.order.toList r.shapes (Array.replicate d.nodes.size .null) d.rounds
  return values.getD d.root .null

/-- Reads a text as one value; a text without a document has none. -/
def read (t : Text) : Except Misread Value := do
  match ← Document.ofText t with
  | none => return .null
  | some d => d.value

end Yaml

end DocRefs
