import DocRefs.Yaml.Lexer
import DocRefs.Yaml.Tag

/-!
# Nodes of YAML

A document as a graph of nodes, each with the tag that says how to read it. Tags that are not
written are found from the text of plain scalars and the kind of collections. An alias is the node
of its anchor, so a node may have several places, and a collection may be inside itself.
-/

namespace DocRefs

namespace Yaml

/-- The number of a node in its document. -/
abbrev NodeId := Nat

/-- What a node holds. -/
inductive Content
  | scalar (text : Text)
  | sequence (items : List NodeId)
  | mapping (entries : List (NodeId × NodeId))
  deriving DecidableEq, Repr

/-- A node: its tag and what it holds. -/
structure Node where
  tag : Text
  content : Content
  deriving DecidableEq, Repr

/-- A document. -/
structure Document where
  nodes : Array Node
  root : NodeId
  /-- The nodes in the order in which they ended, inner ones first. -/
  order : Array NodeId
  /-- Whether some node is inside itself. -/
  cyclic : Bool
  deriving Repr

/-- The tokens that remain, what was declared before them, and the nodes so far. -/
structure Builder where
  tokens : List Token
  /-- Why there are no more tokens, unless the text ends there. -/
  failure : Option Misread
  anchors : List (Text × NodeId) := []
  handles : List (Text × Text) := []
  nodes : Array Node := #[]
  order : Array NodeId := #[]
  cyclic : Bool := false

/-- A step of building nodes. -/
abbrev Build := StateT Builder (Except Misread)

namespace Build

/-- How deeply nodes may be nested, before the stack that the program is run with is used up. -/
def depthLimit : Nat := 486

/-- The document is wrong. -/
def fail {α : Type} : Build α := throw .malformed

/-- The token ahead. -/
def peek : Build Token := do
  let b ← get
  match b.tokens, b.failure with
  | t :: _, _ => return t
  | [], none => return .streamEnd
  | [], some e => throw e

/-- Passes a token. -/
def skip : Build Unit := modify fun b => { b with tokens := b.tokens.drop 1 }

/-- Whether the token ahead is one of the given ones. -/
def ahead (ts : List Token) : Build Bool := return ts.contains (← peek)

/-- Begins a node, which its anchor stands for from now on. -/
def start (anchor : Option Text) (n : Node) : Build NodeId := do
  let b ← get
  let id := b.nodes.size
  match anchor with
  | none => set { b with nodes := b.nodes.push n }
  | some a =>
      if (b.anchors.lookup a).isSome then fail
      set { b with nodes := b.nodes.push n, anchors := (a, id) :: b.anchors }
  return id

/-- Ends a node. -/
def finish (id : NodeId) : Build NodeId := do
  modify fun b => { b with order := b.order.push id }
  return id

/-- The node of an anchor. -/
def aliased (anchor : Text) : Build NodeId := do
  let b ← get
  match b.anchors.lookup anchor with
  | none => fail
  | some id =>
      if !b.order.contains id then set { b with cyclic := true }
      return id

/-- The node of a scalar that is not written. -/
def emptyNode : Build NodeId := do finish (← start none ⟨coreTag "null", .scalar []⟩)

/-- The tag that a handle and a suffix stand for. -/
def fullTag (handle : Option Text) (suffix : Text) : Build Text := do
  match handle with
  | none => return suffix
  | some h =>
      match (← get).handles.lookup h with
      | none => fail
      | some expansion => return expansion ++ suffix

/-- The anchor and the tag in front of a node, in either order. -/
def properties : Build (Option Text × Option Text) := do
  match ← peek with
  | .anchor a =>
      skip
      match ← peek with
      | .tag h s =>
          skip
          return (some a, some (← fullTag h s))
      | _ => return (some a, none)
  | .tag h s =>
      skip
      match ← peek with
      | .anchor a =>
          skip
          return (some a, some (← fullTag h s))
      | _ => return (none, some (← fullTag h s))
  | _ => return (none, none)

/-- A written tag, unless it is the one that leaves the choice open. -/
def chosen (tag : Option Text) (default : Text) : Text :=
  match tag with
  | none => default
  | some t => if t = ['!'] then default else t

/-- Sets what a node holds. -/
def fill (id : NodeId) (c : Content) : Build Unit :=
  modify fun b => { b with nodes := b.nodes.modify id fun n => { n with content := c } }

/-- A sequence with its items. -/
def sequence (anchor tag : Option Text) (items : Build (List NodeId)) : Build NodeId := do
  let id ← start anchor ⟨chosen tag (coreTag "seq"), .sequence []⟩
  fill id (.sequence (← items))
  finish id

/-- A mapping with its entries. -/
def mapping (anchor tag : Option Text) (entries : Build (List (NodeId × NodeId))) :
    Build NodeId := do
  let id ← start anchor ⟨chosen tag (coreTag "map"), .mapping []⟩
  fill id (.mapping (← entries))
  finish id

/-- A scalar; plain ones, and those whose tag leaves the choice open, are tagged by their text. -/
def scalar (anchor tag : Option Text) (t : Text) (plain : Bool) : Build NodeId := do
  let default := if plain || tag == some ['!'] then plainTag t else coreTag "str"
  finish (← start anchor ⟨chosen tag default, .scalar t⟩)

/-- A node without content is an empty scalar, provided that it has an anchor or a tag. -/
def noContent (anchor tag : Option Text) : Build NodeId :=
  if anchor.isSome || tag.isSome then scalar anchor tag [] true else fail

mutual

/-- A node. Block collections are allowed in a block, and items without indentation after a key. -/
def node (fuel depth : Nat) (block indentless : Bool) : Build NodeId :=
  match fuel, depth with
  | 0, _ => fail
  | _, 0 => throw (.failed .tooDeep)
  | fuel + 1, depth + 1 => do
      if let .alias a ← peek then
        skip
        return ← aliased a
      let (anchor, tag) ← properties
      match ← peek with
      | .blockEntry =>
          if indentless then sequence anchor tag (indentlessItems fuel depth)
          else noContent anchor tag
      | .scalar t plain =>
          skip
          scalar anchor tag t plain
      | .flowSequenceStart =>
          skip
          sequence anchor tag (flowItems fuel depth true)
      | .flowMappingStart =>
          skip
          mapping anchor tag (flowEntries fuel depth true)
      | .blockSequenceStart =>
          if block then
            skip
            sequence anchor tag (blockItems fuel depth)
          else noContent anchor tag
      | .blockMappingStart =>
          if block then
            skip
            mapping anchor tag (blockEntries fuel depth)
          else noContent anchor tag
      | _ => noContent anchor tag
termination_by fuel

/-- A node, or an empty scalar when one of the given tokens is ahead. -/
def nodeUnless (fuel depth : Nat) (ends : List Token) (block indentless : Bool) : Build NodeId :=
  match fuel with
  | 0 => fail
  | fuel + 1 => do
      if ← ahead ends then emptyNode else node fuel depth block indentless
termination_by fuel

/-- A value, if its indicator is ahead, and an empty scalar otherwise. -/
def valueUnless (fuel depth : Nat) (ends : List Token) (block : Bool) : Build NodeId :=
  match fuel with
  | 0 => fail
  | fuel + 1 => do
      if ← ahead [.value] then
        skip
        nodeUnless fuel depth ends block block
      else emptyNode
termination_by fuel

/-- The items of a block sequence and its end. -/
def blockItems (fuel depth : Nat) : Build (List NodeId) :=
  match fuel with
  | 0 => fail
  | fuel + 1 => do
      match ← peek with
      | .blockEntry =>
          skip
          let n ← nodeUnless fuel depth [.blockEntry, .blockEnd] true false
          return n :: (← blockItems fuel depth)
      | .blockEnd =>
          skip
          return []
      | _ => fail
termination_by fuel

/-- The items of a sequence without indentation. -/
def indentlessItems (fuel depth : Nat) : Build (List NodeId) :=
  match fuel with
  | 0 => fail
  | fuel + 1 => do
      if ← ahead [.blockEntry] then
        skip
        let n ← nodeUnless fuel depth [.blockEntry, .key, .value, .blockEnd] true false
        return n :: (← indentlessItems fuel depth)
      else return []
termination_by fuel

/-- The entries of a block mapping and its end. -/
def blockEntries (fuel depth : Nat) : Build (List (NodeId × NodeId)) :=
  match fuel with
  | 0 => fail
  | fuel + 1 => do
      match ← peek with
      | .key =>
          skip
          let k ← nodeUnless fuel depth [.key, .value, .blockEnd] true true
          let v ← valueUnless fuel depth [.key, .value, .blockEnd] true
          return (k, v) :: (← blockEntries fuel depth)
      | .blockEnd =>
          skip
          return []
      | _ => fail
termination_by fuel

/-- The items of a sequence in brackets and its end; a key makes an item a mapping of one entry. -/
def flowItems (fuel depth : Nat) (first : Bool) : Build (List NodeId) :=
  match fuel with
  | 0 => fail
  | fuel + 1 => do
      if !first && !(← ahead [.flowSequenceEnd]) then
        if ← ahead [.flowEntry] then skip else fail
      match ← peek with
      | .flowSequenceEnd =>
          skip
          return []
      | .key =>
          skip
          let n ← mapping none none do
            let k ← nodeUnless fuel (depth - 1) [.value, .flowEntry, .flowSequenceEnd] false false
            let v ← valueUnless fuel (depth - 1) [.flowEntry, .flowSequenceEnd] false
            return [(k, v)]
          return n :: (← flowItems fuel depth false)
      | _ =>
          let n ← node fuel depth false false
          return n :: (← flowItems fuel depth false)
termination_by fuel

/-- The entries of a mapping in brackets and its end; a node without an indicator is a key without
a value. -/
def flowEntries (fuel depth : Nat) (first : Bool) : Build (List (NodeId × NodeId)) :=
  match fuel with
  | 0 => fail
  | fuel + 1 => do
      if !first && !(← ahead [.flowMappingEnd]) then
        if ← ahead [.flowEntry] then skip else fail
      match ← peek with
      | .flowMappingEnd =>
          skip
          return []
      | .key =>
          skip
          let k ← nodeUnless fuel depth [.value, .flowEntry, .flowMappingEnd] false false
          let v ← valueUnless fuel depth [.flowEntry, .flowMappingEnd] false
          return (k, v) :: (← flowEntries fuel depth false)
      | _ =>
          let k ← node fuel depth false false
          let v ← emptyNode
          return (k, v) :: (← flowEntries fuel depth false)
termination_by fuel

end

/-- The handles that need no declaration. -/
def defaultHandles : List (Text × Text) :=
  [(['!'], ['!']), (['!', '!'], coreTag "")]

/-- The directives in front of a document, where `version` tells whether one gave the version. -/
def directives (version : Bool) : Nat → Build Unit
  | 0 => fail
  | fuel + 1 => do
      match ← peek with
      | .directive d =>
          skip
          match d with
          | .version major _ =>
              if version || major != 1 then fail
              directives true fuel
          | .handle name expansion =>
              if ((← get).handles.lookup name).isSome then fail
              modify fun b => { b with handles := (name, expansion) :: b.handles }
              directives version fuel
          | .other => directives version fuel
      | _ => return ()

/-- Passes the marks that end a document. -/
def documentEnds : Nat → Build Unit
  | 0 => return ()
  | fuel + 1 => do
      if ← ahead [.documentEnd] then
        skip
        documentEnds fuel

/-- The directives in front of a document and the mark that begins it. -/
def documentStart (fuel : Nat) : Build Unit := do
  modify fun b => { b with handles := [] }
  directives false fuel
  modify fun b => { b with handles := b.handles ++ defaultHandles }
  if ← ahead [.documentStart] then skip else fail

/-- The root of the only document of a stream; none in an empty stream. -/
def document (fuel : Nat) : Build (Option NodeId) := do
  let ends : List Token := [.documentStart, .documentEnd, .streamEnd]
  let root ←
    match ← peek with
    | .streamEnd => pure none
    | .documentStart | .directive _ => do
        documentStart fuel
        if let .directive _ ← peek then pure (some (← emptyNode))
        else pure (some (← nodeUnless fuel depthLimit ends true false))
    | _ => do
        modify fun b => { b with handles := defaultHandles }
        pure (some (← node fuel depthLimit true false))
  documentEnds fuel
  if ← ahead [.streamEnd] then return root
  documentStart fuel
  fail

end Build

/-- The only document of a text. -/
def Document.ofText (t : Text) : Except Misread (Option Document) := do
  let ts := Tokens.ofText t
  let start : Builder := { tokens := ts.list, failure := ts.failure }
  let (root, b) ← (Build.document (4 * ts.list.length + 8)).run start
  return root.map fun id => ⟨b.nodes, id, b.order, b.cyclic⟩

end Yaml

end DocRefs
