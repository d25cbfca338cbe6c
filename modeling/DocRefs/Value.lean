import DocRefs.Double.Shortest
import DocRefs.Encoding
import DocRefs.Text.Quoted

/-!
# Values

The values that a configuration file can hold. Settings are read from them, and the settings that a
run does not look at pass through as they are.
-/

namespace DocRefs

/-- A configuration value. -/
inductive Value
  | null
  | bool (b : Bool)
  | int (n : Int)
  | real (x : Double)
  | text (t : Text)
  | list (vs : List Value)
  /-- A table in the order of its keys' first appearance. -/
  | map (entries : List (Value × Value))
  | set (vs : List Value)
  | pair (a b : Value)
  | binary (content : Bytes)
  /-- A calendar day. -/
  | date
  /-- A point in time. -/
  | moment
  deriving Repr, Inhabited

namespace Value

mutual

/-- Whether two values are of one kind and hold the same. -/
def beq : Value → Value → Bool
  | null, null => true
  | bool a, bool b => a == b
  | int m, int n => m == n
  | real x, real y => x == y
  | text t, text u => t == u
  | list vs, list ws => beqAll vs ws
  | map es, map fs => beqEntries es fs
  | set vs, set ws => beqAll vs ws
  | pair a b, pair c d => beq a c && beq b d
  | binary bs, binary cs => bs == cs
  | date, date => true
  | moment, moment => true
  | _, _ => false

/-- Whether two lists hold the same values in the same order. -/
def beqAll : List Value → List Value → Bool
  | [], [] => true
  | v :: vs, w :: ws => beq v w && beqAll vs ws
  | _, _ => false

/-- Whether two tables hold the same entries in the same order. -/
def beqEntries : List (Value × Value) → List (Value × Value) → Bool
  | [], [] => true
  | (k, v) :: es, (l, w) :: fs => beq k l && beq v w && beqEntries es fs
  | _, _ => false

end

instance : BEq Value := ⟨beq⟩

/-- The name of a value's kind, as messages give it. -/
def kind : Value → String
  | null => "NoneType"
  | bool _ => "bool"
  | int _ => "int"
  | real _ => "float"
  | text _ => "str"
  | list _ => "list"
  | map _ => "dict"
  | set _ => "set"
  | pair _ _ => "tuple"
  | binary _ => "bytes"
  | date => "date"
  | moment => "datetime"

/-- Whether a value counts as present: zero, the empty text and empty collections do not. -/
def isPresent : Value → Bool
  | null => false
  | bool b => b
  | int n => n != 0
  | real x => !x.isZero
  | text t => !t.isEmpty
  | list vs => !vs.isEmpty
  | map es => !es.isEmpty
  | set vs => !vs.isEmpty
  | pair _ _ => true
  | binary bs => !bs.isEmpty
  | date => true
  | moment => true

/-- The values that a value runs through one by one: the characters of a text, the keys of a
table. -/
def elements? : Value → Option (List Value)
  | text t => some (t.map fun c => text [c])
  | list vs => some vs
  | map es => some (es.map (·.1))
  | set vs => some vs
  | pair a b => some [a, b]
  | binary bs => some (bs.map fun b => int b.toNat)
  | _ => none

/-- The text that a value is, if it is one. -/
def text? : Value → Option Text
  | text t => some t
  | _ => none

/-- Whether a value can be a key: collections that can change cannot. -/
def isKey : Value → Bool
  | list _ => false
  | map _ => false
  | set _ => false
  | pair a b => a.isKey && b.isKey
  | _ => true

/-- What a number denotes, in units of `Double`; a truth value is zero or one. -/
def units? : Value → Option Int
  | bool b => some (if b then Int.ofNat Double.one else 0)
  | int n => some (n * Int.ofNat Double.one)
  | real (.finite negative u) => some (if negative then -Int.ofNat u else Int.ofNat u)
  | _ => none

/-- Whether two values are the same key. Numbers are compared by what they denote, and the undefined
number differs from itself. -/
def sameKey (a b : Value) : Bool :=
  match a, b with
  | text s, text t => s == t
  | real .undefined, _ => false
  | _, _ =>
      match a.units?, b.units? with
      | some m, some n => m == n
      | none, none => a == b
      | _, _ => false

/-- The table with something under a key: in the place of the key if it is there, at the end
otherwise. -/
def insert {α : Type} (key : Value) (a : α) : List (Value × α) → List (Value × α)
  | [] => [(key, a)]
  | (k, b) :: es => if sameKey k key then (k, a) :: es else (k, b) :: insert key a es

/-- The value under a text key. -/
def lookup? (key : Text) (entries : List (Value × Value)) : Option Value :=
  (entries.find? fun e => e.1 == text key).map (·.2)

mutual

/-- How a value is shown inside another one. -/
def quoted : Value → Text
  | null => "None".toList
  | bool true => "True".toList
  | bool false => "False".toList
  | int n => Text.ofInt n
  | real x => x.toText
  | text t => Text.quoted t
  | list vs => '[' :: (Text.join [',', ' '] (quotedAll vs) ++ [']'])
  | map es => '{' :: (Text.join [',', ' '] (quotedEntries es) ++ ['}'])
  | set vs => '{' :: (Text.join [',', ' '] (quotedAll vs) ++ ['}'])
  | pair a b => '(' :: (quoted a ++ [',', ' '] ++ quoted b ++ [')'])
  | binary _ => "bytes".toList
  | date => "date".toList
  | moment => "datetime".toList

/-- How the values of a list are shown. -/
def quotedAll : List Value → List Text
  | [] => []
  | v :: vs => quoted v :: quotedAll vs

/-- How the entries of a table are shown. -/
def quotedEntries : List (Value × Value) → List Text
  | [] => []
  | (k, v) :: es => (quoted k ++ [':', ' '] ++ quoted v) :: quotedEntries es

end

/-- How a value is shown on its own: a text as it is. -/
def shown : Value → Text
  | text t => t
  | v => quoted v

mutual

/-- Whether a value nests collections no deeper than a limit. -/
def nestsWithin (limit : Nat) : Value → Bool
  | list vs => limit != 0 && allNestWithin (limit - 1) vs
  | map es => limit != 0 && entriesNestWithin (limit - 1) es
  | pair a b => limit != 0 && a.nestsWithin (limit - 1) && b.nestsWithin (limit - 1)
  | _ => true

/-- Whether the values of a list nest no deeper than a limit. -/
def allNestWithin (limit : Nat) : List Value → Bool
  | [] => true
  | v :: vs => v.nestsWithin limit && allNestWithin limit vs

/-- Whether the values of a table nest no deeper than a limit. -/
def entriesNestWithin (limit : Nat) : List (Value × Value) → Bool
  | [] => true
  | (k, v) :: es => k.nestsWithin limit && v.nestsWithin limit && entriesNestWithin limit es

end

/-- A list of texts as a value. -/
def texts (ts : List Text) : Value := list (ts.map text)

end Value

end DocRefs
