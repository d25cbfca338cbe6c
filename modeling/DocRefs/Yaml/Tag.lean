import DocRefs.Text.Numeral

/-!
# Tags of YAML

The tags of the core vocabulary, and the tag that a scalar has by its text when none is written.
-/

namespace DocRefs

namespace Yaml

/-- A tag of the core vocabulary. -/
def coreTag (name : String) : Text := "tag:yaml.org,2002:".toList ++ name.toList

/-- Whether a tag is the one of the core vocabulary with a name. -/
def isCore (name : String) (tag : Text) : Bool := tag = coreTag name

/-- The words for nothing. -/
def nullWords : List String := ["~", "null", "Null", "NULL"]

/-- The words for truth. -/
def trueWords : List String := ["yes", "Yes", "YES", "true", "True", "TRUE", "on", "On", "ON"]

/-- The words for falsehood. -/
def falseWords : List String := ["no", "No", "NO", "false", "False", "FALSE", "off", "Off", "OFF"]

/-- Whether a character is a decimal digit or an underscore between digits. -/
def isSpacedDigit (c : Char) : Bool := c.isDigit || c = '_'

/-- A text without its sign. -/
def unsigned : Text → Text
  | '+' :: t => t
  | '-' :: t => t
  | t => t

/-- Whether a text is a digit and then digits and underscores. -/
def isSpacedNumber : Text → Bool
  | [] => false
  | c :: cs => c.isDigit && cs.all isSpacedDigit

/-- Whether a text is one digit of base sixty. -/
def isSixtieth : Text → Bool
  | [d] => d.isDigit
  | [c, d] => decide ('0' ≤ c) && decide (c ≤ '5') && d.isDigit
  | _ => false

/-- Whether a text is a number in base sixty with at least two digits. -/
def isSexagesimal (t : Text) : Bool :=
  match Text.splitOn ':' t with
  | first :: p :: ps => isSpacedNumber first && (p :: ps).all isSixtieth
  | _ => false

/-- Whether a text is an exponent, or nothing. -/
def isExponent : Text → Bool
  | [] => true
  | e :: s :: ds =>
      (e = 'e' || e = 'E') && (s = '+' || s = '-') && !ds.isEmpty && ds.all Char.isDigit
  | _ => false

/-- Whether a plain scalar is a decimal number. -/
def isFloatText (t : Text) : Bool :=
  let body := unsigned t
  let fractional : Bool :=
    match Text.cut? ['.'] body with
    | none => false
    | some (whole, rest) =>
        let after := rest.dropWhile isSpacedDigit
        (isSpacedNumber whole && isExponent after)
          || (isSexagesimal whole && after.isEmpty)
          || (t.head? == some '.' && whole.isEmpty && rest.head?.any Char.isDigit
                && isExponent after)
  fractional || [".inf", ".Inf", ".INF"].any (·.toList == body)
    || [".nan", ".NaN", ".NAN"].any (·.toList == t)

/-- Whether a plain scalar is a whole number. -/
def isIntText (t : Text) : Bool :=
  match unsigned t with
  | ['0'] => true
  | '0' :: 'b' :: ds => !ds.isEmpty && ds.all fun c => c = '0' || c = '1' || c = '_'
  | '0' :: 'x' :: ds => !ds.isEmpty && ds.all fun c => (Text.hexValue? c).isSome || c = '_'
  | '0' :: ds => !ds.isEmpty && ds.all fun c => (decide ('0' ≤ c) && decide (c ≤ '7')) || c = '_'
  | body => isSpacedNumber body || isSexagesimal body

/-- A point in time as it is written: date, time of day with fraction of a second, and offset. -/
structure Stamp where
  year : Nat
  month : Nat
  day : Nat
  /-- Hour, minute and second. -/
  time : Option (Nat × Nat × Nat)
  /-- The offset from universal time in minutes, without its sign. -/
  offset : Option Nat
  /-- Whether month and day have two digits each. -/
  padded : Bool

/-- One or two digits at the start of a text, their value and the rest. -/
def shortNumber? (t : Text) : Option (Nat × Nat × Text) :=
  let ds := (t.take 2).takeWhile Char.isDigit
  if ds.isEmpty then none else some (Text.digitsValue ds, ds.length, t.drop ds.length)

/-- Exactly `n` digits at the start of a text, their value and the rest. -/
def exactNumber? (n : Nat) (t : Text) : Option (Nat × Text) :=
  let ds := t.take n
  if ds.length = n && ds.all Char.isDigit then some (Text.digitsValue ds, t.drop n) else none

/-- The offset at the end of a point in time. -/
def stampOffset? (t : Text) : Option (Option Nat) :=
  match t.dropWhile fun c => c = ' ' || c = '\t' with
  | [] => if t.isEmpty then some none else none
  | ['Z'] => some (some 0)
  | s :: rest =>
      if s = '+' || s = '-' then do
        let (hours, _, rest) ← shortNumber? rest
        match rest with
        | [] => return some (hours * 60)
        | ':' :: rest =>
            let (minutes, rest) ← exactNumber? 2 rest
            if rest.isEmpty then return some (hours * 60 + minutes) else none
        | _ => none
      else none

/-- Reads a point in time. -/
def stamp? (t : Text) : Option Stamp := do
  let (year, t) ← exactNumber? 4 t
  let t ← Text.after? ['-'] t
  let (month, monthDigits, t) ← shortNumber? t
  let t ← Text.after? ['-'] t
  let (day, dayDigits, t) ← shortNumber? t
  let padded := monthDigits = 2 && dayDigits = 2
  match t with
  | [] => return ⟨year, month, day, none, none, padded⟩
  | c :: cs =>
      let t ←
        if c = 'T' || c = 't' then some cs
        else if c = ' ' || c = '\t' then some (cs.dropWhile fun c => c = ' ' || c = '\t')
        else none
      let (hour, _, t) ← shortNumber? t
      let t ← Text.after? [':'] t
      let (minute, t) ← exactNumber? 2 t
      let t ← Text.after? [':'] t
      let (second, t) ← exactNumber? 2 t
      let t :=
        match t with
        | '.' :: rest => rest.dropWhile Char.isDigit
        | t => t
      let offset ← stampOffset? t
      return ⟨year, month, day, some (hour, minute, second), offset, padded⟩

/-- Whether a plain scalar is a point in time: a date alone has two digits for month and day. -/
def isStampText (t : Text) : Bool := (stamp? t).any fun s => s.time.isSome || s.padded

/-- The tag that a scalar has by its text; one line feed at the end does not count. -/
def plainTag (t : Text) : Text :=
  let body := Text.chomped t
  let is (words : List String) : Bool := words.any (·.toList == body)
  if is (trueWords ++ falseWords) then coreTag "bool"
  else if isFloatText body then coreTag "float"
  else if isIntText body then coreTag "int"
  else if is ["<<"] then coreTag "merge"
  else if t.isEmpty || is nullWords then coreTag "null"
  else if isStampText body then coreTag "timestamp"
  else if is ["="] then coreTag "value"
  else if is ["!", "&", "*"] then coreTag "yaml"
  else coreTag "str"

end Yaml

end DocRefs
