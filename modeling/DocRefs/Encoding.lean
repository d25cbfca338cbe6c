import DocRefs.Text.Basic

/-!
# Encodings

Four encodings of source files, their names, and reading and writing texts with them; the names of
all others are unknown. UTF-8 is read strictly: overlong forms, surrogates and truncated sequences
are errors. Reading a source also folds the three line endings into one; writing leaves line endings
alone.
-/

namespace DocRefs

/-- The content of a file. -/
abbrev Bytes := List UInt8

/-- The supported encodings. -/
inductive Encoding
  | utf8
  /-- UTF-8 behind a byte order mark. -/
  | utf8Marked
  | latin1
  | ascii
  deriving DecidableEq, Repr

namespace Encoding

/-- The canonical form of an encoding's name: ASCII letters in lower case, digits and dots, and one
underscore for every run of other characters between them. -/
def normalizeName (name : Text) : Text := go false [] name
where
  /-- `gap` tells that other characters were passed, `out` holds those kept, the last first. -/
  go (gap : Bool) (out : Text) : Text → Text
    | [] => out.reverse
    | c :: cs =>
        if c.isAlphanum || c = '.' then
          go false (c.toLower :: (if gap && !out.isEmpty then '_' :: out else out)) cs
        else go true out cs

/-- The encodings' own names in canonical form. -/
def properNames : List (String × Encoding) :=
  [("utf_8", utf8), ("utf_8_sig", utf8Marked), ("latin_1", latin1), ("ascii", ascii)]

/-- Further names of the encodings in canonical form; a dot in a name may stand for an underscore
here. -/
def aliases : List (String × Encoding) := [
  ("u8", utf8), ("utf", utf8), ("utf8", utf8), ("utf8_ucs2", utf8), ("utf8_ucs4", utf8),
  ("cp65001", utf8),
  ("8859", latin1), ("cp819", latin1), ("csisolatin1", latin1), ("ibm819", latin1),
  ("iso8859", latin1), ("iso8859_1", latin1), ("iso_8859_1", latin1), ("iso_8859_1_1987", latin1),
  ("iso_ir_100", latin1), ("l1", latin1), ("latin", latin1), ("latin1", latin1),
  ("646", ascii), ("ansi_x3.4_1968", ascii), ("ansi_x3_4_1968", ascii), ("ansi_x3.4_1986", ascii),
  ("cp367", ascii), ("csascii", ascii), ("ibm367", ascii), ("iso646_us", ascii),
  ("iso_646.irv_1991", ascii), ("iso_ir_6", ascii), ("us", ascii), ("us_ascii", ascii)]

/-- The encoding with a name, in any spelling, if it is one of the four. -/
def ofName? (name : Text) : Option Encoding :=
  let canonical := normalizeName name
  let undotted := canonical.map fun c => if c = '.' then '_' else c
  let look (table : List (String × Encoding)) (key : Text) : Option Encoding :=
    (table.find? fun p => p.1.toList = key).map (·.2)
  (look aliases canonical <|> look aliases undotted) <|> look properNames canonical

/-- The byte order mark as bytes. -/
def mark : Bytes := [0xEF, 0xBB, 0xBF]

/-- The payload of a continuation byte in the given range. -/
def continuation? (lo hi : Nat) (b : UInt8) : Option Nat :=
  if lo ≤ b.toNat ∧ b.toNat ≤ hi then some (b.toNat - 0x80) else none

/-- Reads strict UTF-8. -/
def decodeUtf8 : Bytes → Option Text
  | [] => some []
  | b :: bs =>
      let n := b.toNat
      if n < 0x80 then (decodeUtf8 bs).map (Char.ofNat n :: ·)
      else if 0xC2 ≤ n ∧ n ≤ 0xDF then
        match bs with
        | b₁ :: rest => do
            let x ← continuation? 0x80 0xBF b₁
            let t ← decodeUtf8 rest
            return Char.ofNat ((n - 0xC0) * 0x40 + x) :: t
        | _ => none
      else if 0xE0 ≤ n ∧ n ≤ 0xEF then
        match bs with
        | b₁ :: b₂ :: rest => do
            let x ← continuation? (if n = 0xE0 then 0xA0 else 0x80)
              (if n = 0xED then 0x9F else 0xBF) b₁
            let y ← continuation? 0x80 0xBF b₂
            let t ← decodeUtf8 rest
            return Char.ofNat (((n - 0xE0) * 0x40 + x) * 0x40 + y) :: t
        | _ => none
      else if 0xF0 ≤ n ∧ n ≤ 0xF4 then
        match bs with
        | b₁ :: b₂ :: b₃ :: rest => do
            let x ← continuation? (if n = 0xF0 then 0x90 else 0x80)
              (if n = 0xF4 then 0x8F else 0xBF) b₁
            let y ← continuation? 0x80 0xBF b₂
            let z ← continuation? 0x80 0xBF b₃
            let t ← decodeUtf8 rest
            return Char.ofNat ((((n - 0xF0) * 0x40 + x) * 0x40 + y) * 0x40 + z) :: t
        | _ => none
      else none

/-- The UTF-8 bytes of a character. -/
def encodeChar (c : Char) : Bytes :=
  let n := c.toNat
  if n < 0x80 then [UInt8.ofNat n]
  else if n < 0x800 then [UInt8.ofNat (0xC0 + n / 0x40), UInt8.ofNat (0x80 + n % 0x40)]
  else if n < 0x10000 then
    [UInt8.ofNat (0xE0 + n / 0x1000), UInt8.ofNat (0x80 + n / 0x40 % 0x40),
      UInt8.ofNat (0x80 + n % 0x40)]
  else
    [UInt8.ofNat (0xF0 + n / 0x40000), UInt8.ofNat (0x80 + n / 0x1000 % 0x40),
      UInt8.ofNat (0x80 + n / 0x40 % 0x40), UInt8.ofNat (0x80 + n % 0x40)]

/-- Writes UTF-8. -/
def encodeUtf8 (t : Text) : Bytes := t.flatMap encodeChar

/-- Reads bytes as one character each, all below `bound`. -/
def decodeNarrow (bound : Nat) (bs : Bytes) : Option Text :=
  bs.mapM fun b => if b.toNat < bound then some (Char.ofNat b.toNat) else none

/-- Writes characters as one byte each, all below `bound`. -/
def encodeNarrow (bound : Nat) (t : Text) : Option Bytes :=
  t.mapM fun c => if c.toNat < bound then some (UInt8.ofNat c.toNat) else none

/-- The text that bytes stand for. With a mark, one leading mark is dropped, and bytes that are only
the beginning of a mark stand for nothing. -/
def decode : Encoding → Bytes → Option Text
  | utf8, bs => decodeUtf8 bs
  | utf8Marked, bs =>
      match bs with
      | 0xEF :: 0xBB :: 0xBF :: rest => decodeUtf8 rest
      | [0xEF, 0xBB] => some []
      | [0xEF] => some []
      | _ => decodeUtf8 bs
  | latin1, bs => decodeNarrow 0x100 bs
  | ascii, bs => decodeNarrow 0x80 bs

/-- The bytes that stand for a text. -/
def encode : Encoding → Text → Option Bytes
  | utf8, t => some (encodeUtf8 t)
  | utf8Marked, t => some (mark ++ encodeUtf8 t)
  | latin1, t => encodeNarrow 0x100 t
  | ascii, t => encodeNarrow 0x80 t

end Encoding

/-- Every line ending, `\r\n`, `\r` or `\n`, as `\n`. -/
def foldNewlines : Text → Text
  | [] => []
  | '\r' :: '\n' :: cs => '\n' :: foldNewlines cs
  | '\r' :: cs => '\n' :: foldNewlines cs
  | c :: cs => c :: foldNewlines cs

end DocRefs
