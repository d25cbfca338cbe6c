import DocRefs.Text.Printable

/-!
# Quoted texts

How a text is shown inside a list or a table of a log message: in single quotes, or in double quotes
when it holds single quotes only. Backslashes, the chosen quote and line controls are escaped, and
so is every unprintable character, by its code in two, four or eight hexadecimal digits.
-/

namespace DocRefs

namespace Text

/-- A number in lower-case hexadecimal, padded with zeros to `width`. -/
def hex (width n : Nat) : Text :=
  let digits := Nat.toDigits 16 n
  List.replicate (width - digits.length) '0' ++ digits

/-- How a character is shown between the given quotes. -/
def quoteChar (quote c : Char) : Text :=
  if c = quote || c = '\\' then ['\\', c]
  else if c = '\n' then ['\\', 'n']
  else if c = '\r' then ['\\', 'r']
  else if c = '\t' then ['\\', 't']
  else if isPrintable c then [c]
  else if c.toNat < 0x100 then '\\' :: 'x' :: hex 2 c.toNat
  else if c.toNat < 0x10000 then '\\' :: 'u' :: hex 4 c.toNat
  else '\\' :: 'U' :: hex 8 c.toNat

/-- A text between quotes. -/
def quoted (t : Text) : Text :=
  let quote := if t.contains '\x27' && !t.contains '\x22' then '\x22' else '\x27'
  quote :: (t.flatMap (quoteChar quote) ++ [quote])

end Text

end DocRefs
