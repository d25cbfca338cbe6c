import DocRefs.Failure

/-!
# Texts on a disk

Reading a file as text and writing a text to a file in an encoding given by name. A name of the
wrong kind is refused before the disk is touched; an unknown name is noticed only after the file is
open, so a write has then already emptied it.
-/

namespace DocRefs

/-- The word for the encoding of the system. -/
def Encoding.systemWord : Text := "locale".toList

/-- The encoding that a setting names. No name at all means the encoding of the system, as does its
word, and that is UTF-8. -/
def Encoding.ofValue : Value → Except Failure Encoding
  | .null => .ok .utf8
  | .text name =>
      match if name = systemWord then some utf8 else Encoding.ofName? name with
      | some e => .ok e
      | none => .error .unknownEncoding
  | _ => .error .wrongKind

/-- What can be said against a name of an encoding without looking it up. -/
def Encoding.objection? : Value → Option Failure
  | .null => none
  | .text name => if name.contains '\x00' then some .badValue else none
  | _ => some .wrongKind

namespace Disk

/-- The text of a file, its line endings folded. -/
def readText (d : Disk) (encoding : Value) (p : Path) : Except Failure Text :=
  match Encoding.objection? encoding with
  | some e => .error e
  | none =>
      match d.read (Route.ofPath p).toPath with
      | .error why => .error (.disk why)
      | .ok content => do
          match (← Encoding.ofValue encoding).decode content with
          | none => throw .undecodable
          | some t => return foldNewlines t

/-- Writes a text to a file. The file is emptied before the text is encoded. -/
def writeText (d : Disk) (encoding : Value) (p : Path) (t : Text) : Option Failure × Disk :=
  match Encoding.objection? encoding with
  | some e => (some e, d)
  | none =>
      match d.write p [] with
      | .error why => (some (.disk why), d)
      | .ok emptied =>
          match Encoding.ofValue encoding with
          | .error e => (some e, emptied)
          | .ok enc =>
              match enc.encode t with
              | none => (some .unencodable, emptied)
              | some content =>
                  match d.write p content with
                  | .error why => (some (.disk why), emptied)
                  | .ok written => (none, written)

/-- The names in a directory, sorted; a directory that is missing has none. -/
def listOrEmpty (d : Disk) (p : Path) : Except Failure (List Text) :=
  match d.list p with
  | .ok names => .ok names
  | .error .notFound => .ok []
  | .error .notADirectory => .ok []
  | .error why => .error (.disk why)

end Disk

end DocRefs
