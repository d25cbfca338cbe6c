import DocRefs.Text.Basic

/-!
# Splicing

Replaces spans of a text in one pass, in the order of the spans.
-/

namespace DocRefs

/-- A span of a text and what is put in its place. -/
structure Replacement where
  start : Nat
  stop : Nat
  text : Text
  deriving DecidableEq, Repr

namespace Replacement

/-- The order in which replacements are applied: by start, then by end, then by the new text. -/
def le (a b : Replacement) : Bool :=
  if a.start = b.start then
    if a.stop = b.stop then Text.le a.text b.text else decide (a.stop < b.stop)
  else decide (a.start < b.start)

/-- The text from offset `last` on, with the replacements applied from left to right. -/
def splice.go (t : Text) (last : Nat) : List Replacement → Text
  | [] => t.drop last
  | r :: rs => Text.slice t last r.start ++ r.text ++ splice.go t r.stop rs

/-- The text with every span replaced. Spans past the end are clipped, and where a span begins
before the end of the one in front of it nothing is kept between them. -/
def splice (t : Text) (rs : List Replacement) : Text :=
  splice.go t 0 (rs.mergeSort le)

@[simp] theorem splice_nil (t : Text) : splice t [] = t := by
  simp [splice, splice.go]

end Replacement

end DocRefs
