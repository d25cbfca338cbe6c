import DocRefs.Text.Basic

/-!
# Doc comments

A doc comment runs from `/**` to the next `*/`. The four characters `/**/` are an empty plain
comment, and a block that is never closed ends the search.
-/

namespace DocRefs

/-- A doc comment and its span in the text around it. -/
structure DocComment where
  start : Nat
  stop : Nat
  text : Text
  deriving DecidableEq, Repr

namespace DocComment

/-- The two characters that close a comment. -/
def close : Text := ['*', '/']

/-- The doc comments of a text that stands at `offset`. -/
def scanFrom (offset : Nat) : Text → List DocComment
  | [] => []
  | '/' :: '*' :: '*' :: '/' :: rest => scanFrom (offset + 4) rest
  | '/' :: '*' :: '*' :: rest =>
      match h : Text.cut? close rest with
      | none => []
      | some (body, after) =>
          have : after.length < rest.length := Text.length_lt_of_cut? h
          let text := '/' :: '*' :: '*' :: (body ++ close)
          ⟨offset, offset + text.length, text⟩ :: scanFrom (offset + text.length) after
  | _ :: rest => scanFrom (offset + 1) rest
termination_by t => t.length
decreasing_by all_goals (simp only [List.length_cons] at *; omega)

/-- The doc comments of a text, in order. -/
def scan (t : Text) : List DocComment := scanFrom 0 t

end DocComment

end DocRefs
