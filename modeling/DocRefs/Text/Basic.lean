/-!
# Texts

A text is a list of code points, so every offset counts code points and every scan is a recursion
on the characters that remain. This module holds the order of texts, the search for a word inside
a text, and the cutting and joining that the rest of the library is built from.
-/

namespace DocRefs

/-- A sequence of code points. -/
abbrev Text := List Char

namespace Text

/-- The code-point order, first difference first, a proper beginning before its extensions. -/
def le : Text → Text → Bool
  | [], _ => true
  | _ :: _, [] => false
  | a :: as, b :: bs => if a = b then le as bs else decide (a.toNat < b.toNat)

@[simp] theorem le_refl (t : Text) : le t t = true := by
  induction t with
  | nil => rfl
  | cons c t ih => simp [le, ih]

/-- What follows `word`, when the text begins with it. -/
def after? : (word : Text) → Text → Option Text
  | [], t => some t
  | _ :: _, [] => none
  | w :: ws, c :: cs => if w = c then after? ws cs else none

theorem after?_eq_some_iff {word t rest : Text} :
    after? word t = some rest ↔ t = word ++ rest := by
  induction word generalizing t with
  | nil => simp [after?, eq_comm]
  | cons w ws ih =>
      cases t with
      | nil => simp [after?]
      | cons c cs =>
          by_cases h : w = c
          · simp [after?, h, ih]
          · simp [after?, h, Ne.symm h]

theorem length_lt_of_after? {w : Char} {ws t rest : Text} (h : after? (w :: ws) t = some rest) :
    rest.length < t.length := by
  rw [after?_eq_some_iff.mp h, List.length_append, List.length_cons]
  omega

/-- Whether the text begins with `word`. -/
def startsWith (t word : Text) : Bool := (after? word t).isSome

/-- Whether the text ends with `word`. -/
def endsWith (t word : Text) : Bool := (after? word.reverse t.reverse).isSome

/-- The text before and after the first occurrence of `word`. -/
def cut? (word : Text) : Text → Option (Text × Text)
  | [] => if word.isEmpty then some ([], []) else none
  | c :: cs =>
      match after? word (c :: cs) with
      | some rest => some ([], rest)
      | none => (cut? word cs).map fun p => (c :: p.1, p.2)

/-- Cutting loses nothing: the parts and the word between them are the text. -/
theorem eq_of_cut? {word t before rest : Text} (h : cut? word t = some (before, rest)) :
    t = before ++ word ++ rest := by
  induction t generalizing before with
  | nil =>
      by_cases hw : word = []
      · simp_all [cut?]
      · simp [cut?, hw] at h
  | cons c cs ih =>
      unfold cut? at h
      split at h
      next r hr =>
        have := after?_eq_some_iff.mp hr
        simp_all
      next =>
        obtain ⟨p, hp, hq⟩ := Option.map_eq_some_iff.mp h
        simp only [Prod.mk.injEq] at hq
        obtain ⟨rfl, rfl⟩ := hq
        simpa using ih hp

theorem length_lt_of_cut? {w : Char} {ws t before rest : Text}
    (h : cut? (w :: ws) t = some (before, rest)) : rest.length < t.length := by
  rw [eq_of_cut? h, List.length_append, List.length_append, List.length_cons]
  omega

/-- The characters from offset `start` up to `stop`; empty when the span is reversed, clipped at
the end of the text. -/
def slice (t : Text) (start stop : Nat) : Text := (t.drop start).take (stop - start)

/-- The pieces between the occurrences of `sep`; there is always one more piece than separators. -/
def splitOn (sep : Char) : Text → List Text
  | [] => [[]]
  | c :: cs =>
      if c = sep then [] :: splitOn sep cs
      else
        match splitOn sep cs with
        | [] => [[c]]
        | p :: ps => (c :: p) :: ps

/-- The pieces in a row with `sep` between them. -/
def join (sep : Text) : List Text → Text
  | [] => []
  | [t] => t
  | t :: ts => t ++ sep ++ join sep ts

/-- A text without the line feed at its end, if it has one. -/
def chomped (t : Text) : Text := if t.getLast? = some '\n' then t.dropLast else t

/-- The texts in code-point order, repetitions kept. -/
def sort (ts : List Text) : List Text := ts.mergeSort le

/-- The first of every run of equal neighbours. -/
def dropRepeats : List Text → List Text
  | [] => []
  | [t] => [t]
  | t :: u :: ts => if t = u then dropRepeats (u :: ts) else t :: dropRepeats (u :: ts)

/-- The different texts of a list, in code-point order. -/
def sortedSet (ts : List Text) : List Text := dropRepeats (sort ts)

/-- A number in decimal digits. -/
def ofNat (n : Nat) : Text := (Nat.repr n).toList

/-- A number in decimal digits, with a minus sign when negative. -/
def ofInt : Int → Text
  | .ofNat n => ofNat n
  | .negSucc n => '-' :: ofNat (n + 1)

end Text

end DocRefs
