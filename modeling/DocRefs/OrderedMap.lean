/-!
# Ordered maps

Maps as lists of pairs in the order in which their keys first appeared.
-/

namespace DocRefs

/-- A map that remembers the order of its keys. -/
abbrev OrderedMap (κ α : Type) := List (κ × α)

namespace OrderedMap

variable {κ α : Type} [DecidableEq κ]

/-- The value under a key. -/
def get? (key : κ) (m : OrderedMap κ α) : Option α := (m.find? fun e => e.1 = key).map (·.2)

/-- The map with a value under a key: in the place of the key if it is there, at the end
otherwise. -/
def put (key : κ) (value : α) : OrderedMap κ α → OrderedMap κ α
  | [] => [(key, value)]
  | (k, v) :: es => if k = key then (k, value) :: es else (k, v) :: put key value es

/-- The map that putting pairs in one after the other gives. -/
def ofPairs (pairs : List (κ × α)) : OrderedMap κ α := pairs.foldl (fun m e => put e.1 e.2 m) []

/-- The keys, in order. -/
def keys (m : OrderedMap κ α) : List κ := m.map (·.1)

@[simp] theorem get?_nil (key : κ) : get? key ([] : OrderedMap κ α) = none := rfl

theorem get?_put (m : OrderedMap κ α) (key other : κ) (value : α) :
    get? other (put key value m) = if key = other then some value else get? other m := by
  induction m with
  | nil => by_cases h : key = other <;> simp [put, get?, h]
  | cons e es ih =>
      obtain ⟨k, v⟩ := e
      by_cases hk : k = key
      · subst hk
        by_cases h : k = other <;> simp [put, get?, h]
      · by_cases h : k = other
        · subst h
          simp [put, get?, hk, Ne.symm hk]
        · simpa [put, get?, hk, h] using ih

end OrderedMap

end DocRefs
