import WordPlaces.Word

/-!
# Storage maps

A storage address space maps words to words.  Every key is zero until it is written; the keys
that were written are kept in increasing order.

## Main definitions

* `WordMap` — the written keys with their values.
* `WordMap.read`, `WordMap.write` — access by key.

## Main results

* `WordMap.read_write` — a write changes what is read under its own key and under no other.
-/

set_option autoImplicit false

namespace WordPlaces

/-- The keys that were written, in increasing order, with their values. -/
structure WordMap where
  entries : List (Word × Word) := []
  deriving Repr, DecidableEq, Inhabited

namespace WordMap

/-- The value under a key, zero if it was never written. -/
def read (m : WordMap) (key : Word) : Word := (m.entries.lookup key).getD 0

/-- Puts an entry in its place in a list with increasing keys. -/
def insertEntry (key value : Word) : List (Word × Word) → List (Word × Word)
  | [] => [(key, value)]
  | (k, v) :: rest =>
    if key < k then (key, value) :: (k, v) :: rest
    else if key = k then (key, value) :: rest
    else (k, v) :: insertEntry key value rest

/-- Writes the value under a key. -/
def write (m : WordMap) (key value : Word) : WordMap := ⟨insertEntry key value m.entries⟩

/-- The map with the given entries; of two under one key the later holds. -/
def ofList (entries : List (Word × Word)) : WordMap :=
  entries.foldl (fun m e => m.write e.1 e.2) {}

/-- Looking up a key in a list of entries, one entry at a time. -/
theorem lookup_cons (k key value : Word) (entries : List (Word × Word)) :
    ((key, value) :: entries).lookup k = if k = key then some value else entries.lookup k := by
  by_cases h : k = key
  · simp [h]
  · rw [List.lookup_cons, beq_eq_false_iff_ne.2 h, if_neg h]

/-- The entry put in place is found, and the others are found as before. -/
theorem lookup_insertEntry (key value k : Word) (entries : List (Word × Word)) :
    (insertEntry key value entries).lookup k =
      if k = key then some value else entries.lookup k := by
  induction entries with
  | nil => rw [insertEntry, lookup_cons]
  | cons e rest ih =>
    obtain ⟨k', v⟩ := e
    rw [insertEntry]
    split
    · rw [lookup_cons]
    · split
      · next h => rw [lookup_cons, lookup_cons, h]; split <;> rfl
      · next h =>
        rw [lookup_cons, lookup_cons, ih]
        split
        · next hk => rw [if_neg fun hk' => h (hk'.symm.trans hk)]
        · rfl

/-- A write changes what is read under its own key and under no other. -/
theorem read_write (m : WordMap) (key value k : Word) :
    (m.write key value).read k = if k = key then value else m.read k := by
  rw [read, write, lookup_insertEntry, read]
  split <;> rfl

end WordMap

end WordPlaces
