import WordPlaces.Fault

/-!
# Storage layout

Members are placed in declaration order by a cursor, the next free byte of the next free slot.
A member that does not fit what is left of the slot starts a new one, and a member that takes
whole slots ends its last one.

## Main definitions

* `StorageSize` — the slots a value takes and the bytes it takes in the last of them.
* `StorageOffset` — a slot, relative to the first, and a byte in it.
* `StorageOffset.fitted`, `StorageOffset.after` — one step of the cursor.
* `Layout`, `layoutOf` — the places of a sequence of members, and the slots they take.
-/

set_option autoImplicit false

namespace WordPlaces

/-- The room a value takes in storage. -/
structure StorageSize where
  slots : Nat
  /-- The bytes it takes of a slot it may share, 32 where it shares none. -/
  bytes : Nat
  deriving Repr, DecidableEq, Inhabited

/-- A place in storage: a slot, relative to the first slot of the whole, and the first byte in
it, counted from the least significant end. -/
structure StorageOffset where
  slot : Nat
  byte : Nat
  deriving Repr, DecidableEq, Inhabited

namespace StorageOffset

/-- The start of storage. -/
def zero : StorageOffset := ⟨0, 0⟩

/-- The start of the slot `count` slots on. -/
def skip (cursor : StorageOffset) (count : Nat) : Except Fault StorageOffset :=
  (checkedCount (cursor.slot + count)).map (⟨·, 0⟩)

/-- Where a member of `bytes` bytes goes: at the cursor, or in the next slot if it does not fit
what is left of this one. -/
def fitted (cursor : StorageOffset) (bytes : Nat) : Except Fault StorageOffset :=
  if 32 < cursor.byte + bytes then cursor.skip 1 else .ok cursor

/-- The cursor behind a member of the given size that was placed at `start`. -/
def after (start : StorageOffset) (size : StorageSize) : Except Fault StorageOffset :=
  if size.slots = 1 ∧ start.byte + size.bytes < 32 then .ok ⟨start.slot, start.byte + size.bytes⟩
  else start.skip size.slots

end StorageOffset

/-- The places of the members, in order, and the number of slots they take together. -/
structure Layout where
  offsets : List StorageOffset
  slots : Nat
  deriving Repr, DecidableEq, Inhabited

/-- Places members of the given sizes from the cursor on. -/
def layoutFrom (cursor : StorageOffset) : List StorageSize → Except Fault Layout
  | [] => do
    let last ← if cursor.byte = 0 then .ok cursor else cursor.skip 1
    return ⟨[], last.slot⟩
  | size :: sizes => do
    if size.slots = 0 then throw .emptyMember
    let start ← cursor.fitted size.bytes
    let next ← start.after size
    let rest ← layoutFrom next sizes
    return { rest with offsets := start :: rest.offsets }

/-- Places members of the given sizes from the start of storage on. -/
def layoutOf (sizes : List StorageSize) : Except Fault Layout := layoutFrom .zero sizes

end WordPlaces
