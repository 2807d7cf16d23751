import WordPlaces.Assembly
import WordPlaces.Emit.Basic

/-!
# Moving blocks on the stack

Stack instructions reach the sixteen topmost slots.  An access beyond them rejects the unit.

## Main definitions

* `dupSlot`, `swapSlot` — the checked stack instructions.
* `copyToTop` — copies a block of slots to the top.
* `moveInto`, `moveToTop` — exchange the two topmost blocks.
* `rotateUp`, `rotateDown` — cyclic shifts of the topmost slots.
-/

set_option autoImplicit false

namespace WordPlaces

/-- A depth that stack instructions reach. -/
def reachable (depth : Nat) : Emit Unit :=
  if depth = 0 then fault .depthZero
  else if stackWindow < depth then reject (.stackTooDeep depth)
  else pure ()

/-- Copies the slot at `depth`, counted from one at the top. -/
def dupSlot (depth : Nat) : Emit Unit := do
  reachable depth
  emit (.dup depth)

/-- Exchanges the top with the slot `depth` below it. -/
def swapSlot (depth : Nat) : Emit Unit := do
  reachable depth
  emit (.swap depth)

/-- Drops slots from the top. -/
def popSlots (count : Nat) : Emit Unit := repeatEmit count (emit .pop)

/-- Drops a value of the given type from the top. -/
def popElement (ty : Ty) : Emit Unit := popSlots ty.sizeOnStack

/-- Copies the `size` slots that start at `depth` onto the top. -/
def copyToTop (depth size : Nat) : Emit Unit := repeatEmit size (dupSlot depth)

/-- Exchanges the top with the slots `depth`, `depth + 1`, … below it in turn, `count` times. -/
def swapsFrom (depth count : Nat) : Emit Unit :=
  match count with
  | 0 => pure ()
  | count + 1 => do
    swapSlot depth
    swapsFrom (depth + 1) count

/-- Exchanges the top with the slots `depth`, `depth - 1`, …, one below it in turn. -/
def swapsDownFrom : Nat → Emit Unit
  | 0 => pure ()
  | depth + 1 => do
    swapSlot (depth + 1)
    swapsDownFrom depth

/-- Rotates the topmost `count` slots so that the top becomes the lowest of them. -/
def rotateUp (count : Nat) : Emit Unit := swapsDownFrom (count - 1)

/-- Rotates the topmost `count` slots so that the lowest of them becomes the top. -/
def rotateDown (count : Nat) : Emit Unit := swapsFrom 1 (count - 1)

/-- Moves the topmost `size` slots below the `depth` slots under them, by as many rotations as
the smaller of the two blocks has slots. -/
def moveInto (depth size : Nat) : Emit Unit :=
  if depth ≤ size then repeatEmit depth do rotateDown (← orFault (checkedCount (depth + size)))
  else repeatEmit size do rotateUp (← orFault (checkedCount (depth + size)))

/-- Moves the `size` slots below the topmost `depth` slots to the top. -/
def moveToTop (depth size : Nat) : Emit Unit := moveInto size depth

/-- How far the slot at stack height `base` is below the top, zero for the top itself. -/
def distanceToTop (base : Nat) : Emit Nat := do
  let height ← stackHeight
  if height ≤ base then fault .slotAboveTop else pure (height - base - 1)

end WordPlaces
