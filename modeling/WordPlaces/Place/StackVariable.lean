import WordPlaces.Emit.Stack
import WordPlaces.Emit.Value

/-!
# Local variables

A local variable lives on the operand stack and is addressed by its distance from the top.  It
takes no addressing operands.

## Main definitions

* `StackVariable`, `StackVariable.of` — a bound local, and the one a variable is bound to.
* `StackVariable.retrieve`, `StackVariable.store`, `StackVariable.setToZero` — its accesses.
-/

set_option autoImplicit false

namespace WordPlaces

/-- A local variable. -/
structure StackVariable where
  ty : Ty
  /-- The stack height below its lowest slot. -/
  base : Nat
  deriving Repr, DecidableEq, Inhabited

namespace StackVariable

/-- The local that a variable is bound to. -/
def of (v : Variable) : Emit StackVariable := do
  match (← read).locals.lookup v.id with
  | none => fault (.unboundLocal v.name)
  | some base =>
    logEvent (.stackVariable v.name base)
    return ⟨v.ty, base⟩

/-- The slots of the variable. -/
def size (v : StackVariable) : Nat := v.ty.sizeOnStack

/-- `→ value..`, copying the variable. -/
def retrieve (v : StackVariable) : Emit Unit := do
  let depth := (← distanceToTop v.base) + 1
  if depth < v.size then fault .localAboveTop else copyToTop depth v.size

/-- Exchanges each slot of the variable, `distance` slots below, with the top and drops it. -/
def overwrite (v : StackVariable) (distance : Nat) : Emit Unit :=
  repeatEmit v.size do
    swapSlot distance
    emit .pop

/-- `value.. →`, or `value.. → value..` if it is not to be moved.  A variable on top of the
stack already is its new value. -/
def store (v : StackVariable) (move : Bool) : Emit Unit := do
  let depth := (← distanceToTop v.base) + 1
  if depth < v.size then fault .valueBelowLocal
  else
    if v.size < depth then v.overwrite (depth - v.size)
    if !move then v.retrieve

/-- Stores the zero value. -/
def setToZero (v : StackVariable) : Emit Unit := do
  pushZeroValue v.ty
  v.store true

end StackVariable

end WordPlaces
