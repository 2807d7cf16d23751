import WordPlaces.Place.ByteElement
import WordPlaces.Place.ImmutableVariable
import WordPlaces.Place.StackVariable
import WordPlaces.Place.StorageItem

/-!
# Places

A place is where a value can be read from, written to or cleared.  It is made for one access,
after the code that pushes its addressing operands, and is used once.  Tuples are destinations
only: each component takes the matching component of the value, or lets it go.

## Main definitions

* `Place` — the six kinds of places.
* `Place.sizeOnStack`, `Place.referenceSize` — the slots of the value and of the operands.
* `Place.retrieve`, `Place.store`, `Place.setToZero` — the accesses.
-/

set_option autoImplicit false

namespace WordPlaces

/-- Where a value can be read from, written to or cleared. -/
inductive Place where
  | stack (v : StackVariable)
  | memory (cell : MemoryCell)
  | storage (item : StorageItem)
  | immutable (v : ImmutableVariable)
  /-- A byte of a byte array in storage. -/
  | byteElement
  /-- The destination of a tuple assignment; absent components let their value go. -/
  | tuple (components : List (Option Place))
  deriving Inhabited

namespace Place

/-- The kind of a place. -/
def kind : Place → PlaceKind
  | .stack _ => .stack
  | .memory _ => .memory
  | .storage item => .storage item.kind
  | .immutable _ => .immutable
  | .byteElement => .byteElement
  | .tuple _ => .tuple

/-! ## Sizes -/

/-- The stack slots of the value. -/
def sizeOnStack : Place → Nat
  | .stack v => v.size
  | .memory cell => cell.ty.sizeOnStack
  | .storage item => item.ty.sizeOnStack
  | .immutable v => v.ty.sizeOnStack
  | .byteElement => ByteElement.ty.sizeOnStack
  | .tuple components => sizes components
where
  /-- The stack slots of the values of the components that are present. -/
  sizes : List (Option Place) → Nat
  | [] => 0
  | none :: rest => sizes rest
  | some place :: rest => place.sizeOnStack + sizes rest

/-- The stack slots of the addressing operands. -/
def referenceSize : Place → Nat
  | .stack _ | .immutable _ => 0
  | .memory _ => 1
  | .storage _ | .byteElement => 2
  | .tuple components => sizes components
where
  /-- The stack slots of the operands of the components that are present. -/
  sizes : List (Option Place) → Nat
  | [] => 0
  | none :: rest => sizes rest
  | some place :: rest => place.referenceSize + sizes rest

/-! ## Accesses -/

/-- Reads the value of the place.  With `remove` the addressing operands are taken, else they
stay below the value. -/
def retrieve (place : Place) (remove : Bool) : Emit Unit := do
  logEvent (.retrieve place.kind remove)
  match place with
  | .stack v => v.retrieve
  | .memory cell => cell.retrieve remove
  | .storage item => item.retrieve remove
  | .immutable v => v.retrieve
  | .byteElement => ByteElement.retrieve remove
  | .tuple _ => fault .retrievedTuple

/-- A stack position as a 64-bit depth; positions below zero become depths out of reach. -/
def depthOf (position : Int) : Nat := (position % (countLimit : Int)).toNat

/-- A position moved by as much as the height of the stack has grown, all in signed counters. -/
def positionAfter (position : Int) (before after : Nat) : Except Fault Int := do
  let growth ← checkedSigned (signedCount after - signedCount before)
  checkedSigned (position + growth)

/-- Writes the value of type `source` that lies below the addressing operands.  Without `move`
a copy of the value is left.

A tuple value lies below the operands of all components that are present.  The components are
assigned from right to left, so that the operands on top are always those of the component at
hand: its value is copied up and moved below them. -/
def store (place : Place) (source : Ty) (move : Bool) : Emit Unit := do
  logEvent (.store place.kind source move)
  match place with
  | .stack v => v.store move
  | .memory cell => cell.store source move
  | .storage item => item.store source move
  | .immutable v => v.store source move
  | .byteElement => ByteElement.store move
  | .tuple components =>
    match source with
    | .tuple types =>
      if types.length = components.length then
        let _ ← storeComponents (referenceSize (.tuple components)) components types
        popElement source
      else fault .tupleArity
    | _ => fault (.tupleExpected (← displayTy source))
where
  /-- Assigns the components from right to left.  `top` is how far the last value is below the
  top of the stack before, and the result is how far the first one is below it afterwards. -/
  storeComponents (top : Int) : List (Option Place) → List Ty → Emit Int
    | component :: components, ty :: types => do
      let position := (← storeComponents top components types) + ty.sizeOnStack
      match component with
      | none => return position
      | some place =>
        let before ← stackHeight
        copyToTop (depthOf position) ty.sizeOnStack
        moveToTop ty.sizeOnStack place.referenceSize
        place.store ty true
        orFault (positionAfter position before (← stackHeight))
    | _, _ => return top

/-- Writes the zero value of the place.  With `remove` the addressing operands are taken, else
they stay. -/
def setToZero (place : Place) (remove : Bool) : Emit Unit := do
  logEvent (.setToZero place.kind remove)
  match place with
  | .stack v => v.setToZero
  | .memory cell => cell.setToZero remove
  | .storage item => item.setToZero remove
  | .immutable v => v.setToZero
  | .byteElement => ByteElement.setToZero remove
  | .tuple _ => fault .clearedDestination

end Place

end WordPlaces
