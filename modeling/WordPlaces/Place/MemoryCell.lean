import WordPlaces.Emit.Stack
import WordPlaces.Emit.Value

/-!
# Memory cells

A memory cell is addressed by one word, its byte address.  A padded cell takes a whole word and
an unpadded one a single byte.  Of a reference type the cell keeps the pointer.

## Main definitions

* `MemoryCell` — a cell for values of a type.
* `MemoryCell.retrieve`, `MemoryCell.store`, `MemoryCell.setToZero` — its accesses.
-/

set_option autoImplicit false

namespace WordPlaces

/-- A cell of linear memory. -/
structure MemoryCell where
  ty : Ty
  padded : Bool
  deriving Repr, DecidableEq, Inhabited

namespace MemoryCell

/-- `address → value..`, or `address → address value..` to keep the address. -/
def retrieve (cell : MemoryCell) (remove : Bool) : Emit Unit := do
  if !remove then emit (.dup 1)
  if cell.ty.isValueType then loadFromMemory cell.ty cell.padded else emit .mload

/-- `pointer address →`, or `pointer address → pointer` if it is not to be moved. -/
def storeReference (cell : MemoryCell) (source : Ty) (move : Bool) : Emit Unit := do
  if source ≠ cell.ty then
    reject (.unimplemented "Conversion not implemented for assignment to memory.")
  else if cell.ty.sizeOnStack ≠ 1 then fault .wideReference
  else
    if !move then emitAll [.dup 2, .swap 1]
    emit .mstore

/-- `address value.. →`, writing a value of the cell's own type. -/
def write (cell : MemoryCell) : Emit Unit := do
  if cell.padded then
    storeInMemory cell.ty true
    emit .pop
  else if cell.ty.memoryBytes false ≠ 1 then fault .unpaddedWidth
  else
    if (← orFault cell.ty.encoding?).alignment = .left then emitAll [.push 0, .byte]
    emitAll [.swap 1, .mstore8]

/-- `value.. address →`, or `value.. address → value..` if it is not to be moved: then the
converted value is left. -/
def store (cell : MemoryCell) (source : Ty) (move : Bool) : Emit Unit := do
  if !cell.ty.isValueType then cell.storeReference source move
  else if !source.isValueType then fault .valueTypeExpected
  else
    let size := cell.ty.sizeOnStack
    moveInto source.sizeOnStack 1
    convertType source cell.ty true false
    if !move then
      moveToTop size 1
      copyToTop (1 + size) size
    cell.write

/-- `address →`, or `address → address` to keep the address. -/
def setToZero (cell : MemoryCell) (remove : Bool) : Emit Unit := do
  if !remove then emit (.dup 1)
  if cell.padded then
    pushZeroValue cell.ty
    storeInMemory cell.ty true
    emit .pop
  else emitAll [.push 0, .swap 1, .mstore8]

end MemoryCell

end WordPlaces
