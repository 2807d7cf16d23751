import WordPlaces.Emit.Basic
import WordPlaces.Emit.Fragment

/-!
# Bytes of a byte array

A short byte array is kept in one storage word, its first byte at the most significant end.
One of its bytes is addressed by two words, the slot and the index.  Its value is a sequence of
one byte, and so sits at the high end of a word.

## Main definitions

* `ByteElement.retrieve`, `ByteElement.store`, `ByteElement.setToZero` — the accesses of a byte.
-/

set_option autoImplicit false

namespace WordPlaces.ByteElement

open Fragment

/-- The type of a byte. -/
def ty : Ty := .fixedBytes 1

/-- `index → multiplier` of the byte with that index. -/
def indexToMultiplier : Code := [.push 31, .sub] ++ offsetToMultiplier

/-- `slot index → value`, or `slot index → slot index value` to keep the operands. -/
def retrieve (remove : Bool) : Emit Unit :=
  emitAll <|
    (if remove then [.swap 1, .sload .persistent, .swap 1]
      else [.dup 2, .sload .persistent, .dup 2])
    ++ [.byte, .push topByteMultiplier, .mul]

/-- `value slot index →`, or `value slot index → value` if it is not to be moved. -/
def store (move : Bool) : Emit Unit :=
  emitAll <|
    indexToMultiplier ++ [.dup 2, .sload .persistent, .dup 2] ++ clearBytes 1 ++ [.swap 1]
    -- value slot cleared_word multiplier
    ++ [.push topByteMultiplier, .dup 5, .div, .mul, .or]
    ++ [.swap 1, .sstore .persistent]
    ++ (if move then [.pop] else [])

/-- `slot index →`; the operands cannot be kept. -/
def setToZero (remove : Bool) : Emit Unit :=
  if remove then
    emitAll <|
      indexToMultiplier ++ [.dup 2, .sload .persistent, .swap 1] ++ clearBytes 1
      ++ [.swap 1, .sstore .persistent]
  else fault .byteElementKept

end WordPlaces.ByteElement
