import WordPlaces.Instruction
import WordPlaces.PackedField

/-!
# Code fragments

Straight-line code for the word computations that accesses are made of.  A stack is written
with its top last: `a b → c` takes `b` from the top and `a` below it, and leaves `c`.

## Main definitions

* `shiftLeft`, `shiftRight` — `value → shifted`.
* `keepLowBytes`, `signExtendBytes` — `value → stack form`.
* `offsetToMultiplier` — `offset → 256 ^ offset`.
* `clearBytes` — `word multiplier → word` without the bytes that the multiplier selects.
* `splitExternal`, `combineExternal` — `word → address selector`, and back.
-/

set_option autoImplicit false

namespace WordPlaces.Fragment

/-- `value → value << bits` -/
def shiftLeft (bits : Nat) : Code := if bits = 0 then [] else [.pushNat bits, .shl]

/-- `value → value >> bits` -/
def shiftRight (bits : Nat) : Code := if bits = 0 then [] else [.pushNat bits, .shr]

/-- `value → value`, with all but its `width` least significant bytes cleared. -/
def keepLowBytes (width : Nat) : Code := [.push (lowBytesMask width), .and]

/-- The mask of the `width` most significant bytes. -/
def highBytesMask (width : Nat) : Word := ~~~(Word.allOnes >>> (8 * width))

/-- `value → value`, with all but its `width` most significant bytes cleared. -/
def keepHighBytes (width : Nat) : Code := [.push (highBytesMask width), .and]

/-- `value → value`, sign extended from its `width ≥ 1` least significant bytes. -/
def signExtendBytes (width : Nat) : Code := [.pushNat (width - 1), .signExtend]

/-- `offset → 256 ^ offset` -/
def offsetToMultiplier : Code := [.push 0x100, .exp]

/-- `word multiplier → word`, with the `width` bytes that the multiplier selects cleared. -/
def clearBytes (width : Nat) : Code := [.push (lowBytesMask width), .mul, .not, .and]

/-- `word → address selector`, for a word that holds the 20 bytes of an address and then the 4
bytes of a selector, at its high end or at its low end. -/
def splitExternal (leftAligned : Bool) : Code :=
  (if leftAligned then [.dup 1] ++ shiftRight 96 ++ [.swap 1] ++ shiftRight 64
    else [.dup 1] ++ shiftRight 32 ++ keepLowBytes 20 ++ [.swap 1])
  ++ keepLowBytes 4

/-- `address selector → word`, which `splitExternal` undoes. -/
def combineExternal (leftAligned : Bool) : Code :=
  keepLowBytes 4 ++ [.swap 1]
  ++ (if leftAligned then [] else keepLowBytes 20)
  ++ shiftLeft 32 ++ [.or]
  ++ (if leftAligned then shiftLeft 64 else [])

/-- `tag → tag`, where the tag of an unassigned function takes the place of zero. -/
def assignedTag : Code :=
  [.dup 1, .isZero, .pushSymbol .uninitializedFunction, .mul, .or]

end WordPlaces.Fragment
