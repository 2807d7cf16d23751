/-!
# Machine words

A word is 256 bits wide; its arithmetic is that of the integers modulo `2 ^ 256`.  Words are
read as 32 bytes, the most significant one first.

## Main definitions

* `Word`, `Byte` — the words of the machine and the cells of its memory.
* `Word.byteAt`, `Word.toBytes`, `Word.ofBytes` — a word as its 32 bytes.
* `Word.pow` — exponentiation by squaring.
* `Word.hexText` — the text of a word in instruction listings.
-/

set_option autoImplicit false

namespace WordPlaces

/-- A machine word. -/
abbrev Word := BitVec 256

/-- A cell of linear memory. -/
abbrev Byte := BitVec 8

/-- How many bytes a word has. -/
def wordBytes : Nat := 32

namespace Word

/-- The word all of whose bits are set. -/
def allOnes : Word := BitVec.allOnes 256

/-! ## Bytes -/

/-- Byte `i` of a word, counted from the least significant end; zero beyond the word. -/
def byteAt (w : Word) (i : Nat) : Byte := w.extractLsb' (8 * i) 8

/-- The bytes of a word, most significant first. -/
def toBytes (w : Word) : List Byte :=
  (List.range 32).map fun i => w.byteAt (31 - i)

/-- The word with the given bytes, most significant first; of a longer list the last 32 count. -/
def ofBytes (bytes : List Byte) : Word :=
  bytes.foldl (fun w b => (w <<< 8) ||| b.setWidth 256) 0

/-- The word with the given bytes, most significant first, if there are no more than 32. -/
def ofBytes? (bytes : List Byte) : Option Word :=
  if bytes.length ≤ 32 then some (ofBytes bytes) else none

/-! ## Arithmetic -/

/-- `base` to the power of the number `n`, by repeated squaring. -/
def pow (base : Word) (n : Nat) : Word :=
  if n = 0 then 1
  else
    let rest := pow (base * base) (n / 2)
    if n % 2 = 1 then base * rest else rest
termination_by n

/-- The word `1` for true and `0` for false. -/
def ofBool (b : Bool) : Word := if b then 1 else 0

/-! ## Text -/

/-- Lowercase hexadecimal after `0x`, without leading zeros. -/
def hexText (w : Word) : String := "0x" ++ String.ofList (Nat.toDigits 16 w.toNat)

end Word

end WordPlaces
