import WordPlaces.Word

/-!
# Linear memory

Memory is addressed by bytes.  It holds zeros until it is written, and it grows to cover every
byte that is touched.

## Main definitions

* `Memory` — the bytes and how far they have grown.
* `Memory.loadWord`, `Memory.storeWord`, `Memory.storeByte` — access to big-endian words and to
  single bytes.
* `Memory.limit` — the size that memory cannot exceed.
-/

set_option autoImplicit false

namespace WordPlaces

/-- Linear memory. -/
structure Memory where
  /-- How many bytes have been touched, with all that lie below them. -/
  size : Nat := 0
  bytes : Nat → Byte := fun _ => 0

namespace Memory

instance : Inhabited Memory := ⟨{}⟩

/-- The greatest size memory can grow to. -/
def limit : Nat := 0x7fffffffffffffff

/-- Memory that covers at least `size` bytes. -/
def grow (m : Memory) (size : Nat) : Memory := { m with size := max m.size size }

/-- The word at a byte address, most significant byte first. -/
def loadWord (m : Memory) (address : Nat) : Word :=
  Word.ofBytes ((List.range 32).map fun i => m.bytes (address + i))

/-- Writes a word at a byte address, most significant byte first. -/
def storeWord (m : Memory) (address : Nat) (w : Word) : Memory where
  size := max m.size (address + 32)
  bytes i := if address ≤ i ∧ i < address + 32 then w.byteAt (address + 31 - i) else m.bytes i

/-- Writes a byte. -/
def storeByte (m : Memory) (address : Nat) (b : Byte) : Memory where
  size := max m.size (address + 1)
  bytes i := if i = address then b else m.bytes i

/-- All bytes that memory covers. -/
def toList (m : Memory) : List Byte := (List.range m.size).map m.bytes

end Memory

end WordPlaces
