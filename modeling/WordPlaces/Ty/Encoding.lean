import WordPlaces.Encoding
import WordPlaces.Fault
import WordPlaces.Ty.Basic

/-!
# The packed encoding of a type

How many bytes a value takes when it shares a storage slot, how those bytes are read, and how
many bytes it takes in memory.

## Main definitions

* `bitLength`, `enumBytes` — the bytes that hold every variant index of an enum.
* `Ty.storageBytes` — the bytes of a value inside a storage slot.
* `Ty.encoding?` — the packed encoding of a value type.
* `Ty.memoryBytes` — the bytes of a value in memory.
-/

set_option autoImplicit false

namespace WordPlaces

/-- The number of binary digits of `n`, none for zero. -/
def bitLength (n : Nat) : Nat := if n = 0 then 0 else n.log2 + 1

/-- The bytes that hold every variant index of an enum: the binary digits of the largest index, rounded
up to bytes, and at least one byte. -/
def enumBytes (variants : Nat) : Nat := max 1 ((bitLength (variants - 1) + 7) / 8)

namespace Ty

/-- The bytes a value takes inside a storage slot.  Reference types take a full word.  A width
in bits is rounded down, and the number of bytes is kept in one byte. -/
def storageBytes : Ty → Nat
  | .bool => 1
  | .int bits _ | .fixedPoint bits _ _ => bits / 8 % 256
  | .address => 20
  | .fixedBytes count => count
  | .enum _ variants => enumBytes variants
  | .named _ underlying => underlying.storageBytes
  | .function .internal => 8
  | .function .external => 24
  | .array .. | .struct .. | .mapping .. | .tuple _ => 32

/-- The sign of a number type. -/
def signednessOf (signed : Bool) : Signedness := if signed then .signed else .unsigned

/-- The packed encoding of a value type; a named type has that of the type it names. -/
def encoding? : Ty → Except Fault Encoding
  | .bool => .ok (.plain 1 .right .notApplicable)
  | .address => .ok (.plain 20 .right .notApplicable)
  | .int bits signed =>
    .ok (.plain (Ty.int bits signed).storageBytes .right (signednessOf signed))
  | .enum name variants => .ok (.plain (Ty.enum name variants).storageBytes .right .unsigned)
  | .fixedBytes count => .ok (.plain count .left .notApplicable)
  | .fixedPoint bits digits signed =>
    .ok ⟨(Ty.fixedPoint bits digits signed).storageBytes, .right, signednessOf signed, .fixedPoint⟩
  | .named _ underlying => underlying.encoding?
  | .function .internal => .ok ⟨8, .right, .notApplicable, .internalFunction⟩
  | .function .external => .ok ⟨24, .right, .notApplicable, .externalFunction⟩
  | .array .. | .struct .. | .mapping .. | .tuple _ => .error .referenceEncoding

/-- The bytes a value takes in memory: a whole word if it is padded or a reference, else those
of its packed form. -/
def memoryBytes (ty : Ty) (padded : Bool) : Nat :=
  if padded || !ty.isValueType then 32 else ty.storageBytes

end Ty

end WordPlaces
