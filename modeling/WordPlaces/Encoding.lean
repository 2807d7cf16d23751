/-!
# Packed encodings

How a value that is narrower than a word is kept among others in one word: its width in bytes,
the end at which its significant bytes sit, how its sign is read, and what the stack form of
the value looks like.

## Main definitions

* `Alignment`, `Signedness`, `ValueForm` — the three independent choices.
* `Encoding` — a width together with those choices.
-/

set_option autoImplicit false

namespace WordPlaces

/-- Where the significant bytes of a stack value sit. -/
inductive Alignment where
  /-- At the high end, as for byte sequences. -/
  | left
  /-- At the low end, as for integers. -/
  | right
  deriving Repr, DecidableEq, Inhabited

/-- How the leading bit of a value is read. -/
inductive Signedness where
  | signed
  | unsigned
  /-- The value is not a number. -/
  | notApplicable
  deriving Repr, DecidableEq, Inhabited

/-- How the stack form of a value differs from its packed bytes. -/
inductive ValueForm where
  /-- The packed bytes are the stack value. -/
  | plain
  /-- Fixed-point numbers, which have no packed form. -/
  | fixedPoint
  /-- A code tag; stored zero bytes stand for the tag of an unassigned function. -/
  | internalFunction
  /-- An address and a selector, in two stack slots, packed into 24 bytes. -/
  | externalFunction
  deriving Repr, DecidableEq, Inhabited

/-- The packed encoding of a value type. -/
structure Encoding where
  /-- The number of bytes, below 256. -/
  bytes : Nat
  alignment : Alignment
  signedness : Signedness
  form : ValueForm
  deriving Repr, DecidableEq, Inhabited

namespace Encoding

/-- The encoding of a value whose packed bytes are its stack form. -/
def plain (bytes : Nat) (alignment : Alignment) (signedness : Signedness) : Encoding :=
  ⟨bytes, alignment, signedness, .plain⟩

/-- The value shares its word with no other. -/
def isFullWord (e : Encoding) : Bool := e.bytes == 32

/-- The value is sign extended when it is read. -/
def isSigned (e : Encoding) : Bool := e.signedness == .signed

end Encoding

end WordPlaces
