import WordPlaces.Word
import WordPlaces.Encoding
import WordPlaces.Fault

/-!
# Packed fields

A field is a run of `width` bytes of a word that starts `offset` bytes above its least
significant end.  `decode` reads the stack form of the value kept there, and `encode` replaces
the bytes of the field by a value and keeps all others.

## Main definitions

* `lowBytesMask`, `fieldMask`, `byteMultiplier` — the words that select and move bytes.
* `signExtend`, `leftAlign`, `rightAlign` — the stack forms of a value of some width.
* `PackedField`, `PackedField.decode`, `PackedField.encode` — the codec.
* `signExtend?`, `PackedField.decode?`, `PackedField.ofEncoding?` — the same, refusing fields
  that have no bytes where a sign is read, or that do not lie within a word.
-/

set_option autoImplicit false

namespace WordPlaces

/-! ## Masks and shifts by bytes -/

/-- `256 ^ offset`, which moves a value up by `offset` bytes; zero from 32 bytes on. -/
def byteMultiplier (offset : Nat) : Word := 1#256 <<< (8 * offset)

/-- The multiplier that moves a byte into the most significant position. -/
def topByteMultiplier : Word := byteMultiplier 31

/-- The mask of the `width` least significant bytes. -/
def lowBytesMask (width : Nat) : Word :=
  if wordBytes ≤ width then Word.allOnes else byteMultiplier width - 1

/-- The mask of `width` bytes from byte `offset` on. -/
def fieldMask (width offset : Nat) : Word := lowBytesMask width <<< (8 * offset)

/-! ## Stack forms -/

/-- The low `width ≥ 1` bytes of `value`, with their leading bit repeated above them. -/
def signExtend (value : Word) (width : Nat) : Word :=
  if wordBytes ≤ width then value
  else if value.getLsbD (8 * width - 1) then value ||| ~~~lowBytesMask width
  else value &&& lowBytesMask width

/-- `signExtend`, refused for a value of no bytes: it has no leading bit. -/
def signExtend? (value : Word) (width : Nat) : Except Fault Word :=
  if width = 0 then .error .zeroWidth else .ok (signExtend value width)

/-- Moves the `width` least significant bytes to the most significant end. -/
def leftAlign (value : Word) (width : Nat) : Word :=
  if wordBytes ≤ width then value else value <<< (256 - 8 * width)

/-- Moves the `width` most significant bytes to the least significant end. -/
def rightAlign (value : Word) (width : Nat) : Word :=
  if wordBytes ≤ width then value else value >>> (256 - 8 * width)

/-! ## The codec -/

/-- A run of bytes of a word, and how the value kept there is read. -/
structure PackedField where
  width : Nat
  /-- The first byte, counted from the least significant end. -/
  offset : Nat
  alignment : Alignment
  signedness : Signedness
  deriving Repr, DecidableEq, Inhabited

namespace PackedField

/-- The field has at least one byte and lies within a word. -/
def Fits (f : PackedField) : Prop := 1 ≤ f.width ∧ f.offset + f.width ≤ wordBytes

instance (f : PackedField) : Decidable f.Fits := inferInstanceAs (Decidable (_ ∧ _))

/-- The field at `offset` of values of the given encoding, if it fits. -/
def ofEncoding? (e : Encoding) (offset : Nat) : Except Fault PackedField :=
  let f : PackedField := ⟨e.bytes, offset, e.alignment, e.signedness⟩
  if f.Fits then .ok f else .error .straddlingField

/-- The field is the whole word. -/
def isFullWord (f : PackedField) : Bool := f.width == wordBytes

/-- The bits of the word that belong to the field. -/
def mask (f : PackedField) : Word := fieldMask f.width f.offset

/-- The stack form of the value kept in the field. -/
def decode (f : PackedField) (word : Word) : Word :=
  let raw := (word >>> (8 * f.offset)) &&& lowBytesMask f.width
  match f.alignment, f.signedness with
  | .left, _ => leftAlign raw f.width
  | .right, .signed => signExtend raw f.width
  | .right, _ => raw

/-- `decode`, refused where a sign is to be read from no bytes. -/
def decode? (f : PackedField) (word : Word) : Except Fault Word :=
  if f.alignment = .right ∧ f.signedness = .signed ∧ f.width = 0 then .error .zeroWidth
  else .ok (f.decode word)

/-- The word with the bytes of the field replaced by those of `value`. -/
def encode (f : PackedField) (word value : Word) : Word :=
  let raw : Word := match f.alignment with
    | .left => rightAlign value f.width
    | .right => value &&& lowBytesMask f.width
  (word &&& ~~~f.mask) ||| (raw <<< (8 * f.offset))

end PackedField

end WordPlaces
