import WordPlaces.Proofs.Codec

/-!
# Laws of the codec

Decoding and encoding a packed field are the two halves of a lens on the word: what was encoded is
decoded in its canonical form, encoding what was decoded changes nothing, and of two values encoded
one after the other the last one stays.  Fields that share no byte do not see each other.

## Main definitions

* `PackedField.Covers`, `PackedField.Disjoint` — the bytes of a field, and fields that share none.
* `PackedField.raw` — the bytes that a field keeps of a value.
* `PackedField.canonical` — the canonical form of a value of the width of a field.

## Main results

* `withBytes_withBytes`, `withBytes_bytesIn`, `withBytes_comm` — replacing runs of bytes.
* `PackedField.encode_eq_withBytes`, `PackedField.decode_eq_stackForm` — the codec on runs of bytes.
* `PackedField.codec_laws` — the laws of a lens, and the independence of disjoint fields.
-/

set_option autoImplicit false

namespace WordPlaces

open Fragment

/-! ## Replacing runs of bytes -/

section Bytes

variable {width offset width' offset' : Nat} (word bytes bytes' : Word)

/-- Of two replacements of the same run the last one stays. -/
theorem withBytes_withBytes :
    withBytes width offset (withBytes width offset word bytes) bytes' =
      withBytes width offset word bytes' := by
  apply BitVec.eq_of_getLsbD_eq
  intro i hi
  rw [getLsbD_withBytes _ _ hi, getLsbD_withBytes _ _ hi, getLsbD_withBytes _ _ hi]
  split <;> rfl

/-- A run that is replaced by itself. -/
theorem withBytes_bytesIn : withBytes width offset word (bytesIn width offset word) = word := by
  apply BitVec.eq_of_getLsbD_eq
  intro i hi
  rw [getLsbD_withBytes _ _ hi, getLsbD_bytesIn]
  split
  · rename_i hin
    rw [decide_eq_true (by omega), Bool.true_and, Nat.add_sub_cancel' hin.1]
  · rfl

/-- The bits outside of a run that is replaced. -/
theorem withBytes_and_not_fieldMask :
    withBytes width offset word bytes &&& ~~~fieldMask width offset =
      word &&& ~~~fieldMask width offset := by
  apply BitVec.eq_of_getLsbD_eq
  intro i hi
  rw [BitVec.getLsbD_and, BitVec.getLsbD_and, getLsbD_withBytes _ _ hi]
  by_cases hin : 8 * offset ≤ i ∧ i < 8 * (offset + width)
  · have hmask : (~~~fieldMask width offset).getLsbD i = false := by
      rw [BitVec.getLsbD_not, getLsbD_fieldMask, decide_eq_true hi,
        decide_eq_true ⟨hin.1, hin.2, hi⟩]
      rfl
    rw [hmask, Bool.and_false, Bool.and_false]
  · rw [if_neg hin]

variable (hdisjoint : offset + width ≤ offset' ∨ offset' + width' ≤ offset)

include hdisjoint

/-- A run after another one was replaced. -/
theorem bytesIn_withBytes_of_disjoint :
    bytesIn width' offset' (withBytes width offset word bytes) = bytesIn width' offset' word :=
  bytesIn_congr fun i hle hlt => byteAt_withBytes_of_not_mem word bytes (by omega)

/-- Two runs without common bytes are replaced in any order. -/
theorem withBytes_comm :
    withBytes width' offset' (withBytes width offset word bytes) bytes' =
      withBytes width offset (withBytes width' offset' word bytes') bytes := by
  apply BitVec.eq_of_getLsbD_eq
  intro i hi
  rw [getLsbD_withBytes _ _ hi, getLsbD_withBytes _ _ hi, getLsbD_withBytes _ _ hi,
    getLsbD_withBytes _ _ hi]
  by_cases hin : 8 * offset ≤ i ∧ i < 8 * (offset + width)
  · have hout : ¬(8 * offset' ≤ i ∧ i < 8 * (offset' + width')) := by omega
    rw [if_neg hout, if_pos hin, if_pos hin]
  · rw [if_neg hin, if_neg hin]

end Bytes

/-! ## The codec on runs of bytes -/

namespace PackedField

/-- Byte `i` of the word, counted from the least significant end, belongs to the field. -/
def Covers (f : PackedField) (i : Nat) : Prop := f.offset ≤ i ∧ i < f.offset + f.width

instance (f : PackedField) (i : Nat) : Decidable (f.Covers i) := inferInstanceAs (Decidable (_ ∧ _))

/-- No byte belongs to both fields. -/
def Disjoint (f g : PackedField) : Prop := ∀ i, f.Covers i → ¬g.Covers i

/-- The bytes that the field keeps of a stack value, as the low bytes of a word. -/
def raw (f : PackedField) (value : Word) : Word :=
  match f.alignment with
  | .left => rightAlign value f.width
  | .right => value &&& lowBytesMask f.width

/-- The canonical form of a stack value: its high bytes above zeros, or its low bytes below copies of
their leading bit or below zeros. -/
def canonical (f : PackedField) (value : Word) : Word :=
  match f.alignment, f.signedness with
  | .left, _ => value &&& highBytesMask f.width
  | .right, .signed => signExtend value f.width
  | .right, _ => value &&& lowBytesMask f.width

/-- The encoding of the values that are kept in the field. -/
def encoding (f : PackedField) : Encoding := .plain f.width f.alignment f.signedness

variable {f g : PackedField}

/-- One of two disjoint fields lies below the other. -/
theorem Disjoint.le_or_le (hf : f.Fits) (hg : g.Fits) (h : f.Disjoint g) :
    f.offset + f.width ≤ g.offset ∨ g.offset + g.width ≤ f.offset := by
  obtain ⟨hfpos, -⟩ := hf
  obtain ⟨hgpos, -⟩ := hg
  have hbyte := h (max f.offset g.offset)
  unfold Covers at hbyte
  omega

/-- The bytes that are kept of a value are no more than the field has. -/
theorem raw_and_lowBytesMask (hf : f.Fits) (value : Word) :
    f.raw value &&& lowBytesMask f.width = f.raw value := by
  unfold raw
  split
  · exact rightAlign_and_lowBytesMask value (Nat.le_of_add_left_le hf.2)
  · exact and_lowBytesMask_and value f.width

/-- Encoding a value replaces the bytes of its field. -/
theorem encode_eq_withBytes (hf : f.Fits) (word value : Word) :
    f.encode word value = withBytes f.width f.offset word (f.raw value) := by
  rw [withBytes, raw_and_lowBytesMask hf]
  rfl

/-- Decoding a field turns its bytes into the form that values have on the stack. -/
theorem decode_eq_stackForm (f : PackedField) (word : Word) :
    f.decode word = f.encoding.stackForm (bytesIn f.width f.offset word) := rfl

/-- A field that has bytes is decoded. -/
theorem decode?_eq_ok (hf : f.Fits) (word : Word) : f.decode? word = .ok (f.decode word) := by
  refine if_neg fun hzero => ?_
  have hpos := hf.1
  omega

/-! ## A value and the bytes that are kept of it -/

/-- The stack form of the bytes that are kept of a value. -/
theorem stackForm_raw (hf : f.Fits) (value : Word) :
    f.encoding.stackForm (f.raw value) = f.canonical value := by
  have hle : f.width ≤ 32 := Nat.le_of_add_left_le hf.2
  unfold Encoding.stackForm raw canonical encoding Encoding.plain
  cases f.alignment with
  | left => exact leftAlign_rightAlign value hle
  | right =>
    cases f.signedness with
    | signed => exact signExtend_and_lowBytesMask value hf.1
    | unsigned | notApplicable => rfl

/-- The bytes that are kept of a stack form are those that it was made of. -/
theorem raw_stackForm (hf : f.Fits) (bytes : Word) :
    f.raw (f.encoding.stackForm bytes) = bytes &&& lowBytesMask f.width := by
  have hle : f.width ≤ 32 := Nat.le_of_add_left_le hf.2
  unfold Encoding.stackForm raw encoding Encoding.plain
  cases f.alignment with
  | left => exact rightAlign_leftAlign bytes hle
  | right =>
    cases f.signedness with
    | signed => exact signExtend_and bytes hf.1
    | unsigned | notApplicable => rfl

/-- A field keeps the same bytes of a value and of its canonical form. -/
theorem raw_canonical (hf : f.Fits) (value : Word) : f.raw (f.canonical value) = f.raw value := by
  rw [← stackForm_raw hf, raw_stackForm hf, raw_and_lowBytesMask hf]

/-- The canonical form of a value is in its canonical form. -/
theorem canonical_canonical (hf : f.Fits) (value : Word) :
    f.canonical (f.canonical value) = f.canonical value := by
  rw [← stackForm_raw hf (f.canonical value), raw_canonical hf, stackForm_raw hf]

/-! ## The laws -/

/-- What was encoded is decoded in its canonical form. -/
theorem decode_encode (hf : f.Fits) (word value : Word) :
    f.decode (f.encode word value) = f.canonical value := by
  rw [encode_eq_withBytes hf, decode_eq_stackForm, bytesIn_withBytes _ _ hf.2,
    raw_and_lowBytesMask hf, stackForm_raw hf]

/-- Encoding what was decoded changes nothing. -/
theorem encode_decode (hf : f.Fits) (word : Word) : f.encode word (f.decode word) = word := by
  rw [encode_eq_withBytes hf, decode_eq_stackForm, raw_stackForm hf, bytesIn_and_lowBytesMask,
    withBytes_bytesIn]

/-- Of two values that are encoded in the same field the last one stays. -/
theorem encode_encode (hf : f.Fits) (word value value' : Word) :
    f.encode (f.encode word value) value' = f.encode word value' := by
  rw [encode_eq_withBytes hf, encode_eq_withBytes hf, withBytes_withBytes, ← encode_eq_withBytes hf]

/-- The bits outside of the mask are kept. -/
theorem encode_and_not_mask (hf : f.Fits) (word value : Word) :
    f.encode word value &&& ~~~f.mask = word &&& ~~~f.mask := by
  rw [encode_eq_withBytes hf, mask, withBytes_and_not_fieldMask]

/-- A field is not changed by a value that is encoded in a disjoint one. -/
theorem decode_encode_of_disjoint (hf : f.Fits) (hg : g.Fits) (h : f.Disjoint g)
    (word value : Word) : g.decode (f.encode word value) = g.decode word := by
  rw [encode_eq_withBytes hf, decode_eq_stackForm, decode_eq_stackForm,
    bytesIn_withBytes_of_disjoint _ _ (h.le_or_le hf hg)]

/-- Values are encoded in disjoint fields in any order. -/
theorem encode_comm (hf : f.Fits) (hg : g.Fits) (h : f.Disjoint g) (word value value' : Word) :
    g.encode (f.encode word value) value' = f.encode (g.encode word value') value := by
  rw [encode_eq_withBytes hf, encode_eq_withBytes hg, encode_eq_withBytes hg,
    encode_eq_withBytes hf, withBytes_comm _ _ _ (h.le_or_le hf hg)]

/-- The codec is a lens on every field that has a byte and lies within a word, for all words and values,
both alignments and every reading of the sign: a value that was encoded is decoded, in its canonical
form; encoding what was decoded changes nothing; of two values the last one stays; and no bit outside
of the mask changes.  Disjoint fields are independent: encoding in one does not change what is decoded
from the other, and values are encoded in the two in any order.  Decoding is never refused.

**Proof sketch.** On runs of bytes (`encode_eq_withBytes`, `decode_eq_stackForm`) the laws are those of
replacing runs, and `stackForm_raw` and `raw_stackForm` say that the stack form and the bytes of a
value determine each other. -/
theorem codec_laws (f g : PackedField) (hf : f.Fits) (hg : g.Fits) (word value value' : Word) :
    f.decode? (f.encode word value) = .ok (f.canonical value) ∧
    (∃ kept, f.decode? word = .ok kept ∧ f.encode word kept = word) ∧
    f.encode (f.encode word value) value' = f.encode word value' ∧
    f.encode word value &&& ~~~f.mask = word &&& ~~~f.mask ∧
    (f.Disjoint g →
      (∃ kept, g.decode? word = .ok kept ∧ g.decode? (f.encode word value) = .ok kept) ∧
      g.encode (f.encode word value) value' = f.encode (g.encode word value') value) := by
  refine ⟨?_, ⟨f.decode word, decode?_eq_ok hf word, encode_decode hf word⟩,
    encode_encode hf word value value', encode_and_not_mask hf word value, fun hdisjoint => ⟨?_, ?_⟩⟩
  · rw [decode?_eq_ok hf, decode_encode hf]
  · refine ⟨g.decode word, decode?_eq_ok hg word, ?_⟩
    rw [decode?_eq_ok hg, decode_encode_of_disjoint hf hg hdisjoint]
  · exact encode_comm hf hg hdisjoint word value value'

/-- A number of eight bytes below a signed one of sixteen: encoding either one leaves the other as it
is. -/
theorem codec_laws_neighbours :
    let f : PackedField := ⟨8, 0, .right, .unsigned⟩
    let g : PackedField := ⟨16, 8, .right, .signed⟩
    f.Fits ∧ g.Fits ∧ f.Disjoint g ∧ ∀ word : Word,
      f.decode? (f.encode word 0x1_0000_0000_0000_1234) = .ok 0x1234 ∧
      g.decode? (f.encode (g.encode word (-1)) 0x1234) = .ok (-1) := by
  intro f g
  have hf : f.Fits := by decide
  have hg : g.Fits := by decide
  have hdisjoint : f.Disjoint g := by
    intro i hi hi'
    simp only [Covers, f, g] at hi hi'
    omega
  refine ⟨hf, hg, hdisjoint, fun word => ⟨?_, ?_⟩⟩
  · have hcanonical : f.canonical 0x1_0000_0000_0000_1234 = 0x1234 := by decide
    rw [(codec_laws f g hf hg word 0x1_0000_0000_0000_1234 0).1, hcanonical]
  · have hcanonical : g.canonical (-1) = -1 := by decide
    obtain ⟨kept, hkept, hframe⟩ :=
      ((codec_laws f g hf hg (g.encode word (-1)) 0x1234 0).2.2.2.2 hdisjoint).1
    rw [(codec_laws g f hg hf word (-1) 0).1, hcanonical] at hkept
    rw [hframe, hkept]

end PackedField

end WordPlaces
