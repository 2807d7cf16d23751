import Mathlib.Data.List.Basic
import WordPlaces.Emit.Fragment
import WordPlaces.Proofs.Ty.Width
import WordPlaces.Proofs.Word

/-!
# The codec of packed values

A value of a type that shares its slot is kept as a run of bytes.  Reading turns the bytes into the
stack form of the value, writing turns a stack value into the bytes, and both leave the other bytes
of the word alone.

## Main definitions

* `bytesIn`, `withBytes` — a run of bytes of a word, and the word with that run replaced.
* `Encoding.valueOf`, `Encoding.valueAt` — the value that bytes stand for, and the one in a word.
* `Ty.packed` — the bytes that a value is kept as.
* `Ty.canonical` — the canonical form of a value.
* `Ty.Storable`, `Ty.Writable` — the value types that have a packed form, and those that are written in
  packed form.

## Main results

* `bytesIn_withBytes`, `byteAt_withBytes_of_mem`, `byteAt_withBytes_of_not_mem` — what a run of
  bytes is after it was replaced, and all other bytes.
* `combined_and_lowBytesMask`, `combined_ushiftRight`, `combined_split` — an external function is found
  where it was put, and put together of what is found; `combined_left_eq` — at the high end as well.
* `Ty.Storable.valueOf_packed` — a value is read back in its canonical form.
* `Ty.Storable.packed_valueOf` — bytes that are read and written stay the same.
-/

set_option autoImplicit false

namespace WordPlaces

open Fragment

/-! ## Runs of bytes -/

/-- The `width` bytes of a word from byte `offset` on, as the low bytes of a word. -/
def bytesIn (width offset : Nat) (word : Word) : Word :=
  (word >>> (8 * offset)) &&& lowBytesMask width

/-- The word with the `width` bytes from byte `offset` on replaced by the low bytes of another. -/
def withBytes (width offset : Nat) (word bytes : Word) : Word :=
  (word &&& ~~~fieldMask width offset) ||| ((bytes &&& lowBytesMask width) <<< (8 * offset))

section Bytes

variable {width offset : Nat} (word bytes : Word)

/-- A bit of bytes in a word is one of the word. -/
theorem getLsbD_bytesIn (i : Nat) :
    (bytesIn width offset word).getLsbD i =
      (decide (i < 8 * width) && word.getLsbD (8 * offset + i)) := by
  rw [bytesIn, getLsbD_and_lowBytesMask, BitVec.getLsbD_ushiftRight]

/-- A bit of a word with bytes replaced is one of the bytes or of the word. -/
theorem getLsbD_withBytes {i : Nat} (hi : i < 256) :
    (withBytes width offset word bytes).getLsbD i =
      if 8 * offset ≤ i ∧ i < 8 * (offset + width) then bytes.getLsbD (i - 8 * offset)
      else word.getLsbD i := by
  rw [withBytes, BitVec.getLsbD_or, BitVec.getLsbD_and, BitVec.getLsbD_not, getLsbD_fieldMask,
    BitVec.getLsbD_shiftLeft, getLsbD_and_lowBytesMask]
  by_cases hin : 8 * offset ≤ i ∧ i < 8 * (offset + width)
  · have hlow : i - 8 * offset < 8 * width := by omega
    simp [hin, hi, hlow, Nat.not_lt.2 hin.1]
  · by_cases hle : 8 * offset ≤ i
    · have hhigh : ¬i - 8 * offset < 8 * width := by omega
      have hout : ¬i < 8 * (offset + width) := by omega
      simp [hi, hhigh, hout]
    · simp [hi, hle, Nat.lt_of_not_le hle]

/-- A run of bytes after it was replaced. -/
theorem bytesIn_withBytes (hfits : offset + width ≤ 32) :
    bytesIn width offset (withBytes width offset word bytes) = bytes &&& lowBytesMask width := by
  apply BitVec.eq_of_getLsbD_eq
  intro i hi
  rw [getLsbD_bytesIn, getLsbD_and_lowBytesMask]
  by_cases hlow : i < 8 * width
  · rw [getLsbD_withBytes _ _ (by omega), if_pos (by omega), Nat.add_sub_cancel_left]
  · rw [decide_eq_false hlow, Bool.false_and, Bool.false_and]

/-- A byte of a run after it was replaced. -/
theorem byteAt_withBytes_of_mem {i : Nat} (hfits : offset + width ≤ 32) (hle : offset ≤ i)
    (hlt : i < offset + width) :
    (withBytes width offset word bytes).byteAt i = bytes.byteAt (i - offset) := by
  apply BitVec.eq_of_getLsbD_eq
  intro j hj
  rw [Word.getLsbD_byteAt, Word.getLsbD_byteAt, getLsbD_withBytes _ _ (by omega),
    if_pos (by omega)]
  congr 2
  omega

/-- A byte outside of a run that was replaced. -/
theorem byteAt_withBytes_of_not_mem {i : Nat} (h : i < offset ∨ offset + width ≤ i) :
    (withBytes width offset word bytes).byteAt i = word.byteAt i := by
  apply Word.byteAt_eq_of_getLsbD_eq
  intro k hle hlt
  by_cases hk : k < 256
  · rw [getLsbD_withBytes _ _ hk, if_neg (by omega)]
  · rw [BitVec.getLsbD_of_ge _ _ (Nat.le_of_not_lt hk), BitVec.getLsbD_of_ge _ _ (Nat.le_of_not_lt hk)]

/-- A run is made of its bytes. -/
theorem bytesIn_congr {word word' : Word}
    (h : ∀ i, offset ≤ i → i < offset + width → word.byteAt i = word'.byteAt i) :
    bytesIn width offset word = bytesIn width offset word' := by
  apply BitVec.eq_of_getLsbD_eq
  intro i hi
  rw [getLsbD_bytesIn, getLsbD_bytesIn]
  by_cases hlow : i < 8 * width
  · rw [Word.getLsbD_of_byteAt_eq (h ((8 * offset + i) / 8) (by omega) (by omega))]
  · rw [decide_eq_false hlow, Bool.false_and, Bool.false_and]

/-- A byte of a word that was moved down by bytes. -/
theorem byteAt_ushiftRight (offset i : Nat) :
    Word.byteAt (word >>> (8 * offset)) i = word.byteAt (offset + i) := by
  apply BitVec.eq_of_getLsbD_eq
  intro j hj
  rw [Word.getLsbD_byteAt, Word.getLsbD_byteAt, BitVec.getLsbD_ushiftRight, Nat.mul_add, Nat.add_assoc]

/-- The high bytes of a word, moved to the low end, are made of its bytes. -/
theorem ushiftRight_congr {word word' : Word}
    (h : ∀ i, offset ≤ i → i < 32 → word.byteAt i = word'.byteAt i) :
    word >>> (8 * offset) = word' >>> (8 * offset) := by
  apply BitVec.eq_of_getLsbD_eq
  intro i hi
  rw [BitVec.getLsbD_ushiftRight, BitVec.getLsbD_ushiftRight]
  by_cases hlt : 8 * offset + i < 256
  · exact Word.getLsbD_of_byteAt_eq (h _ (by omega) (by omega))
  · rw [BitVec.getLsbD_of_ge _ _ (by omega), BitVec.getLsbD_of_ge _ _ (by omega)]

/-- A byte of a run. -/
theorem byteAt_bytesIn {i : Nat} (hi : i < width) :
    (bytesIn width offset word).byteAt i = word.byteAt (offset + i) := by
  apply BitVec.eq_of_getLsbD_eq
  intro j hj
  have hlow : 8 * i + j < 8 * width := by omega
  have hbit : 8 * (offset + i) + j = 8 * offset + (8 * i + j) := by omega
  rw [Word.getLsbD_byteAt, Word.getLsbD_byteAt, getLsbD_bytesIn, decide_eq_true hlow, hbit]
  rfl

/-- A run of one byte. -/
theorem bytesIn_one : bytesIn 1 offset word = (word.byteAt offset).setWidth 256 := by
  apply BitVec.eq_of_getLsbD_eq
  intro i hi
  rw [getLsbD_bytesIn, BitVec.getLsbD_setWidth, Word.getLsbD_byteAt, decide_eq_true hi,
    Bool.true_and]

/-- A run has no bytes above its width. -/
theorem bytesIn_and_lowBytesMask :
    bytesIn width offset word &&& lowBytesMask width = bytesIn width offset word := by
  rw [bytesIn, BitVec.and_assoc, BitVec.and_self]

/-- The run that is the whole word. -/
theorem bytesIn_full : bytesIn 32 0 word = word := by
  apply BitVec.eq_of_getLsbD_eq
  intro i hi
  rw [getLsbD_bytesIn, decide_eq_true (by omega), Bool.true_and, Nat.mul_zero, Nat.zero_add]

/-- A run of bytes that is cleared. -/
theorem withBytes_zero (width offset : Nat) (word : Word) :
    withBytes width offset word 0 = word &&& ~~~fieldMask width offset := by
  simp [withBytes]

/-- There are no bytes beyond the word. -/
theorem bytesIn_of_le (h : 32 ≤ offset) : bytesIn width offset word = 0 := by
  apply BitVec.eq_of_getLsbD_eq
  intro i hi
  rw [getLsbD_bytesIn, BitVec.getLsbD_of_ge word _ (by omega), Bool.and_false]
  exact BitVec.getLsbD_zero.symm

/-- There are no bytes to replace beyond the word. -/
theorem withBytes_of_le (h : 32 ≤ offset) : withBytes width offset word bytes = word := by
  apply BitVec.eq_of_getLsbD_eq
  intro i hi
  rw [getLsbD_withBytes _ _ hi, if_neg (by omega)]

/-- Replacing all the bytes of a word. -/
theorem withBytes_full : withBytes 32 0 word bytes = bytes := by
  apply BitVec.eq_of_getLsbD_eq
  intro i hi
  rw [getLsbD_withBytes _ _ hi, if_pos (by omega)]
  rfl

end Bytes

/-! ## Values -/

namespace Encoding

/-- The stack form of the value that the low bytes of a word stand for. -/
def stackForm (e : Encoding) (bytes : Word) : Word :=
  match e.alignment, e.signedness with
  | .left, _ => leftAlign bytes e.bytes
  | .right, .signed => signExtend bytes e.bytes
  | .right, _ => bytes

/-- The value, its last word first, that the low bytes of a word stand for.  An external function
is an address above a selector. -/
def valueOf (e : Encoding) (bytes : Word) : List Word :=
  if e.form = .externalFunction then
    [bytes &&& lowBytesMask 4, (bytes >>> 32) &&& lowBytesMask 20]
  else [e.stackForm bytes]

/-- The value, its last word first, that a word keeps from byte `offset` on. -/
def valueAt (e : Encoding) (offset : Nat) (word : Word) : List Word :=
  e.valueOf (bytesIn e.bytes offset word)

end Encoding

namespace Ty

/-- The low bytes that a value, its last word first, is kept as. -/
def packed (ty : Ty) (e : Encoding) : List Word → Word
  | [selector, callee] =>
    ((callee &&& lowBytesMask 20) <<< 32) ||| (selector &&& lowBytesMask 4)
  | [value] =>
    if ty = .bool then Word.ofBool (value != 0)
    else match e.alignment with
      | .left => rightAlign value e.bytes
      | .right => value &&& lowBytesMask e.bytes
  | _ => 0

/-- The canonical form of a value, its last word first: a truth value is `0` or `1`, unused high
bytes are clear or repeat the sign, and byte sequences are clear below their width. -/
def canonical (ty : Ty) (e : Encoding) : List Word → List Word
  | [selector, callee] => [selector &&& lowBytesMask 4, callee &&& lowBytesMask 20]
  | [value] =>
    if ty = .bool then [Word.ofBool (value != 0)]
    else match e.alignment, e.signedness with
      | .left, _ => [value &&& highBytesMask e.bytes]
      | .right, .signed => [signExtend value e.bytes]
      | .right, _ => [value &&& lowBytesMask e.bytes]
  | value => value

/-- The value types that have a packed form: no internal functions, fixed-point numbers as whole
words only, and external functions under no other name. -/
structure Storable (ty : Ty) (e : Encoding) : Prop where
  encoding : ty.encoding? = .ok e
  one_le_bytes : 1 ≤ e.bytes
  bytes_le : e.bytes ≤ 32
  not_internal : e.form ≠ .internalFunction
  fixedPoint : e.form = .fixedPoint → e.bytes = 32
  external : e.form = .externalFunction → ty = .function .external

/-- The value types that are written to storage: fixed-point numbers as whole words only, and external
functions under no other name.  Internal functions are written like other values. -/
structure Writable (ty : Ty) (e : Encoding) : Prop where
  encoding : ty.encoding? = .ok e
  one_le_bytes : 1 ≤ e.bytes
  bytes_le : e.bytes ≤ 32
  fixedPoint : e.form = .fixedPoint → e.bytes = 32
  external : e.form = .externalFunction → ty = .function .external

/-- A value type that has a packed form is written like others. -/
theorem Storable.writable {ty : Ty} {e : Encoding} (h : Storable ty e) : Writable ty e :=
  ⟨h.encoding, h.one_le_bytes, h.bytes_le, h.fixedPoint, h.external⟩

/-- The encoding of an internal function. -/
theorem encoding_eq_of_internal {ty : Ty} {e : Encoding} (he : ty.encoding? = .ok e)
    (hform : e.form = .internalFunction) : e = ⟨8, .right, .notApplicable, .internalFunction⟩ := by
  induction ty using encoding?.induct with
  | case7 name underlying ih => exact ih he
  | case8 => exact (Except.ok.inj he).symm
  | case10 | case11 | case12 | case13 => contradiction
  | _ =>
    obtain rfl := Except.ok.inj he
    contradiction

/-- A value is one word, or the two of an external function. -/
theorem exists_eq_of_length_eq_sizeOnStack {ty : Ty} {e : Encoding} {value : List Word}
    (h : ty.encoding? = .ok e) (hexternal : e.form = .externalFunction → ty = .function .external)
    (hlength : value.length = ty.sizeOnStack) :
    (e.form ≠ .externalFunction ∧ ∃ word, value = [word]) ∨
      (e.form = .externalFunction ∧ ∃ selector callee, value = [selector, callee]) := by
  rw [sizeOnStack_of_encoding?_eq_ok h hexternal] at hlength
  by_cases hform : e.form = .externalFunction
  · rw [if_pos hform] at hlength
    exact .inr ⟨hform, List.length_eq_two.1 hlength⟩
  · rw [if_neg hform] at hlength
    exact .inl ⟨hform, List.length_eq_one_iff.1 hlength⟩

namespace Writable

variable {ty : Ty} {e : Encoding}

/-- Narrow values are kept as they are, functions apart. -/
theorem form_eq_plain (h : Writable ty e) (hnarrow : e.bytes < 32)
    (hexternal : e.form ≠ .externalFunction) (hinternal : e.form ≠ .internalFunction) :
    e.form = .plain := by
  have hfixed := h.fixedPoint
  cases hcase : e.form with
  | plain => rfl
  | fixedPoint =>
    have := hfixed hcase
    omega
  | internalFunction => contradiction
  | externalFunction => contradiction

/-- The encoding of an external function. -/
theorem eq_of_external (h : Writable ty e) (hform : e.form = .externalFunction) :
    ty = .function .external ∧ e = ⟨24, .right, .notApplicable, .externalFunction⟩ := by
  obtain rfl := h.external hform
  exact ⟨rfl, (Except.ok.inj h.encoding).symm⟩

/-- Every value but an external function is one word. -/
theorem sizeOnStack_eq (h : Writable ty e) :
    ty.sizeOnStack = if e.form = .externalFunction then 2 else 1 :=
  sizeOnStack_of_encoding?_eq_ok h.encoding h.external

/-- A value is one word, or the two of an external function. -/
theorem exists_eq_of_length (h : Writable ty e) {value : List Word}
    (hlength : value.length = ty.sizeOnStack) :
    (e.form ≠ .externalFunction ∧ ∃ word, value = [word]) ∨
      (e.form = .externalFunction ∧ ∃ selector callee, value = [selector, callee]) :=
  exists_eq_of_length_eq_sizeOnStack h.encoding h.external hlength

end Writable

end Ty

/-! ## Moving and masking bytes -/

/-- The mask of high bytes has the bits from the lowest of them on. -/
theorem getLsbD_highBytesMask {width i : Nat} (hi : i < 256) :
    (highBytesMask width).getLsbD i = decide (256 ≤ 8 * width + i) := by
  rw [highBytesMask, BitVec.getLsbD_not, BitVec.getLsbD_ushiftRight, Word.allOnes,
    BitVec.getLsbD_allOnes, decide_eq_true hi, Bool.true_and, ← decide_not]
  congr 1
  apply propext
  omega

/-- A byte sequence that is moved to the low end and back. -/
theorem leftAlign_rightAlign (w : Word) {width : Nat} (hwidth : width ≤ 32) :
    leftAlign (rightAlign w width) width = w &&& highBytesMask width := by
  apply BitVec.eq_of_getLsbD_eq
  intro i hi
  rw [getLsbD_leftAlign _ hwidth hi, getLsbD_rightAlign _ _ hwidth, BitVec.getLsbD_and,
    getLsbD_highBytesMask hi]
  by_cases hle : 256 - 8 * width ≤ i
  · have hbit : 256 - 8 * width + (i - (256 - 8 * width)) = i := by omega
    rw [hbit, decide_eq_true hle, decide_eq_true (by omega), Bool.true_and, Bool.and_true]
  · rw [decide_eq_false hle, decide_eq_false (by omega), Bool.false_and, Bool.and_false]

/-- Low bytes that are moved to the high end and back. -/
theorem rightAlign_leftAlign (w : Word) {width : Nat} (hwidth : width ≤ 32) :
    rightAlign (leftAlign w width) width = w &&& lowBytesMask width := by
  apply BitVec.eq_of_getLsbD_eq
  intro i hi
  rw [getLsbD_rightAlign _ _ hwidth, getLsbD_and_lowBytesMask]
  by_cases hlow : i < 8 * width
  · rw [getLsbD_leftAlign _ hwidth (by omega), decide_eq_true (by omega), decide_eq_true hlow,
      Nat.add_sub_cancel_left]
  · rw [BitVec.getLsbD_of_ge _ _ (by omega), decide_eq_false hlow, Bool.false_and]

/-- The bytes above those that are sign extended do not matter. -/
theorem signExtend_and_lowBytesMask (w : Word) {width : Nat} (hpos : 1 ≤ width) :
    signExtend (w &&& lowBytesMask width) width = signExtend w width := by
  apply BitVec.eq_of_getLsbD_eq
  intro i hi
  rw [getLsbD_signExtend _ hpos hi, getLsbD_signExtend _ hpos hi, getLsbD_and_lowBytesMask,
    decide_eq_true (by omega), Bool.true_and]

/-- Sign extension leaves the low bytes as they are. -/
theorem signExtend_and (w : Word) {width : Nat} (hpos : 1 ≤ width) :
    signExtend w width &&& lowBytesMask width = w &&& lowBytesMask width := by
  apply BitVec.eq_of_getLsbD_eq
  intro i hi
  rw [getLsbD_and_lowBytesMask, getLsbD_and_lowBytesMask, getLsbD_signExtend _ hpos hi]
  by_cases hlow : i < 8 * width
  · rw [Nat.min_eq_left (by omega)]
  · rw [decide_eq_false hlow, Bool.false_and, Bool.false_and]

/-- Masking twice is masking once. -/
theorem and_lowBytesMask_and (w : Word) (width : Nat) :
    w &&& lowBytesMask width &&& lowBytesMask width = w &&& lowBytesMask width := by
  rw [BitVec.and_assoc, BitVec.and_self]

/-- A byte sequence that is moved to the low end has no bytes above its width. -/
theorem rightAlign_and_lowBytesMask (w : Word) {width : Nat} (hwidth : width ≤ 32) :
    rightAlign w width &&& lowBytesMask width = rightAlign w width := by
  apply BitVec.eq_of_getLsbD_eq
  intro i hi
  rw [getLsbD_and_lowBytesMask, getLsbD_rightAlign _ _ hwidth]
  by_cases hlow : i < 8 * width
  · rw [decide_eq_true hlow, Bool.true_and]
  · rw [decide_eq_false hlow, Bool.false_and, BitVec.getLsbD_of_ge _ _ (by omega)]

/-- Low bytes that are shifted to the high end. -/
theorem leftAlign_and_lowBytesMask (w : Word) {width : Nat} (hwidth : width ≤ 32) :
    leftAlign (w &&& lowBytesMask width) width = w <<< (8 * (32 - width)) := by
  apply BitVec.eq_of_getLsbD_eq
  intro i hi
  rw [getLsbD_leftAlign _ hwidth hi, getLsbD_and_lowBytesMask, BitVec.getLsbD_shiftLeft,
    decide_eq_true hi, Bool.true_and]
  by_cases hlow : i < 8 * (32 - width)
  · rw [decide_eq_true hlow, decide_eq_false (by omega)]
    rfl
  · have hbit : i - (256 - 8 * width) = i - 8 * (32 - width) := by omega
    rw [decide_eq_false hlow, decide_eq_true (by omega), decide_eq_true (by omega), hbit]
    rfl

/-! ## External functions -/

section ExternalFunction

variable (selector callee w : Word)

/-- The bits of an external function: the selector below the callee. -/
theorem getLsbD_combined {i : Nat} (hi : i < 256) :
    (((callee &&& lowBytesMask 20) <<< 32) ||| (selector &&& lowBytesMask 4)).getLsbD i =
      if i < 32 then selector.getLsbD i
      else (decide (i < 192) && callee.getLsbD (i - 32)) := by
  rw [BitVec.getLsbD_or, BitVec.getLsbD_shiftLeft, getLsbD_and_lowBytesMask,
    getLsbD_and_lowBytesMask, decide_eq_true hi]
  by_cases hlow : i < 32
  · simp [hlow]
  · have hiff : i - 32 < 8 * 20 ↔ i < 192 := by omega
    simp [hlow, hiff]

/-- The selector is found at the low end. -/
theorem combined_and_lowBytesMask :
    (((callee &&& lowBytesMask 20) <<< 32) ||| (selector &&& lowBytesMask 4)) &&& lowBytesMask 4 =
      selector &&& lowBytesMask 4 := by
  apply BitVec.eq_of_getLsbD_eq
  intro i hi
  rw [getLsbD_and_lowBytesMask, getLsbD_and_lowBytesMask, getLsbD_combined _ _ hi]
  by_cases hlow : i < 32
  · rw [if_pos hlow]
  · rw [decide_eq_false (by omega), Bool.false_and, Bool.false_and]

/-- The callee is found above the selector, and nothing above the callee. -/
theorem combined_ushiftRight :
    (((callee &&& lowBytesMask 20) <<< 32) ||| (selector &&& lowBytesMask 4)) >>> 32 =
      callee &&& lowBytesMask 20 := by
  apply BitVec.eq_of_getLsbD_eq
  intro i _
  rw [BitVec.getLsbD_ushiftRight, getLsbD_and_lowBytesMask]
  by_cases hlow : i < 160
  · rw [getLsbD_combined _ _ (by omega), if_neg (by omega), Nat.add_sub_cancel_left,
      decide_eq_true (show 32 + i < 192 by omega), decide_eq_true (by omega)]
  · rw [decide_eq_false (by omega), Bool.false_and]
    by_cases hword : 32 + i < 256
    · rw [getLsbD_combined _ _ hword, if_neg (by omega), decide_eq_false (by omega), Bool.false_and]
    · exact BitVec.getLsbD_of_ge _ _ (by omega)

/-- An external function at the high end is the one at the low end, shifted there: high bits of the callee
are lost. -/
theorem combined_left_eq :
    ((callee <<< 32) ||| (selector &&& lowBytesMask 4)) <<< 64 =
      (((callee &&& lowBytesMask 20) <<< 32) ||| (selector &&& lowBytesMask 4)) <<< 64 := by
  apply BitVec.eq_of_getLsbD_eq
  intro i hi
  rw [BitVec.getLsbD_shiftLeft, BitVec.getLsbD_shiftLeft, decide_eq_true hi, Bool.true_and]
  by_cases hhigh : i < 64
  · rw [decide_eq_true hhigh, Bool.not_true, Bool.false_and, Bool.false_and]
  · rw [getLsbD_combined _ _ (by omega), BitVec.getLsbD_or, BitVec.getLsbD_shiftLeft,
      getLsbD_and_lowBytesMask]
    by_cases hlow : i - 64 < 32
    · rw [if_pos hlow, decide_eq_true hlow]
      simp
    · rw [if_neg hlow, decide_eq_false hlow, decide_eq_true (show i - 64 < 256 by omega),
        decide_eq_true (show i - 64 < 192 by omega)]
      simp

/-- An external function that is shifted to the high end is shifted back as it was. -/
theorem combined_shiftLeft_ushiftRight :
    ((((callee &&& lowBytesMask 20) <<< 32) ||| (selector &&& lowBytesMask 4)) <<< 64) >>> 64 =
      ((callee &&& lowBytesMask 20) <<< 32) ||| (selector &&& lowBytesMask 4) := by
  apply BitVec.eq_of_getLsbD_eq
  intro i hi
  rw [BitVec.getLsbD_ushiftRight, BitVec.getLsbD_shiftLeft, Nat.add_sub_cancel_left,
    getLsbD_combined _ _ hi]
  by_cases hmiddle : i < 192
  · simp [show 64 + i < 256 by omega]
  · simp [show ¬64 + i < 256 by omega, show ¬ i < 32 by omega, hmiddle]

/-- The 24 low bytes of a word, split and combined again. -/
theorem combined_split :
    (((w >>> 32) &&& lowBytesMask 20) <<< 32) ||| (w &&& lowBytesMask 4) = w &&& lowBytesMask 24 := by
  apply BitVec.eq_of_getLsbD_eq
  intro i hi
  rw [getLsbD_combined _ _ hi, getLsbD_and_lowBytesMask]
  by_cases hlow : i < 32
  · rw [if_pos hlow, decide_eq_true (by omega), Bool.true_and]
  · rw [if_neg hlow, BitVec.getLsbD_ushiftRight, Nat.add_sub_cancel' (by omega)]

/-- A function is read from its 24 bytes. -/
theorem and_lowBytesMask_split :
    w &&& lowBytesMask 24 &&& lowBytesMask 4 = w &&& lowBytesMask 4 ∧
      ((w &&& lowBytesMask 24) >>> 32) &&& lowBytesMask 20 = (w >>> 32) &&& lowBytesMask 20 := by
  rw [← combined_split]
  exact ⟨combined_and_lowBytesMask w (w >>> 32),
    by rw [combined_ushiftRight, and_lowBytesMask_and]⟩

end ExternalFunction

/-! ## Reading what was written -/

namespace Ty.Writable

variable {ty : Ty} {e : Encoding} {value : List Word}

/-- The packed form of a value has no bytes above its width. -/
theorem packed_and_lowBytesMask (h : ty.Writable e) (hlength : value.length = ty.sizeOnStack) :
    ty.packed e value &&& lowBytesMask e.bytes = ty.packed e value := by
  rcases h.exists_eq_of_length hlength with ⟨hform, word, rfl⟩ | ⟨hform, selector, callee, rfl⟩
  · rw [packed]
    split
    · rename_i hbool
      subst hbool
      obtain rfl := Except.ok.inj h.encoding
      cases (word != 0) <;> decide
    · split
      · exact rightAlign_and_lowBytesMask _ h.bytes_le
      · exact and_lowBytesMask_and _ _
  · obtain ⟨rfl, rfl⟩ := h.eq_of_external hform
    rw [packed, ← combined_split, combined_ushiftRight, combined_and_lowBytesMask, and_lowBytesMask_and]

/-- An external function is no whole word. -/
theorem form_ne_of_full (h : ty.Writable e) (hfull : e.bytes = 32) :
    e.form ≠ .externalFunction := by
  intro hform
  obtain ⟨-, rfl⟩ := h.eq_of_external hform
  contradiction

/-- A value that is a whole word is kept as it is. -/
theorem packed_of_full (h : ty.Writable e) (hfull : e.bytes = 32) (word : Word) :
    ty.packed e [word] = word := by
  have hbool : ty ≠ .bool := by
    rintro rfl
    obtain rfl := Except.ok.inj h.encoding
    contradiction
  rw [packed, if_neg hbool, hfull]
  split
  · rfl
  · exact BitVec.and_allOnes

end Ty.Writable

namespace Ty.Storable

variable {ty : Ty} {e : Encoding} {value : List Word}

/-- A whole word is the value that it stands for. -/
theorem valueOf_of_full (h : ty.Storable e) (hfull : e.bytes = 32) (word : Word) :
    e.valueOf word = [word] := by
  rw [Encoding.valueOf, if_neg (h.writable.form_ne_of_full hfull), Encoding.stackForm, hfull]
  split <;> rfl

/-- A value that was packed is read back in its canonical form. -/
theorem valueOf_packed (h : ty.Storable e) (hlength : value.length = ty.sizeOnStack) :
    e.valueOf (ty.packed e value) = ty.canonical e value := by
  rcases h.writable.exists_eq_of_length hlength with ⟨hform, word, rfl⟩ | ⟨hform, selector, callee, rfl⟩
  · rw [Encoding.valueOf, if_neg hform, Encoding.stackForm, packed, canonical]
    by_cases hbool : ty = .bool
    · subst hbool
      obtain rfl := Except.ok.inj h.encoding
      rw [if_pos rfl, if_pos rfl]
      rfl
    · rw [if_neg hbool, if_neg hbool]
      split
      · rename_i hleft
        rw [hleft]
        exact congrArg (fun w => [w]) (leftAlign_rightAlign _ h.bytes_le)
      · rename_i hright hsigned
        rw [hright]
        exact congrArg (fun w => [w]) (signExtend_and_lowBytesMask _ h.one_le_bytes)
      · rename_i hright hsigned
        rw [hright]
  · obtain ⟨rfl, rfl⟩ := h.writable.eq_of_external hform
    rw [Encoding.valueOf, if_pos hform, packed, canonical]
    rw [combined_and_lowBytesMask, combined_ushiftRight, and_lowBytesMask_and]

/-- The words of a value. -/
theorem length_valueOf (h : ty.Storable e) (bytes : Word) :
    (e.valueOf bytes).length = ty.sizeOnStack := by
  rw [h.writable.sizeOnStack_eq, Encoding.valueOf]
  split <;> rfl

/-- Zero bytes stand for zero words. -/
theorem valueOf_zero (h : ty.Storable e) : e.valueOf 0 = List.replicate ty.sizeOnStack 0 := by
  rw [h.writable.sizeOnStack_eq, Encoding.valueOf]
  split
  · decide
  · refine congrArg (fun w => [w]) (BitVec.eq_of_getLsbD_eq fun i hi => ?_)
    rw [Encoding.stackForm]
    split
    · rw [getLsbD_leftAlign _ h.bytes_le hi]
      simp
    · rw [getLsbD_signExtend _ h.one_le_bytes hi]
      simp
    · rfl

/-- Bytes that are read and packed again stay as they were.  A truth value must be one. -/
theorem packed_valueOf (h : ty.Storable e) {bytes : Word}
    (hbytes : bytes &&& lowBytesMask e.bytes = bytes) (hbool : ty = .bool → bytes = 0 ∨ bytes = 1) :
    ty.packed e (e.valueOf bytes) = bytes := by
  rw [Encoding.valueOf]
  by_cases hform : e.form = .externalFunction
  · obtain ⟨rfl, rfl⟩ := h.writable.eq_of_external hform
    rw [if_pos hform, packed, and_lowBytesMask_and, and_lowBytesMask_and, combined_split]
    exact hbytes
  · rw [if_neg hform, packed]
    split
    · rename_i hty
      subst hty
      obtain rfl := Except.ok.inj h.encoding
      rcases hbool rfl with rfl | rfl <;> decide
    · rw [Encoding.stackForm]
      split
      · rename_i hleft
        rw [hleft]
        exact (rightAlign_leftAlign _ h.bytes_le).trans hbytes
      · rename_i hright
        rw [hright]
        split
        · contradiction
        · exact (signExtend_and _ h.one_le_bytes).trans hbytes
        · exact hbytes

end Ty.Storable

end WordPlaces
