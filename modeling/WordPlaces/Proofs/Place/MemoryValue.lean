import WordPlaces.Place.ImmutableVariable
import WordPlaces.Place.MemoryCell
import WordPlaces.Proofs.Emit.Rotation
import WordPlaces.Proofs.FieldLaws
import WordPlaces.Proofs.Place.FieldAccess
import WordPlaces.Proofs.Place.StructWordCopy

/-!
# Values in memory cells

A memory cell keeps a value in its stack form, in a word or in a single byte.  What is written is
brought into its canonical form first, external functions apart, which lose what is not canonical about
them when they are packed into a word.

## Main definitions

* `Ty.Scalar`, `Ty.Kept` — the value types whose values are copied as words, and those that memory
  keeps the values of.
* `Ty.cleaned` — a value after it was converted to a type.
* `MemoryCell.put`, `MemoryCell.valueIn` — memory after a value was written, and the value of a word.

## Main results

* `Memory.loadWord_storeWord`, `Memory.byteAt_loadWord_storeByte` — memory after it was written.
* `Emits.exists_convertType_clean` — converting a value.
* `MemoryCell.exists_write`, `MemoryCell.exists_retrieve` — executing the accesses of a cell.
* `MemoryCell.valueIn_put` — a value is read back in its canonical form.
-/

set_option autoImplicit false

namespace WordPlaces

open Machine Fragment

/-! ## Bytes of memory -/

namespace Word

/-- The word with a byte appended at its low end. -/
def append (w : Word) (b : Byte) : Word := (w <<< 8) ||| b.setWidth 256

/-- The byte that was appended to a word. -/
theorem byteAt_zero_append (w : Word) (b : Byte) : (append w b).byteAt 0 = b := by
  apply BitVec.eq_of_getLsbD_eq
  intro j hj
  rw [getLsbD_byteAt, append, BitVec.getLsbD_or, BitVec.getLsbD_shiftLeft, BitVec.getLsbD_setWidth,
    Nat.mul_zero, Nat.zero_add, decide_eq_true hj, decide_eq_true (show j < 256 by omega)]
  simp

/-- The other bytes of a word to which a byte was appended. -/
theorem byteAt_succ_append (w : Word) (b : Byte) {i : Nat} (hi : i < 31) :
    (append w b).byteAt (i + 1) = w.byteAt i := by
  apply BitVec.eq_of_getLsbD_eq
  intro j hj
  have hbit : 8 * (i + 1) + j - 8 = 8 * i + j := by omega
  rw [getLsbD_byteAt, getLsbD_byteAt, append, BitVec.getLsbD_or, BitVec.getLsbD_shiftLeft,
    BitVec.getLsbD_setWidth, hbit, BitVec.getLsbD_of_ge b _ (by omega), Bool.and_false,
    Bool.or_false, decide_eq_true (show 8 * (i + 1) + j < 256 by omega),
    decide_eq_false (show ¬8 * (i + 1) + j < 8 by omega)]
  rfl

/-- A byte of a word that is made of bytes, the most significant one first. -/
theorem byteAt_ofBytes_range (f : Nat → Byte) {n i : Nat} (hn : n ≤ 32) (hi : i < n) :
    (ofBytes ((List.range n).map f)).byteAt i = f (n - 1 - i) := by
  induction n generalizing i with
  | zero => contradiction
  | succ n ih =>
    have hlast : ofBytes ((List.range (n + 1)).map f) =
        append (ofBytes ((List.range n).map f)) (f n) := by
      rw [List.range_succ, List.map_append, ofBytes, List.foldl_append]
      rfl
    rw [hlast]
    cases i with
    | zero => exact byteAt_zero_append _ _
    | succ i =>
      rw [byteAt_succ_append _ _ (by omega), ih (by omega) (by omega)]
      congr 1
      omega

end Word

namespace Memory

variable (m : Memory) (address : Nat)

/-- A byte of a word that is read. -/
theorem byteAt_loadWord {i : Nat} (hi : i < 32) :
    (m.loadWord address).byteAt i = m.bytes (address + (31 - i)) :=
  Word.byteAt_ofBytes_range _ (Nat.le_refl 32) hi

/-- A word is read as it was written. -/
theorem loadWord_storeWord (w : Word) : (m.storeWord address w).loadWord address = w := by
  apply Word.eq_of_byteAt_eq
  intro i hi
  have hbyte : address + 31 - (address + (31 - i)) = i := by omega
  rw [byteAt_loadWord _ _ hi, storeWord]
  simp only
  rw [if_pos (by omega), hbyte]

/-- A byte that was written is the first one of the word that is read. -/
theorem byteAt_loadWord_storeByte (b : Byte) :
    ((m.storeByte address b).loadWord address).byteAt 31 = b := by
  rw [byteAt_loadWord _ _ (by decide)]
  exact if_pos rfl

end Memory

/-! ## Canonical forms -/

namespace Ty

variable {ty : Ty} {e : Encoding} {value : List Word}

/-- The value types of one to 32 bytes whose values are copied as words: no internal functions, and
external functions under no other name. -/
structure Scalar (ty : Ty) (e : Encoding) : Prop where
  encoding : ty.encoding? = .ok e
  one_le_bytes : 1 ≤ e.bytes
  bytes_le : e.bytes ≤ 32
  not_internal : e.form ≠ .internalFunction
  external : e.form = .externalFunction → ty = .function .external

/-- The value types of one to 32 bytes that memory keeps the values of: external functions under no
other name. -/
structure Kept (ty : Ty) (e : Encoding) : Prop where
  encoding : ty.encoding? = .ok e
  one_le_bytes : 1 ≤ e.bytes
  bytes_le : e.bytes ≤ 32
  external : e.form = .externalFunction → ty = .function .external

/-- A value, its last word first, after it was converted to a type: external functions stay as they
are. -/
def cleaned (ty : Ty) (e : Encoding) (value : List Word) : List Word :=
  if e.form = .externalFunction then value else ty.canonical e value

/-- The word that memory keeps for a value, its last word first.  An external function is an address
above a selector, at the high end. -/
def memoryWord (ty : Ty) (e : Encoding) : List Word → Word
  | [selector, callee] => ((callee <<< 32) ||| (selector &&& lowBytesMask 4)) <<< 64
  | value => (ty.canonical e value).headD 0

/-- The word that is written for a value that takes `width` bytes: its significant bytes are moved to the
high end if they are not there. -/
def writtenWord (ty : Ty) (e : Encoding) (width : Nat) (value : List Word) : Word :=
  if e.form ≠ .externalFunction ∧ e.alignment = .right then ty.memoryWord e value <<< (8 * (32 - width))
  else ty.memoryWord e value

namespace Scalar

/-- Fixed-point numbers are the types that can be copied and have no packed form. -/
theorem storable (h : ty.Scalar e) (hfixed : e.form = .fixedPoint → e.bytes = 32) :
    ty.Storable e :=
  ⟨h.encoding, h.one_le_bytes, h.bytes_le, h.not_internal, hfixed, h.external⟩

/-- Memory keeps the values of every scalar type. -/
theorem kept (h : ty.Scalar e) : ty.Kept e :=
  ⟨h.encoding, h.one_le_bytes, h.bytes_le, h.external⟩

/-- A scalar is one word, or the two of an external function. -/
theorem sizeOnStack_eq (h : ty.Scalar e) :
    ty.sizeOnStack = if e.form = .externalFunction then 2 else 1 :=
  sizeOnStack_of_encoding?_eq_ok h.encoding h.external

end Scalar

/-- The bytes of a value that is not padded. -/
theorem memoryBytes_of_not_padded (he : ty.encoding? = .ok e) : ty.memoryBytes false = e.bytes := by
  rw [memoryBytes, isValueType_of_encoding?_eq_ok he, bytes_of_encoding?_eq_ok he]
  rfl

/-- Only a value that is not padded takes less than a word. -/
theorem padded_eq_false {padded : Bool} (hne : ty.memoryBytes padded ≠ 32) : padded = false :=
  Bool.of_not_eq_true fun hpadded => hne (by rw [hpadded]; rfl)

/-- The word of a value that takes a whole word. -/
theorem writtenWord_full (ty : Ty) (e : Encoding) (value : List Word) :
    ty.writtenWord e 32 value = ty.memoryWord e value := by
  rw [writtenWord, Nat.sub_self, Nat.mul_zero, BitVec.shiftLeft_zero, ite_self]

namespace Kept

/-- A value takes the bytes of a word, or those of its packed form. -/
theorem memoryBytes_eq (h : ty.Kept e) (padded : Bool) :
    ty.memoryBytes padded = if padded then 32 else e.bytes := by
  cases padded with
  | true => rfl
  | false => exact memoryBytes_of_not_padded h.encoding

/-- A value takes no more than a word. -/
theorem memoryBytes_le (h : ty.Kept e) (padded : Bool) : ty.memoryBytes padded ≤ 32 := by
  have hle := h.bytes_le
  rw [h.memoryBytes_eq]
  split <;> omega

/-- A value takes at least one byte. -/
theorem one_le_memoryBytes (h : ty.Kept e) (padded : Bool) : 1 ≤ ty.memoryBytes padded := by
  have hpos := h.one_le_bytes
  rw [h.memoryBytes_eq]
  split <;> omega

/-- A value is one word, or the two of an external function. -/
theorem sizeOnStack_eq (h : ty.Kept e) :
    ty.sizeOnStack = if e.form = .externalFunction then 2 else 1 :=
  sizeOnStack_of_encoding?_eq_ok h.encoding h.external

/-- A value is one word, or the two of an external function. -/
theorem exists_eq_of_length (h : ty.Kept e) (hlength : value.length = ty.sizeOnStack) :
    (e.form ≠ .externalFunction ∧ ∃ word, value = [word]) ∨
      (e.form = .externalFunction ∧ ∃ selector callee, value = [selector, callee]) :=
  exists_eq_of_length_eq_sizeOnStack h.encoding h.external hlength

/-- The field of values of the type lies within a word. -/
theorem fits (h : ty.Kept e) : (e.field 0).Fits := ⟨h.one_le_bytes, by
  rw [Encoding.field, Nat.zero_add]
  exact h.bytes_le⟩

/-- The canonical form of one word is that of a field. -/
theorem canonical_singleton (hbool : ty ≠ .bool) (word : Word) :
    ty.canonical e [word] = [(e.field 0).canonical word] := by
  rw [canonical, if_neg hbool]
  unfold PackedField.canonical Encoding.field
  dsimp only
  cases e.alignment <;> cases e.signedness <;> rfl

/-- A word in its canonical form, which stays as it is. -/
theorem exists_canonical_eq (h : ty.Kept e) (word : Word) :
    ∃ clean, ty.canonical e [word] = [clean] ∧ ty.canonical e [clean] = [clean] ∧
      (e.field 0).canonical clean = clean := by
  by_cases hbool : ty = .bool
  · subst hbool
    obtain rfl := Except.ok.inj h.encoding
    refine ⟨Word.ofBool (word != 0), rfl, ?_, ?_⟩ <;> cases (word != 0) <;> decide
  · have hclean := (e.field 0).canonical_canonical h.fits word
    refine ⟨_, canonical_singleton hbool word, ?_, hclean⟩
    rw [canonical_singleton hbool, hclean]

/-- The canonical form of a value has as many words as the value. -/
theorem length_canonical (h : ty.Kept e) (hlength : value.length = ty.sizeOnStack) :
    (ty.canonical e value).length = ty.sizeOnStack := by
  rw [← hlength]
  rcases h.exists_eq_of_length hlength with ⟨-, word, rfl⟩ | ⟨-, selector, callee, rfl⟩
  · obtain ⟨clean, hclean, -⟩ := h.exists_canonical_eq word
    rw [hclean]
    rfl
  · rfl

/-- A converted value has as many words as before. -/
theorem length_cleaned (h : ty.Kept e) (hlength : value.length = ty.sizeOnStack) :
    (ty.cleaned e value).length = ty.sizeOnStack := by
  rw [cleaned]
  split
  · exact hlength
  · exact h.length_canonical hlength

/-- The canonical form of a value is that of the converted value. -/
theorem canonical_cleaned (h : ty.Kept e) (hlength : value.length = ty.sizeOnStack) :
    ty.canonical e (ty.cleaned e value) = ty.canonical e value := by
  rcases h.exists_eq_of_length hlength with ⟨hform, word, rfl⟩ | ⟨hform, -⟩
  · obtain ⟨clean, hclean, hself, -⟩ := h.exists_canonical_eq word
    rw [cleaned, if_neg hform, hclean, hself]
  · rw [cleaned, if_pos hform]

/-- A whole word is in its canonical form. -/
theorem canonical_of_full (h : ty.Kept e) (hfull : e.bytes = 32) (word : Word) :
    ty.canonical e [word] = [word] := by
  have hbool : ty ≠ .bool := by
    rintro rfl
    obtain rfl := Except.ok.inj h.encoding
    contradiction
  have hmask : ∀ mask : Word, mask = BitVec.allOnes 256 → word &&& mask = word := by
    rintro _ rfl
    exact BitVec.and_allOnes
  have hhigh : highBytesMask 32 = BitVec.allOnes 256 := by decide
  have hclean : (e.field 0).canonical word = word := by
    rw [PackedField.canonical, Encoding.field, hfull]
    cases e.alignment with
    | left => exact hmask _ hhigh
    | right => cases e.signedness <;> first | rfl | exact hmask _ rfl
  rw [canonical_singleton hbool, hclean]

/-- The words of a value are read from the word that memory keeps for it, in their canonical form. -/
theorem memoryValue_memoryWord (h : ty.Kept e) (hlength : value.length = ty.sizeOnStack) :
    e.memoryValue (ty.memoryWord e value) = ty.canonical e value := by
  rcases h.exists_eq_of_length hlength with ⟨hform, word, rfl⟩ | ⟨hform, selector, callee, rfl⟩
  · obtain ⟨clean, hclean, -⟩ := h.exists_canonical_eq word
    have hword : ty.memoryWord e [word] = (ty.canonical e [word]).headD 0 := rfl
    rw [Encoding.memoryValue, if_neg hform, hword, hclean]
    rfl
  · rw [Encoding.memoryValue, if_pos hform, memoryWord, canonical, combined_left_eq,
      BitVec.shiftRight_add _ 64 32, combined_shiftLeft_ushiftRight, combined_and_lowBytesMask,
      combined_ushiftRight]

end Kept

end Ty

/-- The value, its last word first, of a word of which the `width` highest bytes count. -/
def Encoding.readValue (e : Encoding) (width : Nat) (word : Word) : List Word :=
  if e.form = .externalFunction ∨ width = 32 then e.memoryValue word
  else [e.stackForm (word >>> (8 * (32 - width)))]

/-! ## Converting -/

namespace Emits

variable {source ty : Ty} {e : Encoding}

/-- A value type is converted by cleaning it. -/
theorem exists_convertType_clean (sc : Scope) (h : ty.Kept e) (hsource : source.isValueType = true) :
    ∃ code, Emits sc (WordPlaces.convertType source ty true false) code (.ok ()) ∧
      heightFrom ty.sizeOnStack code = some ty.sizeOnStack ∧
      ∀ (m : Machine) (value rest : List Word) (code' : Code), value.length = ty.sizeOnStack →
        (m.withStack (value ++ rest)).run (code ++ code') =
          (m.withStack (ty.cleaned e value ++ rest)).run code' := by
  by_cases hform : e.form = .externalFunction
  · have hclean : Emits sc (cleanupValue ty) [] (.ok ()) := by
      refine bind_nil (.orFault h.encoding) ?_
      rw [if_pos (.inl hform)]
      exact .pure ()
    refine ⟨_, convertType hsource h.encoding hclean, rfl, fun m value rest code' _ => ?_⟩
    rw [Ty.cleaned, if_pos hform]
    rfl
  simp only [Ty.cleaned, if_neg hform]
  have hsize : ty.sizeOnStack = 1 := by rw [h.sizeOnStack_eq, if_neg hform]
  by_cases hfull : e.bytes = 32
  · refine ⟨_, convertType hsource h.encoding (cleanupValue_of_full h.encoding hfull), rfl,
      fun m value rest code' hlength => ?_⟩
    obtain ⟨word, rfl⟩ := List.length_eq_one_iff.1 (hlength.trans hsize)
    rw [h.canonical_of_full hfull]
    rfl
  · obtain ⟨clean, hclean, hheight, hrun⟩ := exists_cleanupValue sc h.encoding h.one_le_bytes
      (Nat.lt_of_le_of_ne h.bytes_le hfull) hform
    refine ⟨clean ++ [], convertType hsource h.encoding hclean, ?_, fun m value rest code' hlength => ?_⟩
    · rw [List.append_nil, hsize]
      exact hheight
    · obtain ⟨word, rfl⟩ := List.length_eq_one_iff.1 (hlength.trans hsize)
      rw [List.append_nil]
      exact hrun m word rest code'

/-- A value is written to the word at an address, and the address behind its bytes is left. -/
theorem exists_storeInMemory (sc : Scope) (h : ty.Kept e) (padded : Bool) :
    ∃ code, Emits sc (storeInMemory ty padded) code (.ok ()) ∧
      heightFrom (ty.sizeOnStack + 1) code = some 1 ∧
      ∀ (m : Machine) (value : List Word) (a : Word) (rest : List Word) (code' : Code),
        value.length = ty.sizeOnStack →
        (m.withStack (value ++ a :: rest)).run (code ++ code') = access a 32 >>= fun address =>
          ({ m with
              memory := m.memory.storeWord address (ty.writtenWord e (ty.memoryBytes padded) value)
            }.withStack ((BitVec.ofNat 256 (ty.memoryBytes padded) + a) :: rest)).run code' := by
  have hvalue := Ty.isValueType_of_encoding?_eq_ok h.encoding
  have hwidth := h.memoryBytes_le padded
  have hwrite : ∀ (m : Machine) (w a : Word) (rest : List Word) (code' : Code),
      (m.withStack (w :: a :: rest)).run
          ([.dup 2, .mstore, .pushNat (ty.memoryBytes padded), .add] ++ code') =
        access a 32 >>= fun address => ({ m with memory := m.memory.storeWord address w }.withStack
          ((BitVec.ofNat 256 (ty.memoryBytes padded) + a) :: rest)).run code' := by
    intro m w a rest code'
    simp only [List.cons_append, List.nil_append]
    rw [run_dup_two, run_mstore]
    rfl
  unfold storeInMemory Ty.writtenWord
  rw [if_pos hvalue]
  by_cases hform : e.form = .externalFunction
  · refine ⟨combineExternal true ++ [.dup 2, .mstore, .pushNat (ty.memoryBytes padded), .add],
      bind_nil (.orFault h.encoding) ?_, ?_, fun m value a rest code' hlength => ?_⟩
    · rw [if_pos hform]
      exact (Emits.emitAll _).bind (.emitAll _)
    · rw [h.sizeOnStack_eq, if_pos hform]
      rfl
    · rw [h.sizeOnStack_eq, if_pos hform] at hlength
      obtain ⟨selector, callee, rfl⟩ := List.length_eq_two.1 hlength
      rw [List.append_assoc, List.cons_append, List.singleton_append, run_combineExternal_left, hwrite,
        if_neg fun hright => hright.1 hform]
      rfl
  · obtain ⟨clean, hclean, hheight, hrun⟩ := exists_convertType_clean sc h hvalue
    have hsize : ty.sizeOnStack = 1 := by rw [h.sizeOnStack_eq, if_neg hform]
    have hcleaned : ∀ (m : Machine) (value rest : List Word) (code' : Code),
        value.length = ty.sizeOnStack → (m.withStack (value ++ rest)).run (clean ++ code') =
          (m.withStack (ty.memoryWord e value :: rest)).run code' := by
      intro m value rest code' hlength
      obtain ⟨word, rfl⟩ := List.length_eq_one_iff.1 (hlength.trans hsize)
      obtain ⟨clean, hcanonical, -⟩ := h.exists_canonical_eq word
      have hword : ty.memoryWord e [word] = (ty.canonical e [word]).headD 0 := rfl
      rw [hrun _ _ _ _ hlength, Ty.cleaned, if_neg hform, hword, hcanonical]
      rfl
    rw [hsize] at hheight
    by_cases hmoved : ty.memoryBytes padded ≠ 32 ∧ padded = false ∧ e.alignment = .right
    · have hpos := h.one_le_memoryBytes padded
      have hbits : 8 * (32 - ty.memoryBytes padded) < 256 := by omega
      refine ⟨clean ++ (shiftLeft (8 * (32 - ty.memoryBytes padded)) ++
        [.dup 2, .mstore, .pushNat (ty.memoryBytes padded), .add]), bind_nil (.orFault h.encoding) ?_, ?_,
        fun m value a rest code' hlength => ?_⟩
      · rw [if_neg hform]
        refine hclean.bind ?_
        rw [if_pos hmoved]
        exact bind_nil (unusedBits hwidth) ((leftShift hbits).bind (.emitAll _))
      · have hne := hmoved.1
        rw [hsize, shiftLeft, if_neg (by omega), heightFrom_append, heightFrom_add 1 hheight]
        rfl
      · rw [List.append_assoc, hcleaned _ _ _ _ hlength, List.append_assoc, run_shiftLeft _ _ _ _ hbits,
          hwrite, if_pos ⟨hform, hmoved.2.2⟩]
    · refine ⟨clean ++ [.dup 2, .mstore, .pushNat (ty.memoryBytes padded), .add],
        bind_nil (.orFault h.encoding) ?_, ?_, fun m value a rest code' hlength => ?_⟩
      · rw [if_neg hform]
        refine hclean.bind ?_
        rw [if_neg hmoved]
        exact .emitAll _
      · rw [hsize, heightFrom_append, heightFrom_add 1 hheight]
        rfl
      · have hword : (if e.form ≠ .externalFunction ∧ e.alignment = .right then
            ty.memoryWord e value <<< (8 * (32 - ty.memoryBytes padded)) else ty.memoryWord e value) =
            ty.memoryWord e value := by
          split
          · -- a right aligned value that is not moved takes a whole word
            rename_i hright
            have hfull : ty.memoryBytes padded = 32 := by
              by_contra hne
              exact hmoved ⟨hne, Ty.padded_eq_false hne, hright.2⟩
            rw [hfull, Nat.sub_self, Nat.mul_zero, BitVec.shiftLeft_zero]
          · rfl
        rw [List.append_assoc, hcleaned _ _ _ _ hlength, hwrite, hword]

/-- A value is written to a word of memory, and the address behind the word is left. -/
theorem exists_storeInMemory_padded (sc : Scope) (h : ty.Kept e) :
    ∃ code, Emits sc (storeInMemory ty true) code (.ok ()) ∧
      heightFrom (ty.sizeOnStack + 1) code = some 1 ∧
      ∀ (m : Machine) (value : List Word) (a : Word) (rest : List Word) (code' : Code),
        value.length = ty.sizeOnStack →
        (m.withStack (value ++ a :: rest)).run (code ++ code') = access a 32 >>= fun address =>
          ({ m with memory := m.memory.storeWord address (ty.memoryWord e value) }.withStack
            ((32 + a) :: rest)).run code' := by
  obtain ⟨code, hcode, hheight, hrun⟩ := exists_storeInMemory sc h true
  refine ⟨code, hcode, hheight, fun m value a rest code' hlength => ?_⟩
  rw [← Ty.writtenWord_full]
  exact hrun m value a rest code' hlength

/-- Bytes that were moved to the low end are brought into their stack form. -/
theorem exists_stackForm (sc : Scope) (hpos : 1 ≤ e.bytes) (hnarrow : e.bytes < 32) :
    ∃ code, Emits sc (match e.alignment, e.signedness with
        | .left, _ => WordPlaces.leftShift (8 * (32 - e.bytes))
        | .right, .signed => WordPlaces.signExtendFrom e.bytes
        | .right, _ => Pure.pure ()) code (.ok ()) ∧
      heightFrom 1 code = some 1 ∧
      ∀ (m : Machine) (w : Word) (rest : List Word) (code' : Code),
        (m.withStack (w :: rest)).run (code ++ code') = (m.withStack (e.stackForm w :: rest)).run code' := by
  unfold Encoding.stackForm
  cases e.alignment with
  | left =>
    have hbits : 8 * (32 - e.bytes) = 256 - 8 * e.bytes := by omega
    refine ⟨_, .leftShift (by omega), ?_, fun m w rest code' => ?_⟩
    · rw [shiftLeft, if_neg (by omega)]
      rfl
    · rw [run_shiftLeft _ _ _ _ (by omega), hbits, leftAlign,
        if_neg (show ¬wordBytes ≤ e.bytes from Nat.not_le_of_lt hnarrow)]
  | right =>
    cases e.signedness with
    | signed =>
      exact ⟨_, .signExtendFrom hpos, rfl, fun m w rest code' =>
        run_signExtendBytes m w rest code' hpos hnarrow⟩
    | unsigned | notApplicable => exact ⟨[], .pure (), rfl, fun m w rest code' => rfl⟩

/-- A value is read from the high end of the word at its address. -/
theorem exists_loadFromMemory (sc : Scope) (he : ty.encoding? = .ok e)
    (hexternal : e.form = .externalFunction → ty = .function .external) {padded : Bool}
    (hbytes : padded = true ∨ 1 ≤ e.bytes ∧ e.bytes ≤ 32) :
    ∃ code, Emits sc (loadFromMemory ty padded) code (.ok ()) ∧
      heightFrom 1 code = some ty.sizeOnStack ∧
      ∀ (m : Machine) (a : Word) (rest : List Word) (code' : Code),
        (m.withStack (a :: rest)).run (code ++ code') = access a 32 >>= fun address =>
          ((m.touch address).withStack
            (e.readValue (ty.memoryBytes padded) (m.memory.loadWord address) ++ rest)).run code' := by
  rw [Ty.sizeOnStack_of_encoding?_eq_ok he hexternal]
  unfold loadFromMemory Encoding.readValue Encoding.memoryValue
  by_cases hform : e.form = .externalFunction
  · simp only [hform, true_or, if_true]
    refine ⟨[.mload] ++ splitExternal true, .bind_nil (.orFault he) ((Emits.emit _).bind ?_), rfl,
      fun m a rest code' => ?_⟩
    · rw [if_pos hform]
      exact .emitAll _
    · rw [List.append_assoc, List.singleton_append, run_mload]
      exact bind_congr fun address => run_splitExternal_left _ _ _ _
  simp only [hform, false_or, if_false]
  by_cases hfull : ty.memoryBytes padded = 32
  · simp only [hfull, if_true]
    refine ⟨[.mload] ++ [], .bind_nil (.orFault he) ((Emits.emit _).bind ?_), rfl,
      fun m a rest code' => run_mload _ _ _ _⟩
    rw [if_neg hform]
    exact .pure ()
  · have hpadded := Ty.padded_eq_false hfull
    have hwidth : ty.memoryBytes padded = e.bytes := by rw [hpadded, Ty.memoryBytes_of_not_padded he]
    obtain ⟨hpos, hle⟩ := hbytes.resolve_left (by simp [hpadded])
    have hnarrow : e.bytes < 32 := by omega
    obtain ⟨last, hlast, hheight, hrun⟩ := exists_stackForm sc hpos hnarrow
    have hbits : 8 * (32 - e.bytes) < 256 := by omega
    refine ⟨[.mload] ++ (shiftRight (8 * (32 - e.bytes)) ++ last),
      .bind_nil (.orFault he) ((Emits.emit _).bind ?_), ?_, fun m a rest code' => ?_⟩
    · rw [if_neg hform, if_neg hfull, hwidth]
      exact .bind_nil (Emits.unusedBits hle) ((Emits.rightShift hbits).bind hlast)
    · rw [shiftRight, if_neg (by omega)]
      exact hheight
    · rw [List.append_assoc, List.singleton_append, run_mload]
      refine bind_congr fun address => ?_
      rw [if_neg hfull, List.append_assoc, run_shiftRight _ _ _ _ hbits, hrun, hwidth]
      rfl

end Emits

/-! ## Cells -/

/-- The lowest byte of a word that is a byte. -/
theorem Word.byteAt_zero_setWidth (b : Byte) : Word.byteAt (b.setWidth 256) 0 = b := by
  ext j hj
  simp [Word.byteAt, hj, show j < 256 by omega]

/-- The highest byte of a word, as a word. -/
theorem ushiftRight_eq_byteAt (w : Word) : w >>> 248 = (w.byteAt 31).setWidth 256 := by
  have hhigh : rightAlign w 1 = w >>> 248 := rfl
  rw [← bytesIn_one, bytesIn, ← hhigh]
  exact (rightAlign_and_lowBytesMask w (by decide)).symm

namespace MemoryCell

variable {cell : MemoryCell} {e : Encoding}

/-- The bytes of memory that a write replaces. -/
def width (cell : MemoryCell) : Nat := if cell.padded then 32 else 1

/-- Memory after a value, its last word first, was written to the cell.  A single byte is the highest
one of a byte sequence and the lowest one of other values. -/
def put (cell : MemoryCell) (e : Encoding) (memory : Memory) (address : Nat) (value : List Word) :
    Memory :=
  if cell.padded then memory.storeWord address (cell.ty.memoryWord e value)
  else memory.storeByte address
    ((value.headD 0).byteAt (match e.alignment with | .left => 31 | .right => 0))

/-- The value, its last word first, of the word at the address of the cell. -/
def valueIn (cell : MemoryCell) (e : Encoding) (word : Word) : List Word :=
  if cell.padded then e.memoryValue word else [e.stackForm (word >>> 248)]

/-- A single byte is no external function. -/
theorem form_ne_of_bytes_eq_one {ty : Ty} (he : ty.encoding? = .ok e)
    (hexternal : e.form = .externalFunction → ty = .function .external) (hone : e.bytes = 1) :
    e.form ≠ .externalFunction := by
  intro hform
  rw [hexternal hform] at he
  obtain rfl := Except.ok.inj he
  contradiction

/-- What was written to a cell is read back in its canonical form. -/
theorem valueIn_put (h : cell.ty.Kept e) (hcell : cell.padded = true ∨ e.bytes = 1)
    {value : List Word} (hlength : value.length = cell.ty.sizeOnStack) (memory : Memory)
    (address : Nat) :
    cell.valueIn e ((cell.put e memory address (cell.ty.cleaned e value)).loadWord address) =
      cell.ty.canonical e value := by
  rw [valueIn, put]
  by_cases hpadded : cell.padded = true
  · rw [if_pos hpadded, if_pos hpadded, Memory.loadWord_storeWord,
      h.memoryValue_memoryWord (h.length_cleaned hlength), h.canonical_cleaned hlength]
  · have hone := hcell.resolve_left hpadded
    have hform := form_ne_of_bytes_eq_one h.encoding h.external hone
    rw [h.sizeOnStack_eq, if_neg hform] at hlength
    obtain ⟨word, rfl⟩ := List.length_eq_one_iff.1 hlength
    obtain ⟨clean, hclean, -, hself⟩ := h.exists_canonical_eq word
    have hraw : ((clean.byteAt (match e.alignment with | .left => 31 | .right => 0)).setWidth 256 : Word) =
        (e.field 0).raw clean := by
      rw [PackedField.raw, Encoding.field, hone]
      cases e.alignment with
      | left => exact (ushiftRight_eq_byteAt clean).symm
      | right => exact (bytesIn_one clean).symm.trans (by rw [bytesIn, Nat.mul_zero, BitVec.ushiftRight_zero])
    rw [if_neg hpadded, if_neg hpadded, Ty.cleaned, if_neg hform, hclean, ushiftRight_eq_byteAt,
      Memory.byteAt_loadWord_storeByte, List.headD_cons, hraw]
    exact congrArg (fun w => [w]) (((e.field 0).stackForm_raw h.fits clean).trans hself)

/-- A single byte is moved to the low end and written. -/
theorem exists_write_byte (sc : Scope) (he : cell.ty.encoding? = .ok e) (hpadded : ¬cell.padded = true)
    (hone : e.bytes = 1) :
    ∃ code, Emits sc cell.write code (.ok ()) ∧ heightFrom 2 code = some 0 ∧
      ∀ (m : Machine) (w a : Word) (rest : List Word) (code' : Code),
        (m.withStack (w :: a :: rest)).run (code ++ code') = access a 1 >>= fun address =>
          ({ m with memory := cell.put e m.memory address [w] }.withStack rest).run code' := by
  have hbytes : ¬cell.ty.memoryBytes false ≠ 1 := by
    rw [Ty.memoryBytes_of_not_padded he, hone]
    exact not_not.2 rfl
  have hstore : ∀ (m : Machine) (w a : Word) (rest : List Word) (code' : Code),
      (m.withStack (w :: a :: rest)).run ([.swap 1, .mstore8] ++ code') =
        access a 1 >>= fun address =>
          ({ m with memory := m.memory.storeByte address (w.byteAt 0) }.withStack rest).run code' := by
    intro m w a rest code'
    simp only [List.cons_append, List.nil_append]
    rw [run_swap_one, run_mstore8]
  unfold write put
  simp only [hpadded, if_neg hbytes]
  cases halign : e.alignment with
  | left =>
    refine ⟨[.push 0, .byte] ++ [.swap 1, .mstore8], .bind_nil (.orFault he) ?_, rfl,
      fun m w a rest code' => ?_⟩
    · rw [if_pos halign]
      exact (Emits.emitAll _).bind (.emitAll _)
    · have hbyte : evalBinary .byte 0 w = (w.byteAt 31).setWidth 256 := rfl
      simp only [List.cons_append, List.nil_append]
      rw [run_push, run_binary, hbyte]
      refine (hstore _ _ _ _ _).trans ?_
      rw [Word.byteAt_zero_setWidth]
      rfl
  | right =>
    refine ⟨[.swap 1, .mstore8], .bind_nil (.orFault he) ?_, rfl, fun m w a rest code' => ?_⟩
    · rw [if_neg (by rw [halign]; decide)]
      exact .emitAll _
    · exact hstore m w a rest code'

/-- The write of a cell takes the value and the address. -/
theorem exists_write (sc : Scope) (h : cell.ty.Kept e) (hcell : cell.padded = true ∨ e.bytes = 1) :
    ∃ code, Emits sc cell.write code (.ok ()) ∧
      heightFrom (cell.ty.sizeOnStack + 1) code = some 0 ∧
      ∀ (m : Machine) (value : List Word) (a : Word) (rest : List Word) (code' : Code),
        value.length = cell.ty.sizeOnStack →
        (m.withStack (value ++ a :: rest)).run (code ++ code') =
          access a cell.width >>= fun address =>
            ({ m with memory := cell.put e m.memory address value }.withStack rest).run code' := by
  unfold width
  by_cases hpadded : cell.padded = true
  · obtain ⟨code, hcode, hheight, hrun⟩ := Emits.exists_storeInMemory_padded sc h
    unfold write put
    simp only [hpadded, if_true]
    refine ⟨code ++ [.pop], hcode.bind (.emit _), ?_, fun m value a rest code' hlength => ?_⟩
    · rw [heightFrom_append, hheight]
      rfl
    · rw [List.append_assoc, hrun _ _ _ _ _ hlength]
      rfl
  · have hone := hcell.resolve_left hpadded
    obtain ⟨code, hcode, hheight, hrun⟩ := exists_write_byte sc h.encoding hpadded hone
    have hsize : cell.ty.sizeOnStack = 1 := by
      rw [h.sizeOnStack_eq, if_neg (form_ne_of_bytes_eq_one h.encoding h.external hone)]
    rw [hsize, if_neg hpadded]
    refine ⟨code, hcode, hheight, fun m value a rest code' hlength => ?_⟩
    obtain ⟨w, rfl⟩ := List.length_eq_one_iff.1 hlength
    exact hrun m w a rest code'

/-- A value is read from the word at its address. -/
theorem exists_loadFromMemory (sc : Scope) (he : cell.ty.encoding? = .ok e)
    (hexternal : e.form = .externalFunction → cell.ty = .function .external)
    (hcell : cell.padded = true ∨ e.bytes = 1) :
    ∃ code, Emits sc (loadFromMemory cell.ty cell.padded) code (.ok ()) ∧
      heightFrom 1 code = some cell.ty.sizeOnStack ∧
      ∀ (m : Machine) (a : Word) (rest : List Word) (code' : Code),
        (m.withStack (a :: rest)).run (code ++ code') = access a 32 >>= fun address =>
          ((m.touch address).withStack (cell.valueIn e (m.memory.loadWord address) ++ rest)).run
            code' := by
  have hbytes : cell.padded = true ∨ 1 ≤ e.bytes ∧ e.bytes ≤ 32 := hcell.imp_right (by omega)
  have hvalue : e.readValue (cell.ty.memoryBytes cell.padded) = cell.valueIn e := by
    funext word
    unfold Encoding.readValue valueIn
    by_cases hpadded : cell.padded = true
    · rw [if_pos hpadded, if_pos (.inr (by rw [hpadded]; rfl))]
    · have hone := hcell.resolve_left hpadded
      have hwidth : cell.ty.memoryBytes cell.padded = 1 := by
        rw [Bool.of_not_eq_true hpadded, Ty.memoryBytes_of_not_padded he, hone]
      have hform := form_ne_of_bytes_eq_one he hexternal hone
      rw [if_neg hpadded, hwidth, if_neg (not_or.2 ⟨hform, by decide⟩)]
  rw [← hvalue]
  exact Emits.exists_loadFromMemory sc he hexternal hbytes

/-- A value is read from a cell, and its address is taken or left below the value. -/
theorem exists_retrieve (sc : Scope) (he : cell.ty.encoding? = .ok e)
    (hexternal : e.form = .externalFunction → cell.ty = .function .external)
    (hcell : cell.padded = true ∨ e.bytes = 1) (remove : Bool) :
    ∃ code, Emits sc (cell.retrieve remove) code (.ok ()) ∧
      heightFrom 1 code = some (cell.ty.sizeOnStack + if remove then 0 else 1) ∧
      ∀ (m : Machine) (a : Word) (rest : List Word) (code' : Code),
        (m.withStack (a :: rest)).run (code ++ code') = access a 32 >>= fun address =>
          ((m.touch address).withStack (cell.valueIn e (m.memory.loadWord address) ++
            ((if remove then [] else [a]) ++ rest))).run code' := by
  obtain ⟨code, hcode, hheight, hrun⟩ := exists_loadFromMemory sc he hexternal hcell
  unfold retrieve
  simp only [Ty.isValueType_of_encoding?_eq_ok he, if_true]
  cases remove with
  | true => exact ⟨code, hcode, hheight, hrun⟩
  | false =>
    refine ⟨[.dup 1] ++ code, (Emits.emit _).bind hcode, ?_, fun m a rest code' => ?_⟩
    · rw [heightFrom_append]
      exact heightFrom_add 1 hheight
    · exact hrun m a (a :: rest) code'

/-- A value is converted and written, and the converted value is left if it is not to be moved. -/
theorem exists_store (sc : Scope) (h : cell.ty.Kept e) (hcell : cell.padded = true ∨ e.bytes = 1)
    {source : Ty} (hsource : source.isValueType = true)
    (hsize : source.sizeOnStack = cell.ty.sizeOnStack) (move : Bool) :
    ∃ code, Emits sc (cell.store source move) code (.ok ()) ∧
      heightFrom (1 + cell.ty.sizeOnStack) code = some (if move then 0 else cell.ty.sizeOnStack) ∧
      ∀ (m : Machine) (value : List Word) (a : Word) (rest : List Word) (code' : Code),
        value.length = cell.ty.sizeOnStack →
        (m.withStack (a :: (value ++ rest))).run (code ++ code') =
          access a cell.width >>= fun address =>
            ({ m with memory := cell.put e m.memory address (cell.ty.cleaned e value) }.withStack
              ((if move then [] else cell.ty.cleaned e value) ++ rest)).run code' := by
  have hvalue := Ty.isValueType_of_encoding?_eq_ok h.encoding
  have hle : cell.ty.sizeOnStack ≤ 2 := by
    rw [h.sizeOnStack_eq]
    split <;> decide
  have hwindow : stackWindow = 16 := rfl
  obtain ⟨clean, hclean, hcleanHeight, hcleanRun⟩ := Emits.exists_convertType_clean sc h hsource
  obtain ⟨write, hwrite, hwriteHeight, hwriteRun⟩ := exists_write sc h hcell
  have hlength : ∀ value : List Word, value.length = cell.ty.sizeOnStack →
      (cell.ty.cleaned e value).length = cell.ty.sizeOnStack := fun _ => h.length_cleaned
  have hone : ∀ a : Word, [a].length = 1 := fun _ => rfl
  unfold store
  simp only [hvalue, hsource, hsize, Bool.not_true, Bool.false_eq_true, if_false]
  generalize cell.ty.sizeOnStack = size at *
  have hcleaned := heightFrom_add 1 hcleanHeight
  rw [Nat.add_comm size 1] at hcleaned
  cases move with
  | true =>
    refine ⟨moveCode size 1 ++ (clean ++ write), ?_, ?_, fun m value a rest code' hvalueLength => ?_⟩
    · exact (Emits.moveInto (by omega)).bind (hclean.bind hwrite)
    · rw [heightFrom_append, heightFrom_moveCode (by omega), Option.bind_some, heightFrom_append, hcleaned,
        Option.bind_some, Nat.add_comm]
      exact hwriteHeight
    · simp only [List.append_assoc]
      rw [← List.singleton_append, run_moveInto _ _ _ [a] value (hone a) hvalueLength,
        hcleanRun _ _ _ _ hvalueLength, List.singleton_append,
        hwriteRun _ _ _ _ _ (hlength value hvalueLength)]
      rfl
  | false =>
    refine ⟨moveCode size 1 ++ (clean ++ (moveCode 1 size ++
      ((List.replicate size [.dup (1 + size)]).flatten ++ write))), ?_, ?_, ?_⟩
    · exact (Emits.moveInto (by omega)).bind (hclean.bind ((Emits.moveInto (by omega)).bind
        ((Emits.copyToTop (by omega) (by omega) _).bind hwrite)))
    · have hcopy : heightFrom (1 + size) (List.replicate size [.dup (1 + size)]).flatten =
          some (1 + size + size) := heightFrom_copyToTop (Nat.le_refl _) size
      have hwritten := heightFrom_add size hwriteHeight
      rw [Nat.add_comm size 1] at hwritten
      rw [heightFrom_append, heightFrom_moveCode (by omega), Option.bind_some, heightFrom_append, hcleaned,
        Option.bind_some, heightFrom_append, heightFrom_moveCode (by omega), Option.bind_some,
        heightFrom_append, hcopy, Option.bind_some, hwritten, Nat.zero_add]
      rfl
    · intro m value a rest code' hvalueLength
      have hcleanLength := hlength value hvalueLength
      have hdepth : 1 + size = [a].length + size := rfl
      simp only [List.append_assoc]
      rw [← List.singleton_append, run_moveInto _ _ _ [a] value (hone a) hvalueLength,
        hcleanRun _ _ _ _ hvalueLength, run_moveInto _ _ _ _ [a] hcleanLength (hone a),
        run_copyToTop _ _ _ [a] _ hcleanLength hdepth, List.singleton_append,
        hwriteRun _ _ _ _ _ hcleanLength]
      rfl

end MemoryCell

namespace ImmutableVariable

variable {v : ImmutableVariable} {e : Encoding}

/-- The memory cell that creation code keeps the variable in. -/
def cell (v : ImmutableVariable) : MemoryCell := ⟨v.ty, true⟩

/-- The address of the variable in creation code. -/
theorem emits_pushAddress {sc : Scope} {address : Nat} (hkind : sc.kind = .creation)
    (hbound : sc.immutables.lookup v.id = some address) :
    Emits sc v.pushAddress [.pushNat address] (.ok ()) := by
  refine .bind_nil .read ?_
  rw [hkind]
  refine .bind_nil .read ?_
  rw [hbound]
  exact .emit _

/-- Variables of value types are not refused. -/
theorem emits_rejectReference {sc : Scope} (hvalue : v.ty.isValueType = true) :
    Emits sc v.rejectReference [] (.ok ()) := by
  unfold rejectReference
  rw [if_pos hvalue]
  exact .pure ()

/-- In creation code the variable is read from its cell. -/
theorem exists_retrieve {sc : Scope} {address : Nat} (h : v.ty.Kept e) (hkind : sc.kind = .creation)
    (hbound : sc.immutables.lookup v.id = some address) :
    ∃ code, Emits sc v.retrieve code (.ok ()) ∧ heightFrom 0 code = some v.ty.sizeOnStack ∧
      ∀ (m : Machine) (rest : List Word) (code' : Code),
        (m.withStack rest).run (code ++ code') = access (BitVec.ofNat 256 address) 32 >>= fun address =>
          ((m.touch address).withStack (v.cell.valueIn e (m.memory.loadWord address) ++ rest)).run
            code' := by
  have hvalue := Ty.isValueType_of_encoding?_eq_ok h.encoding
  have hencoding : v.cell.ty.encoding? = .ok e := h.encoding
  obtain ⟨code, hcode, hheight, hrun⟩ :=
    MemoryCell.exists_loadFromMemory sc hencoding h.external (.inl rfl)
  refine ⟨[.pushNat address] ++ code, .bind_nil (emits_rejectReference hvalue) (.bind_nil .read ?_), ?_,
    fun m rest code' => ?_⟩
  · rw [hkind]
    exact (emits_pushAddress hkind hbound).bind hcode
  · rw [heightFrom_append]
    exact hheight
  · exact hrun m (BitVec.ofNat 256 address) rest code'

/-- In creation code a value is converted and written to the cell of the variable, and the converted
value is left if it is not to be moved. -/
theorem exists_store {sc : Scope} {address : Nat} (h : v.ty.Kept e) (hkind : sc.kind = .creation)
    (hbound : sc.immutables.lookup v.id = some address) {source : Ty}
    (hsource : source.isValueType = true) (move : Bool) :
    ∃ code, Emits sc (v.store source move) code (.ok ()) ∧
      heightFrom v.ty.sizeOnStack code = some (if move then 0 else v.ty.sizeOnStack) ∧
      ∀ (m : Machine) (value rest : List Word) (code' : Code), value.length = v.ty.sizeOnStack →
        (m.withStack (value ++ rest)).run (code ++ code') =
          access (BitVec.ofNat 256 address) 32 >>= fun address =>
            ({ m with memory := v.cell.put e m.memory address (v.ty.cleaned e value) }.withStack
              ((if move then [] else v.ty.cleaned e value) ++ rest)).run code' := by
  have hvalue := Ty.isValueType_of_encoding?_eq_ok h.encoding
  have hcell : v.cell.ty.Kept e := h
  have hle : v.ty.sizeOnStack ≤ 2 := by
    rw [h.sizeOnStack_eq]
    split <;> decide
  have hwindow : stackWindow = 16 := rfl
  obtain ⟨clean, hclean, hcleanHeight, hcleanRun⟩ := Emits.exists_convertType_clean sc h hsource
  obtain ⟨write, hwrite, hwriteHeight, hwriteRun⟩ := MemoryCell.exists_write sc hcell (.inl rfl)
  have hty : v.cell.ty = v.ty := rfl
  have hlength : ∀ value : List Word, value.length = v.ty.sizeOnStack →
      (v.ty.cleaned e value).length = v.ty.sizeOnStack := fun _ => h.length_cleaned
  unfold store
  simp only [hsource, Bool.not_true, Bool.false_eq_true, if_false]
  rw [hty] at hwriteHeight hwriteRun
  generalize v.ty.sizeOnStack = size at *
  have hpush : heightFrom size [.pushNat address] = some (size + 1) := rfl
  have hone : [BitVec.ofNat 256 address].length = 1 := rfl
  have hpushed : ∀ (m : Machine) (stack : List Word) (code : Code),
      (m.withStack stack).run ([.pushNat address] ++ code) =
        (m.withStack ([BitVec.ofNat 256 address] ++ stack)).run code := fun _ _ _ => rfl
  cases move with
  | true =>
    refine ⟨clean ++ ([.pushNat address] ++ (moveCode size 1 ++ write)), ?_, ?_,
      fun m value rest code' hvalueLength => ?_⟩
    · exact .bind_nil (emits_rejectReference hvalue) (hclean.bind ((emits_pushAddress hkind hbound).bind
        ((Emits.moveInto (by omega)).bind hwrite)))
    · rw [heightFrom_append, hcleanHeight, Option.bind_some, heightFrom_append, hpush, Option.bind_some,
        heightFrom_append, heightFrom_moveCode (Nat.le_refl _), Option.bind_some]
      exact hwriteHeight
    · have hcleanLength := hlength value hvalueLength
      simp only [List.append_assoc]
      rw [hcleanRun _ _ _ _ hvalueLength, hpushed, run_moveInto _ _ _ _ _ hone hcleanLength,
        List.singleton_append, hwriteRun _ _ _ _ _ hcleanLength]
      rfl
  | false =>
    refine ⟨clean ++ ([.pushNat address] ++ ((List.replicate size [.dup (size + 1)]).flatten ++ write)),
      ?_, ?_, fun m value rest code' hvalueLength => ?_⟩
    · exact .bind_nil (emits_rejectReference hvalue) (hclean.bind ((emits_pushAddress hkind hbound).bind
        ((Emits.copyToTop (by omega) (by omega) _).bind hwrite)))
    · have hcopy : heightFrom (size + 1) (List.replicate size [.dup (size + 1)]).flatten =
          some (size + 1 + size) := heightFrom_copyToTop (Nat.le_refl _) size
      have hwritten := heightFrom_add size hwriteHeight
      rw [heightFrom_append, hcleanHeight, Option.bind_some, heightFrom_append, hpush, Option.bind_some,
        heightFrom_append, hcopy, Option.bind_some, hwritten, Nat.zero_add]
      rfl
    · have hcleanLength := hlength value hvalueLength
      have hdepth : size + 1 = [BitVec.ofNat 256 address].length + size := Nat.add_comm size 1
      simp only [List.append_assoc]
      rw [hcleanRun _ _ _ _ hvalueLength, hpushed, run_copyToTop _ _ _ _ _ hcleanLength hdepth,
        List.singleton_append, hwriteRun _ _ _ _ _ hcleanLength]
      rfl

end ImmutableVariable

end WordPlaces
