import WordPlaces.Place.StorageItem
import WordPlaces.Proofs.Codec
import WordPlaces.Proofs.Emit.Fragments

/-!
# Value types in storage

What reading, writing and clearing a value type does when the emitted code is executed: one run of
bytes of one slot is read or replaced, and everything else stays as it was.

## Main definitions

* `StorageItem.Reads`, `StorageItem.Writes`, `StorageItem.Clears` — what the code of an access does.
* `StorageItem.loadShifted` — the code that moves a field to the low end of a word.

## Main results

* `Emits.exists_unpackValue`, `Emits.exists_packValue` — between the bytes of a field and the stack
  form of its value.
* `StorageItem.exists_retrieve`, `StorageItem.exists_storeValue`, `StorageItem.exists_setToZero` — the
  accesses of a value type.
-/

set_option autoImplicit false

namespace WordPlaces

open Fragment Machine

namespace Emits

variable {sc : Scope} {source ty : Ty} {e : Encoding}

/-! ## Packing -/

/-- A value type is converted by cleaning it, and by cutting it to its width if that is asked for. -/
theorem convertType {code : Code} {chopSignBits : Bool} (hsource : source.isValueType = true)
    (he : ty.encoding? = .ok e) (hclean : Emits sc (cleanupValue ty) code (.ok ())) :
    Emits sc (convertType source ty true chopSignBits)
      (code ++ if chopSignBits && e.isSigned && !e.isFullWord then keepLowBytes e.bytes else [])
      (.ok ()) := by
  have hvalue : (source.isValueType && ty.isValueType) = true := by
    rw [hsource, Ty.isValueType_of_encoding?_eq_ok he]
    rfl
  unfold WordPlaces.convertType
  rw [if_pos hvalue]
  simp only [if_true]
  refine hclean.bind (bind_nil (.orFault he) ?_)
  split
  · exact .emitAll _
  · exact .pure ()

/-- Whole words are not cleaned. -/
theorem cleanupValue_of_full (he : ty.encoding? = .ok e) (hfull : e.bytes = 32) :
    Emits sc (cleanupValue ty) [] (.ok ()) := by
  have hword : e.isFullWord = true := by
    rw [Encoding.isFullWord, hfull]
    rfl
  refine bind_nil (.orFault he) ?_
  rw [if_pos (.inr hword)]
  exact .pure ()

/-- Reading the value that the low bytes of a word stand for. -/
theorem exists_unpackValue (sc : Scope) (h : ty.Storable e) (hnarrow : e.bytes < 32) :
    ∃ code, Emits sc (unpackValue e) code (.ok ()) ∧
      heightFrom 1 code = some ty.sizeOnStack ∧
      ∀ (m : Machine) (w : Word) (rest : List Word) (code' : Code),
        (m.withStack (w :: rest)).run (code ++ code') =
          (m.withStack (e.valueOf (w &&& lowBytesMask e.bytes) ++ rest)).run code' := by
  rw [h.writable.sizeOnStack_eq]
  by_cases hform : e.form = .externalFunction
  · obtain ⟨-, rfl⟩ := h.writable.eq_of_external hform
    refine ⟨_, .emitAll _, rfl, fun m w rest code' => ?_⟩
    obtain ⟨hselector, hcallee⟩ := and_lowBytesMask_split w
    rw [run_splitExternal, Encoding.valueOf, if_pos rfl, hselector, hcallee]
    rfl
  · have hplain := h.writable.form_eq_plain hnarrow hform h.not_internal
    have hpos := h.one_le_bytes
    rw [if_neg hform]
    simp only [Encoding.valueOf, if_neg hform]
    unfold unpackValue Encoding.stackForm
    rw [hplain]
    cases halign : e.alignment with
    | left =>
      refine ⟨_, bind_nil (unusedBits h.bytes_le) (.leftShift (by omega)), ?_,
        fun m w rest code' => ?_⟩
      · rw [shiftLeft, if_neg (by omega)]
        rfl
      · rw [run_shiftLeft _ _ _ _ (by omega), leftAlign_and_lowBytesMask _ h.bytes_le]
        rfl
    | right =>
      cases hsign : e.signedness with
      | signed =>
        refine ⟨_, .signExtendFrom hpos, rfl, fun m w rest code' => ?_⟩
        rw [run_signExtendBytes _ _ _ _ hpos hnarrow, signExtend_and_lowBytesMask _ hpos]
        rfl
      | unsigned | notApplicable =>
        refine ⟨_, .emitAll _, rfl, fun m w rest code' => ?_⟩
        rw [run_keepLowBytes]
        rfl

/-- Cleaning a narrow value brings it into its canonical form. -/
theorem exists_cleanupValue (sc : Scope) (he : ty.encoding? = .ok e) (hpos : 1 ≤ e.bytes)
    (hnarrow : e.bytes < 32) (hform : e.form ≠ .externalFunction) :
    ∃ code, Emits sc (cleanupValue ty) code (.ok ()) ∧ heightFrom 1 code = some 1 ∧
      ∀ (m : Machine) (w : Word) (rest : List Word) (code' : Code),
        (m.withStack (w :: rest)).run (code ++ code') =
          (m.withStack (ty.canonical e [w] ++ rest)).run code' := by
  have hkept : ¬(e.form = .externalFunction ∨ e.isFullWord = true) := by
    rintro (hexternal | hfull)
    · exact hform hexternal
    · exact absurd (beq_iff_eq.1 hfull) (Nat.ne_of_lt hnarrow)
  by_cases hbool : ty = .bool
  · subst hbool
    refine ⟨_, .emitAll [.isZero, .isZero], rfl, fun m w rest code' => ?_⟩
    change (m.withStack (evalUnary .isZero (evalUnary .isZero w) :: rest)).run code' = _
    rw [evalUnary_isZero_isZero]
    rfl
  simp only [Ty.canonical, if_neg hbool]
  cases halign : e.alignment with
  | left =>
    have hclean : Emits sc (cleanupValue ty) (keepHighBytes e.bytes) (.ok ()) := by
      refine bind_nil (.orFault he) ?_
      rw [if_neg hkept, if_neg hbool, halign]
      exact .emitAll _
    exact ⟨_, hclean, rfl, fun m w rest code' => run_keepHighBytes m w rest code' e.bytes⟩
  | right =>
    cases hsign : e.signedness with
    | signed =>
      have hclean : Emits sc (cleanupValue ty) (signExtendBytes e.bytes) (.ok ()) := by
        refine bind_nil (.orFault he) ?_
        rw [if_neg hkept, if_neg hbool, halign, hsign]
        exact .signExtendFrom hpos
      exact ⟨_, hclean, rfl, fun m w rest code' => run_signExtendBytes m w rest code' hpos hnarrow⟩
    | unsigned | notApplicable =>
      have hclean : Emits sc (cleanupValue ty) (keepLowBytes e.bytes) (.ok ()) := by
        refine bind_nil (.orFault he) ?_
        rw [if_neg hkept, if_neg hbool, halign, hsign]
        exact .emitAll _
      exact ⟨_, hclean, rfl, fun m w rest code' => run_keepLowBytes m w rest code' e.bytes⟩

/-- Cleaning a narrow value whose significant bytes are the low ones, and cutting it to its width. -/
theorem exists_convertType (sc : Scope) (h : ty.Writable e) (hnarrow : e.bytes < 32)
    (hplain : e.form = .plain) (hright : e.alignment = .right) (hsource : source.isValueType = true) :
    ∃ code, Emits sc (WordPlaces.convertType source ty true true) code (.ok ()) ∧
      heightFrom 1 code = some 1 ∧
      ∀ (m : Machine) (w : Word) (rest : List Word) (code' : Code),
        (m.withStack (w :: rest)).run (code ++ code') =
          (m.withStack (ty.packed e [w] :: rest)).run code' := by
  have hpos := h.one_le_bytes
  have hfull : e.isFullWord = false := beq_eq_false_iff_ne.2 (Nat.ne_of_lt hnarrow)
  obtain ⟨clean, hclean, hcleanHeight, hcleanRun⟩ :=
    exists_cleanupValue sc h.encoding hpos hnarrow (by simp [hplain])
  refine ⟨_, convertType hsource h.encoding hclean, ?_, fun m w rest code' => ?_⟩
  · rw [heightFrom_append, hcleanHeight]
    split <;> rfl
  rw [List.append_assoc, hcleanRun, Ty.canonical, Ty.packed, hright, hfull]
  by_cases hbool : ty = .bool
  · subst hbool
    obtain rfl := Except.ok.inj h.encoding
    rfl
  · rw [if_neg hbool, if_neg hbool]
    unfold Encoding.isSigned
    cases hsign : e.signedness with
    | signed =>
      -- the sign is cut off again
      refine (run_keepLowBytes _ _ _ _ _).trans ?_
      rw [signExtend_and _ hpos]
      rfl
    | unsigned | notApplicable => rfl

/-- Packing a value into the low bytes of a word. -/
theorem exists_packValue (sc : Scope) (h : ty.Writable e) (hnarrow : e.bytes < 32)
    (hsource : source.isValueType = true) :
    ∃ code, Emits sc (packValue source ty) code (.ok ()) ∧
      heightFrom ty.sizeOnStack code = some 1 ∧
      ∀ (m : Machine) (value rest : List Word) (code' : Code), value.length = ty.sizeOnStack →
        (m.withStack (value ++ rest)).run (code ++ code') =
          (m.withStack (ty.packed e value :: rest)).run code' := by
  by_cases hform : e.form = .externalFunction
  · obtain ⟨rfl, rfl⟩ := h.eq_of_external hform
    refine ⟨_, bind_nil (.orFault h.encoding) (.emitAll _), rfl, fun m value rest code' hlength => ?_⟩
    obtain ⟨selector, callee, rfl⟩ := List.length_eq_two.1 hlength
    exact run_combineExternal m rest code' selector callee
  have hsize : ty.sizeOnStack = 1 := by rw [h.sizeOnStack_eq, if_neg hform]
  rw [hsize]
  by_cases hinternal : e.form = .internalFunction
  · obtain rfl := Ty.encoding_eq_of_internal h.encoding hinternal
    refine ⟨_, bind_nil (.orFault h.encoding) (.emitAll (keepLowBytes 8)), rfl,
      fun m value rest code' hlength => ?_⟩
    obtain ⟨w, rfl⟩ := List.length_eq_one_iff.1 hlength
    have hbool : ty ≠ .bool := by
      rintro rfl
      cases h.encoding
    rw [List.singleton_append, run_keepLowBytes, Ty.packed, if_neg hbool]
  · have hplain := h.form_eq_plain hnarrow hform hinternal
    have hpos := h.one_le_bytes
    cases hright : e.alignment with
    | left =>
      have hemit : Emits sc (packValue source ty) (shiftRight (8 * (32 - e.bytes))) (.ok ()) := by
        refine bind_nil (.orFault h.encoding) ?_
        rw [hplain, hright]
        exact bind_nil (unusedBits h.bytes_le) (.rightShift (by omega))
      refine ⟨_, hemit, ?_, fun m value rest code' hlength => ?_⟩
      · rw [shiftRight, if_neg (by omega)]
        rfl
      · obtain ⟨w, rfl⟩ := List.length_eq_one_iff.1 hlength
        have hbool : ty ≠ .bool := by
          rintro rfl
          obtain rfl := Except.ok.inj h.encoding
          contradiction
        have hbits : 8 * (32 - e.bytes) = 256 - 8 * e.bytes := by omega
        rw [List.singleton_append, run_shiftRight _ _ _ _ (by omega), Ty.packed, if_neg hbool, hright,
          hbits]
        unfold rightAlign
        rw [if_neg (show ¬wordBytes ≤ e.bytes from Nat.not_le_of_lt hnarrow)]
    | right =>
      obtain ⟨code, hcode, hheight, hrun⟩ := exists_convertType sc h hnarrow hplain hright hsource
      refine ⟨code, ?_, hheight, fun m value rest code' hlength => ?_⟩
      · refine bind_nil (.orFault h.encoding) ?_
        rw [hplain, hright]
        exact hcode
      · obtain ⟨w, rfl⟩ := List.length_eq_one_iff.1 hlength
        exact hrun m w rest code'

end Emits

namespace StorageItem

variable {sc : Scope} {source : Ty} {item : StorageItem} {e : Encoding}

/-! ## Accesses -/

/-- The code reads the item, and its operands are taken or left below the value. -/
def Reads (item : StorageItem) (e : Encoding) (remove : Bool) (code : Code) : Prop :=
  heightFrom 2 code = some (item.ty.sizeOnStack + if remove then 0 else 2) ∧
    ∀ (m : Machine) (slot : Word) (offset : Nat) (rest : List Word) (code' : Code),
      offset + e.bytes ≤ 32 →
      (m.withStack (BitVec.ofNat 256 offset :: slot :: rest)).run (code ++ code') =
        (m.withStack (e.valueAt offset ((m.storage item.kind).read slot) ++
          ((if remove then [] else [BitVec.ofNat 256 offset, slot]) ++ rest))).run code'

/-- The code writes a value to the item.  The operands are taken, and the value is taken or left. -/
def Writes (item : StorageItem) (e : Encoding) (move : Bool) (code : Code) : Prop :=
  heightFrom (item.ty.sizeOnStack + 2) code = some (if move then 0 else item.ty.sizeOnStack) ∧
    ∀ (m : Machine) (value rest : List Word) (slot : Word) (offset : Nat) (code' : Code),
      value.length = item.ty.sizeOnStack → offset + e.bytes ≤ 32 →
      (m.withStack (BitVec.ofNat 256 offset :: slot :: (value ++ rest))).run (code ++ code') =
        ((m.writeStorage item.kind slot (withBytes e.bytes offset
          ((m.storage item.kind).read slot) (item.ty.packed e value))).withStack
            ((if move then [] else value) ++ rest)).run code'

/-- The code clears the bytes of the item, and its operands are taken or left. -/
def Clears (item : StorageItem) (e : Encoding) (remove : Bool) (code : Code) : Prop :=
  heightFrom 2 code = some (if remove then 0 else 2) ∧
    ∀ (m : Machine) (rest : List Word) (slot : Word) (offset : Nat) (code' : Code),
      offset + e.bytes ≤ 32 →
      (m.withStack (BitVec.ofNat 256 offset :: slot :: rest)).run (code ++ code') =
        ((m.writeStorage item.kind slot (withBytes e.bytes offset
          ((m.storage item.kind).read slot) 0)).withStack
            ((if remove then [] else [BitVec.ofNat 256 offset, slot]) ++ rest)).run code'

/-- The operands are left if a copy of them is taken. -/
theorem Reads.keep {code : Code} (h : item.Reads e true code) :
    item.Reads e false ([.dup 2, .dup 2] ++ code) := by
  obtain ⟨hheight, hrun⟩ := h
  refine ⟨?_, fun m slot offset rest code' hoffset => ?_⟩
  · rw [heightFrom_append]
    exact heightFrom_add 2 hheight
  · simp only [List.cons_append, List.nil_append]
    rw [run_dup_two, run_dup_two, hrun _ _ _ _ _ hoffset]
    rfl

/-- The operands are left if a copy of them is taken. -/
theorem Clears.keep {code : Code} (h : item.Clears e true code) :
    item.Clears e false ([.dup 2, .dup 2] ++ code) := by
  obtain ⟨hheight, hrun⟩ := h
  refine ⟨?_, fun m rest slot offset code' hoffset => ?_⟩
  · rw [heightFrom_append]
    exact heightFrom_add 2 hheight
  · simp only [List.cons_append, List.nil_append]
    rw [run_dup_two, run_dup_two, hrun _ _ _ _ _ hoffset]
    rfl

/-! ## Reading -/

/-- `slot byte_offset → word`, the word of a slot with the bytes of a field moved to its low end. -/
def loadShifted (kind : StorageKind) : Code :=
  [.swap 1, .sload kind, .swap 1] ++ offsetToMultiplier ++ [.swap 1, .div]

/-- The word of a slot is shifted so that the bytes at the offset come last. -/
theorem run_loadShifted (m : Machine) (kind : StorageKind) (slot : Word) {offset : Nat}
    (hoffset : offset < 32) (rest : List Word) (code : Code) :
    (m.withStack (BitVec.ofNat 256 offset :: slot :: rest)).run (loadShifted kind ++ code) =
      (m.withStack (((m.storage kind).read slot >>> (8 * offset)) :: rest)).run code := by
  unfold loadShifted
  simp only [List.append_assoc, List.cons_append, List.nil_append]
  rw [run_swap_one, run_sload, run_swap_one, run_offsetToMultiplier _ _ _ hoffset, run_swap_one,
    run_binary, evalBinary, div_byteMultiplier _ hoffset]

/-- A narrow value is unpacked from the word of its slot, if it can be unpacked. -/
theorem emits_retrieve_remove (he : item.ty.encoding? = .ok e) (hnarrow : e.bytes < 32) {code : Code}
    {r : Except Failure Unit} (hcode : Emits sc (unpackValue e) code r) :
    Emits sc (item.retrieve true) (loadShifted item.kind ++ code) r := by
  have hvalue := Ty.isValueType_of_encoding?_eq_ok he
  have hword : ¬e.isFullWord = true := fun hw => absurd (beq_iff_eq.1 hw) (Nat.ne_of_lt hnarrow)
  unfold retrieve
  simp only [hvalue, Bool.not_true, Bool.false_eq_true, if_false]
  refine .bind_nil (.orFault he) ?_
  rw [if_neg hword]
  exact (Emits.emitAll _).bind hcode

/-- The operands are copied first if they are to be left. -/
theorem emits_retrieve_keep (hvalue : item.ty.isValueType = true) {code : Code}
    (hcode : Emits sc (item.retrieve true) code (.ok ())) :
    Emits sc (item.retrieve false) ([.dup 2, .dup 2] ++ code) (.ok ()) := by
  unfold retrieve at hcode ⊢
  simp only [hvalue, Bool.not_true, Bool.not_false, Bool.false_eq_true, if_false, if_true] at hcode ⊢
  exact (Emits.copyToTop (by decide) (by decide) 2).bind hcode

/-- A value is read where its operands are taken. -/
theorem exists_retrieve_remove (sc : Scope) (h : item.ty.Storable e) :
    ∃ code, Emits sc (item.retrieve true) code (.ok ()) ∧ item.Reads e true code := by
  have hpos := h.one_le_bytes
  by_cases hfull : e.bytes = 32
  · have hvalue := Ty.isValueType_of_encoding?_eq_ok h.encoding
    have hword : e.isFullWord = true := beq_iff_eq.2 hfull
    have hemit : Emits sc (emitAll [.pop, .sload item.kind]) [.pop, .sload item.kind] (.ok ()) :=
      .emitAll _
    refine ⟨[.pop, .sload item.kind], ?_, ?_, ?_⟩
    · unfold retrieve
      simp only [hvalue, Bool.not_true, Bool.false_eq_true, if_false]
      refine .bind_nil (.orFault h.encoding) ?_
      rw [if_pos hword]
      exact hemit
    · rw [h.writable.sizeOnStack_eq, if_neg (h.writable.form_ne_of_full hfull)]
      rfl
    · intro m slot offset rest code' hoffset
      obtain rfl : offset = 0 := by omega
      rw [Encoding.valueAt, hfull, bytesIn_full, h.valueOf_of_full hfull, List.cons_append,
        List.cons_append, run_pop, List.nil_append, run_sload]
      rfl
  · have hnarrow : e.bytes < 32 := Nat.lt_of_le_of_ne h.bytes_le hfull
    obtain ⟨code, hcode, hheight, hrun⟩ := Emits.exists_unpackValue sc h hnarrow
    refine ⟨_, emits_retrieve_remove h.encoding hnarrow hcode, ?_, ?_⟩
    · rw [heightFrom_append]
      exact hheight
    · intro m slot offset rest code' hoffset
      rw [List.append_assoc, run_loadShifted _ _ _ (by omega), hrun]
      rfl

/-- A value is read. -/
theorem exists_retrieve (sc : Scope) (h : item.ty.Storable e) (remove : Bool) :
    ∃ code, Emits sc (item.retrieve remove) code (.ok ()) ∧ item.Reads e remove code := by
  obtain ⟨code, hcode, hreads⟩ := exists_retrieve_remove sc h
  cases remove with
  | true => exact ⟨code, hcode, hreads⟩
  | false =>
    exact ⟨_, emits_retrieve_keep (Ty.isValueType_of_encoding?_eq_ok h.encoding) hcode, hreads.keep⟩

/-! ## Writing -/

/-- A value that takes a whole word is written as it is. -/
theorem exists_storeValue_of_full (sc : Scope) (h : item.ty.Writable e) (hfull : e.bytes = 32)
    (hsource : source.isValueType = true) (move : Bool) :
    ∃ code, Emits sc (item.storeValue source move) code (.ok ()) ∧ item.Writes e move code := by
  have hword : e.isFullWord = true := beq_iff_eq.2 hfull
  have hsize : item.ty.sizeOnStack = 1 := by
    rw [h.sizeOnStack_eq, if_neg (h.form_ne_of_full hfull)]
  have hconvert : Emits sc (convertType source item.ty true false) [] (.ok ()) :=
    Emits.convertType hsource h.encoding (Emits.cleanupValue_of_full h.encoding hfull)
  have htail : Emits sc (do
      emit (.swap 1)
      convertType source item.ty true false
      emitAll [.swap 1, .sstore item.kind])
      [.swap 1, .swap 1, .sstore item.kind] (.ok ()) :=
    (Emits.emit _).bind (hconvert.bind_nil (.emitAll _))
  unfold storeValue Writes
  rw [hsize]
  cases move with
  | true =>
    refine ⟨[.pop, .swap 1, .swap 1, .sstore item.kind], .bind_nil (.orFault h.encoding) ?_, rfl, ?_⟩
    · rw [if_pos hword]
      exact (Emits.emit _).bind htail
    · intro m value rest slot offset code' hlength hoffset
      obtain ⟨w, rfl⟩ := List.length_eq_one_iff.1 hlength
      obtain rfl : offset = 0 := by omega
      rw [hfull, withBytes_full, h.packed_of_full hfull]
      simp only [List.cons_append, List.nil_append]
      rw [run_pop, run_swap_one, run_swap_one, run_sstore]
      rfl
  | false =>
    refine ⟨[.pop, .dup 2, .swap 1, .swap 1, .swap 1, .sstore item.kind],
      .bind_nil (.orFault h.encoding) ?_, rfl, ?_⟩
    · rw [if_pos hword]
      exact (Emits.emit _).bind ((Emits.emitAll [.dup 2, .swap 1]).bind htail)
    · intro m value rest slot offset code' hlength hoffset
      obtain ⟨w, rfl⟩ := List.length_eq_one_iff.1 hlength
      obtain rfl : offset = 0 := by omega
      rw [hfull, withBytes_full, h.packed_of_full hfull]
      simp only [List.cons_append, List.nil_append]
      rw [run_pop, run_dup_two, run_swap_one, run_swap_one, run_swap_one, run_sstore]
      rfl

/-- A narrower value is written next to what else is in its slot: a copy of the value is packed, and
the bytes replace those of the item in the word that was read. -/
theorem exists_storeValue_of_narrow (sc : Scope) (h : item.ty.Writable e) (hnarrow : e.bytes < 32)
    (hsource : source.isValueType = true) (move : Bool) :
    ∃ code, Emits sc (item.storeValue source move) code (.ok ()) ∧ item.Writes e move code := by
  have hpos := h.one_le_bytes
  have hword : ¬e.isFullWord = true := fun hw => absurd (beq_iff_eq.1 hw) (Nat.ne_of_lt hnarrow)
  have hsize : 3 + item.ty.sizeOnStack ≤ stackWindow := by
    rw [h.sizeOnStack_eq]
    split <;> decide
  obtain ⟨code, hcode, hheight, hrun⟩ := Emits.exists_packValue sc h hnarrow hsource
  have hpacked : ∀ value : List Word, value.length = item.ty.sizeOnStack →
      item.ty.packed e value &&& lowBytesMask e.bytes = item.ty.packed e value :=
    fun _ => h.packed_and_lowBytesMask
  have hmove : Emits sc (if move then popElement item.ty else pure ())
      (if move then (List.replicate item.ty.sizeOnStack [.pop]).flatten else []) (.ok ()) := by
    split
    · exact .popSlots _
    · exact .pure ()
  unfold storeValue Writes
  generalize item.ty.sizeOnStack = size at *
  refine ⟨(offsetToMultiplier ++ [.dup 2, .sload item.kind, .dup 2] ++ clearBytes e.bytes ++
    [.swap 1]) ++ ((List.replicate size [.dup (3 + size)]).flatten ++ (code ++
    ([.mul, .or, .swap 1, .sstore item.kind] ++
      if move then (List.replicate size [.pop]).flatten else []))), ?_, ?_, ?_⟩
  · refine .bind_nil (.orFault h.encoding) ?_
    rw [if_neg hword]
    refine (Emits.emitAll _).bind ((Emits.copyToTop (by omega) (by omega) _).bind
      (hcode.bind ((Emits.emitAll _).bind ?_)))
    exact hmove
  · have hprefix : heightFrom 2 (offsetToMultiplier ++ [.dup 2, .sload item.kind, .dup 2] ++
        clearBytes e.bytes ++ [.swap 1]) = some 3 := rfl
    have hcopy : heightFrom (3 + size) (List.replicate size [.dup (3 + size)]).flatten =
        some (3 + size + size) := heightFrom_copyToTop (Nat.le_refl _) size
    have hpack := heightFrom_add (3 + size) hheight
    have hwrite : heightFrom 4 [.mul, .or, .swap 1, .sstore item.kind] = some 0 := rfl
    rw [Nat.add_comm size 2, heightFrom_append, heightFrom_add size hprefix, Option.bind_some,
      heightFrom_append, hcopy, Option.bind_some, heightFrom_append, Nat.add_comm _ size, hpack]
    have hfour : 1 + (3 + size) = 4 + size := by omega
    rw [Option.bind_some, hfour, heightFrom_append, heightFrom_add size hwrite]
    cases move with
    | true => exact heightFrom_popSlots 0 size
    | false => simp
  · intro m value rest slot offset code' hlength hoffset
    have hword : evalBinary .or (evalBinary .mul (item.ty.packed e value) (byteMultiplier offset))
        ((m.storage item.kind).read slot &&& ~~~fieldMask e.bytes offset) =
        withBytes e.bytes offset ((m.storage item.kind).read slot) (item.ty.packed e value) := by
      rw [withBytes, hpacked value hlength]
      simp only [evalBinary]
      rw [mul_byteMultiplier, BitVec.or_comm]
    have hcopy : ∀ code, (m.withStack ([byteMultiplier offset,
        (m.storage item.kind).read slot &&& ~~~fieldMask e.bytes offset, slot] ++
          (value ++ rest))).run ((List.replicate size [.dup (3 + size)]).flatten ++ code) = _ :=
      fun code => run_copyToTop m rest code _ value hlength rfl
    simp only [List.append_assoc, List.cons_append, List.nil_append] at hcopy ⊢
    rw [run_offsetToMultiplier _ _ _ (by omega), run_dup_two, run_sload, run_dup_two,
      run_clearBytes, run_swap_one, hcopy, hrun _ _ _ _ hlength, run_binary, run_binary, hword,
      run_swap_one, run_sstore]
    cases move with
    | true => exact run_popSlots _ _ _ value hlength
    | false => rfl

/-- A value is written. -/
theorem exists_storeValue (sc : Scope) (h : item.ty.Writable e)
    (hsource : source.isValueType = true) (move : Bool) :
    ∃ code, Emits sc (item.storeValue source move) code (.ok ()) ∧ item.Writes e move code := by
  by_cases hfull : e.bytes = 32
  · exact exists_storeValue_of_full sc h hfull hsource move
  · exact exists_storeValue_of_narrow sc h (Nat.lt_of_le_of_ne h.bytes_le hfull) hsource move

/-- A value type is stored as one. -/
theorem storeFlat_eq_storeValue (hvalue : item.ty.isValueType = true) (move : Bool) :
    item.storeFlat source move = item.storeValue source move := by
  unfold storeFlat
  rw [if_pos hvalue]

/-- A store to an item of a value type stores one value. -/
theorem store_eq_storeValue (hvalue : item.ty.isValueType = true) (move : Bool) :
    item.store source move = item.storeValue source move := by
  unfold store
  simp only [hvalue, Bool.not_true, Bool.false_eq_true, if_false]
  split
  · rename_i hty
    rw [hty] at hvalue
    contradiction
  · exact storeFlat_eq_storeValue hvalue move

/-! ## Clearing -/

/-- A value of any form is cleared where its operands are taken. -/
theorem exists_clearValue (sc : Scope) (he : item.ty.encoding? = .ok e) (hpos : 1 ≤ e.bytes) :
    ∃ code, Emits sc item.clearValue code (.ok ()) ∧ item.Clears e true code := by
  unfold clearValue
  by_cases hfull : e.bytes = 32
  · have hword : e.isFullWord = true := beq_iff_eq.2 hfull
    refine ⟨[.pop, .push 0, .swap 1, .sstore item.kind], .bind_nil (.orFault he) ?_, rfl, ?_⟩
    · rw [if_pos hword]
      exact .emitAll _
    · intro m rest slot offset code' hoffset
      obtain rfl : offset = 0 := by omega
      rw [hfull, withBytes_full]
      simp only [List.cons_append, List.nil_append]
      rw [run_pop, run_push, run_swap_one, run_sstore]
      rfl
  · have hword : ¬e.isFullWord = true := fun hw => hfull (beq_iff_eq.1 hw)
    refine ⟨offsetToMultiplier ++ [.dup 2, .sload item.kind, .swap 1] ++ clearBytes e.bytes ++
      [.swap 1, .sstore item.kind], .bind_nil (.orFault he) ?_, rfl, ?_⟩
    · rw [if_neg hword]
      exact .emitAll _
    · intro m rest slot offset code' hoffset
      rw [withBytes_zero]
      simp only [List.append_assoc, List.cons_append, List.nil_append]
      rw [run_offsetToMultiplier _ _ _ (by omega), run_dup_two, run_sload, run_swap_one,
        run_clearBytes, run_swap_one, run_sstore]
      rfl

/-- A value of any form is cleared. -/
theorem exists_setToZero (sc : Scope) (he : item.ty.encoding? = .ok e) (hpos : 1 ≤ e.bytes)
    (remove : Bool) :
    ∃ code, Emits sc (item.setToZero remove) code (.ok ()) ∧ item.Clears e remove code := by
  have hvalue := Ty.isValueType_of_encoding?_eq_ok he
  obtain ⟨code, hcode, hclears⟩ := exists_clearValue sc he hpos
  have hmapping := Ty.isMapping_of_isValueType hvalue
  have harray := Ty.isArray_of_isValueType hvalue
  have hflat : item.setToZero remove = item.clearFlat remove := by
    unfold setToZero
    split
    · rename_i hty
      rw [hty] at hvalue
      contradiction
    · rfl
  rw [hflat]
  unfold clearFlat
  simp only [hvalue, hmapping, harray, Bool.not_true, Bool.false_and, Bool.false_eq_true, if_false]
  cases remove with
  | true => exact ⟨code, hcode, hclears⟩
  | false =>
    exact ⟨[.dup 2, .dup 2] ++ code, (Emits.copyToTop (by decide) (by decide) 2).bind hcode,
      hclears.keep⟩

end StorageItem

end WordPlaces
