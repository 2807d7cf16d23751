import WordPlaces.Proofs.Place.MemoryValue
import WordPlaces.Proofs.Place.StackContract

/-!
# Bytes of a byte array

The byte of an array is a byte sequence that its word keeps, counted from the most significant end.  Its
code multiplies and divides by powers of 256 where that of a storage item shifts and masks, and takes any
word as an index: the place of a byte beyond the word is computed modulo `2 ^ 256`, and the power of 256
for it is zero, so that nothing is read or written there.

## Main definitions

* `ByteElement.offsetOf` — the place of the byte with an index, counted from the least significant end.
* `ByteElement.item` — one byte in storage as a storage item.
* `ByteElement.taken`, `ByteElement.left`, `ByteElement.after` — the value that an access takes, what it
  leaves of the stack, and what it does to the machine.

## Main results

* `ByteElement.le_offsetOf` — the place of a byte with an index of 32 or more lies beyond the word.
* `ByteElement.exists_retrieve`, `ByteElement.exists_store`, `ByteElement.exists_setToZero` — the accesses
  of a byte, for every index.
* `ByteElement.access_eq_item` — they do what those of a storage item do.
-/

set_option autoImplicit false

namespace WordPlaces.ByteElement

open Machine Fragment

/-! ## The place of a byte -/

/-- The place of the byte with an index, counted from the least significant end. -/
def offsetOf (index : Word) : Nat := (31 - index).toNat

variable {sc : Scope} {index : Word}

/-- The place of a byte as a word. -/
theorem ofNat_offsetOf (index : Word) : BitVec.ofNat 256 (offsetOf index) = 31 - index := by
  rw [offsetOf, BitVec.ofNat_toNat, BitVec.setWidth_eq]

/-- The place of a byte within the word. -/
theorem offsetOf_of_le (h : index.toNat ≤ 31) : offsetOf index = 31 - index.toNat := by
  rw [offsetOf, BitVec.toNat_sub]
  show (2 ^ 256 - index.toNat + 31) % 2 ^ 256 = 31 - index.toNat
  omega

/-- The difference wraps around to a number that is no smaller than 32. -/
theorem le_offsetOf (h : 32 ≤ index.toNat) : 32 ≤ offsetOf index := by
  have hlt := index.isLt
  rw [offsetOf, BitVec.toNat_sub]
  show 32 ≤ (2 ^ 256 - index.toNat + 31) % 2 ^ 256
  omega

/-- The place of a byte with a constant index. -/
theorem offsetOf_ofNat {index : Nat} (hindex : index < 32) :
    offsetOf (BitVec.ofNat 256 index) = 31 - index := by
  have hnat : (BitVec.ofNat 256 index).toNat = index := toNat_ofNat (by omega)
  rw [offsetOf_of_le (by omega), hnat]

/-- The multiplier of a byte, which is zero beyond the word. -/
theorem run_indexToMultiplier (m : Machine) (index : Word) (rest : List Word) (code : Code) :
    (m.withStack (index :: rest)).run (indexToMultiplier ++ code) =
      (m.withStack (byteMultiplier (offsetOf index) :: rest)).run code := by
  rw [← pow_eq_byteMultiplier]
  rfl

/-! ## The type of a byte -/

/-- The encoding of a byte. -/
def encoding : Encoding := .plain 1 .left .notApplicable

/-- A byte can be copied. -/
theorem scalar : ty.Scalar encoding := ⟨rfl, by decide, by decide, by decide, by decide⟩

/-- A byte can be packed into a slot. -/
theorem storable : ty.Storable encoding := scalar.storable (by decide)

/-- The byte of a value that is kept is its most significant one. -/
theorem packed_eq (w : Word) : ty.packed encoding [w] = w >>> 248 := if_neg (by simp [ty])

/-- A byte of a word, moved to the high end. -/
theorem byte_mul_topByteMultiplier (index word : Word) :
    [evalBinary .mul topByteMultiplier (evalBinary .byte index word)] =
      encoding.valueAt (offsetOf index) word := by
  have hbyte : evalBinary .byte index word = bytesIn 1 (offsetOf index) word := by
    by_cases hindex : index < 32
    · have hle : index.toNat ≤ 31 := Nat.le_of_lt_succ (BitVec.lt_def.1 hindex)
      rw [evalBinary, if_pos hindex, offsetOf_of_le hle, bytesIn_one]
    · have hle : 32 ≤ index.toNat := Nat.le_of_not_lt fun h => hindex (BitVec.lt_def.2 h)
      rw [evalBinary, if_neg hindex, bytesIn_of_le _ (le_offsetOf hle)]
  have hmul : ∀ w : Word, evalBinary .mul topByteMultiplier w = w <<< 248 := fun w =>
    (BitVec.mul_comm _ _).trans (mul_byteMultiplier w 31)
  rw [hbyte, hmul]
  rfl

/-! ## Accesses -/

/-- A byte is read like a byte sequence that the word keeps, and the operands are taken or left below. -/
theorem exists_retrieve (sc : Scope) (remove : Bool) :
    ∃ code, Emits sc (retrieve remove) code (.ok ()) ∧
      heightFrom 2 code = some (1 + if remove then 0 else 2) ∧
      ∀ (m : Machine) (slot index : Word) (rest : List Word) (code' : Code),
        (m.withStack (index :: slot :: rest)).run (code ++ code') =
          (m.withStack (encoding.valueAt (offsetOf index) ((m.storage .persistent).read slot) ++
            ((if remove then [] else [index, slot]) ++ rest))).run code' := by
  refine ⟨_, .emitAll _, by cases remove <;> rfl, fun m slot index rest code' => ?_⟩
  rw [← byte_mul_topByteMultiplier]
  cases remove with
  | true =>
    simp only [if_true, List.cons_append, List.nil_append]
    rw [run_swap_one, run_sload, run_swap_one, run_binary, run_push, run_binary]
  | false =>
    simp only [Bool.false_eq_true, if_false, List.cons_append, List.nil_append]
    rw [run_dup_two, run_sload, run_dup_two, run_binary, run_push, run_binary]

/-- A byte is written like a byte sequence, and the value is taken or left. -/
theorem exists_store (sc : Scope) (move : Bool) :
    ∃ code, Emits sc (store move) code (.ok ()) ∧ heightFrom 3 code = some (if move then 0 else 1) ∧
      ∀ (m : Machine) (w slot index : Word) (rest : List Word) (code' : Code),
        (m.withStack (index :: slot :: w :: rest)).run (code ++ code') =
          ((m.writeStorage .persistent slot (withBytes 1 (offsetOf index)
            ((m.storage .persistent).read slot) (ty.packed encoding [w]))).withStack
              ((if move then [] else [w]) ++ rest)).run code' := by
  refine ⟨_, .emitAll _, by cases move <;> rfl, fun m w slot index rest code' => ?_⟩
  have hdiv : w / topByteMultiplier = w >>> 248 := div_byteMultiplier w (show 31 < 32 by decide)
  have hlow : (w >>> 248) &&& lowBytesMask 1 = w >>> 248 :=
    rightAlign_and_lowBytesMask w (show 1 ≤ 32 by decide)
  have hwritten : ((w / topByteMultiplier) * byteMultiplier (offsetOf index)) |||
      ((m.storage .persistent).read slot &&& ~~~fieldMask 1 (offsetOf index)) =
      withBytes 1 (offsetOf index) ((m.storage .persistent).read slot) (ty.packed encoding [w]) := by
    rw [hdiv, mul_byteMultiplier, packed_eq, withBytes, hlow, BitVec.or_comm]
  simp only [List.append_assoc, List.cons_append, List.nil_append]
  rw [run_indexToMultiplier, run_dup_two, run_sload, run_dup_two, run_clearBytes, ← hwritten]
  cases move <;> rfl

/-- A byte is cleared, and the operands are taken. -/
theorem exists_setToZero (sc : Scope) :
    ∃ code, Emits sc (setToZero true) code (.ok ()) ∧ heightFrom 2 code = some 0 ∧
      ∀ (m : Machine) (slot index : Word) (rest : List Word) (code' : Code),
        (m.withStack (index :: slot :: rest)).run (code ++ code') =
          ((m.writeStorage .persistent slot (withBytes 1 (offsetOf index)
            ((m.storage .persistent).read slot) 0)).withStack rest).run code' := by
  refine ⟨_, .emitAll _, rfl, fun m slot index rest code' => ?_⟩
  simp only [List.append_assoc, List.cons_append, List.nil_append]
  rw [run_indexToMultiplier, run_dup_two, run_sload, run_swap_one, run_clearBytes, run_swap_one,
    run_sstore, withBytes_zero]

/-! ## One statement for the three accesses -/

/-- The words of the value that an access takes. -/
def taken (v : Word) : Operation → List Word
  | .store .. => [v]
  | .retrieve _ | .setToZero _ => []

/-- The words that an access leaves: the word that was read, a value that was not to be moved, and
operands that were not to be removed. -/
def left (read v : Word) (operands : List Word) : Operation → List Word
  | .retrieve remove => read :: if remove then [] else operands
  | .store _ move => if move then [] else [v]
  | .setToZero remove => if remove then [] else operands

/-- The machine after an access to the byte at a place of a slot, its stack aside. -/
def after (m : Machine) (slot : Word) (offset : Nat) (v : Word) : Operation → Machine
  | .retrieve _ => m
  | .store .. => m.writeStorage .persistent slot
      (withBytes 1 offset ((m.storage .persistent).read slot) (ty.packed encoding [v]))
  | .setToZero _ => m.writeStorage .persistent slot
      (withBytes 1 offset ((m.storage .persistent).read slot) 0)

/-- The byte at a place of a word, moved to the high end. -/
def byteOf (offset : Nat) (word : Word) : Word := leftAlign (bytesIn 1 offset word) 1

/-- A byte is accessed at the place that its index stands for, whatever the index is. -/
theorem exists_access (sc : Scope) {operation : Operation} (hoperation : operation ≠ .setToZero false) :
    ∃ code, (∀ v, AppendsFrom sc (2 + (taken v operation).length) (operation.emit .byteElement) code ()) ∧
      ∀ (m : Machine) (slot index v : Word) (rest : List Word),
        (m.withStack ([index, slot] ++ (taken v operation ++ rest))).run code =
          .ok ((after m slot (offsetOf index) v operation).withStack
            (left (byteOf (offsetOf index) ((m.storage .persistent).read slot)) v [index, slot] operation ++
              rest)) := by
  cases operation with
  | retrieve remove =>
    obtain ⟨code, hcode, hheight, hrun⟩ := exists_retrieve sc remove
    have hemits : Emits sc (Place.byteElement.retrieve remove) code (.ok ()) := .bind_nil (.logEvent _) hcode
    refine ⟨code, fun v => hemits.appendsFrom hheight, fun m slot index v rest => ?_⟩
    exact run_eq_of_append_nil (hrun m slot index rest [])
  | store source move =>
    obtain ⟨code, hcode, hheight, hrun⟩ := exists_store sc move
    have hemits : Emits sc (Place.byteElement.store source move) code (.ok ()) :=
      .bind_nil (.logEvent _) hcode
    refine ⟨code, fun v => hemits.appendsFrom hheight, fun m slot index v rest => ?_⟩
    exact run_eq_of_append_nil (hrun m v slot index rest [])
  | setToZero remove =>
    obtain rfl : remove = true := by
      cases remove with
      | true => rfl
      | false => exact absurd rfl hoperation
    obtain ⟨code, hcode, hheight, hrun⟩ := exists_setToZero sc
    have hemits : Emits sc (Place.byteElement.setToZero true) code (.ok ()) := .bind_nil (.logEvent _) hcode
    refine ⟨code, fun v => hemits.appendsFrom hheight, fun m slot index v rest => ?_⟩
    exact run_eq_of_append_nil (hrun m slot index rest [])

/-! ## The storage item -/

/-- One byte in persistent storage. -/
def item : StorageItem := ⟨ty, .persistent⟩

/-- A byte sequence is packed by a shift, whatever the value was declared as. -/
theorem packValue_source (source : Ty) : packValue source ty = packValue ty ty := by
  have hencoding : orFault ty.encoding? = (pure encoding : Emit Encoding) := rfl
  unfold packValue
  rw [hencoding, pure_bind, pure_bind]
  rfl

/-- A byte is stored alike whatever the value was declared as. -/
theorem storeValue_source (source : Ty) (move : Bool) :
    item.storeValue source move = item.storeValue ty move := by
  have hencoding : orFault item.ty.encoding? = (pure encoding : Emit Encoding) := rfl
  have hpack : packValue source item.ty = packValue ty item.ty := packValue_source source
  have hnarrow : ¬encoding.isFullWord = true := by decide
  unfold StorageItem.storeValue
  rw [hencoding, pure_bind, pure_bind, if_neg hnarrow, if_neg hnarrow, hpack]

/-- The item is accessed at the offset that it is addressed by. -/
theorem exists_access_item (sc : Scope) (operation : Operation) :
    ∃ code, (∀ v, AppendsFrom sc (2 + (taken v operation).length) (operation.emit (.storage item)) code ()) ∧
      ∀ (m : Machine) (slot v : Word) (offset : Nat) (rest : List Word), offset ≤ 31 →
        (m.withStack ([BitVec.ofNat 256 offset, slot] ++ (taken v operation ++ rest))).run code =
          .ok ((after m slot offset v operation).withStack
            (left (byteOf offset ((m.storage .persistent).read slot)) v [BitVec.ofNat 256 offset, slot]
              operation ++ rest)) := by
  have hitem : item.ty.Storable encoding := storable
  have hfits : ∀ {offset}, offset ≤ 31 → offset + encoding.bytes ≤ 32 := fun h => Nat.succ_le_succ h
  cases operation with
  | retrieve remove =>
    obtain ⟨code, hcode, hheight, hrun⟩ := StorageItem.exists_retrieve sc hitem remove
    have hemits : Emits sc ((Place.storage item).retrieve remove) code (.ok ()) :=
      .bind_nil (.logEvent _) hcode
    refine ⟨code, fun v => hemits.appendsFrom hheight, fun m slot v offset rest hoffset => ?_⟩
    exact run_eq_of_append_nil (hrun m slot offset rest [] (hfits hoffset))
  | store source move =>
    obtain ⟨code, hcode, hheight, hrun⟩ : ∃ code,
        Emits sc (item.storeValue ty move) code (.ok ()) ∧ item.Writes encoding move code :=
      StorageItem.exists_storeValue sc hitem.writable rfl move
    rw [← storeValue_source source, ← StorageItem.store_eq_storeValue rfl] at hcode
    have hemits : Emits sc ((Place.storage item).store source move) code (.ok ()) :=
      .bind_nil (.logEvent _) hcode
    refine ⟨code, fun v => hemits.appendsFrom hheight, fun m slot v offset rest hoffset => ?_⟩
    exact run_eq_of_append_nil (hrun m [v] rest slot offset [] rfl (hfits hoffset))
  | setToZero remove =>
    obtain ⟨code, hcode, hheight, hrun⟩ :=
      StorageItem.exists_setToZero sc hitem.encoding hitem.one_le_bytes remove
    have hemits : Emits sc ((Place.storage item).setToZero remove) code (.ok ()) :=
      .bind_nil (.logEvent _) hcode
    refine ⟨code, fun v => hemits.appendsFrom hheight, fun m slot v offset rest hoffset => ?_⟩
    exact run_eq_of_append_nil (hrun m rest slot offset [] (hfits hoffset))

/-! ## Beyond the word -/

/-- There is no byte beyond the word. -/
theorem byteOf_of_le {offset : Nat} (h : 32 ≤ offset) (word : Word) : byteOf offset word = 0 := by
  rw [byteOf, bytesIn_of_le _ h]
  rfl

/-- A slot that is written with what it holds. -/
theorem read_writeStorage_read (m : Machine) (kind kind' : StorageKind) (slot key : Word) :
    ((m.writeStorage kind slot ((m.storage kind).read slot)).storage kind').read key =
      (m.storage kind').read key := by
  rw [read_writeStorage]
  split
  · rename_i hsame
    rw [hsame.1, hsame.2]
  · rfl

/-- An access beyond the word changes no slot. -/
theorem read_after_of_le {offset : Nat} (h : 32 ≤ offset) (m : Machine) (slot v : Word)
    (operation : Operation) (kind : StorageKind) (key : Word) :
    ((after m slot offset v operation).storage kind).read key = (m.storage kind).read key := by
  cases operation with
  | retrieve remove => rfl
  | store source move =>
    rw [after, withBytes_of_le _ _ h]
    exact read_writeStorage_read m .persistent kind slot key
  | setToZero remove =>
    rw [after, withBytes_of_le _ _ h]
    exact read_writeStorage_read m .persistent kind slot key

/-- An access changes nothing outside of storage. -/
theorem sameElsewhere_after (m : Machine) (slot : Word) (offset : Nat) (v : Word) (operation : Operation) :
    m.SameElsewhere (after m slot offset v operation) := by
  cases operation with
  | retrieve remove => exact .refl m
  | store source move => exact sameElsewhere_writeStorage m .persistent slot _
  | setToZero remove => exact sameElsewhere_writeStorage m .persistent slot _

end WordPlaces.ByteElement
