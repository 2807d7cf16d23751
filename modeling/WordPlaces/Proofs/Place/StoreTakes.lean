import WordPlaces.Proofs.Place.ReadTakes
import WordPlaces.Proofs.Place.StructCode
import WordPlaces.Proofs.Ty.Leaves

/-!
# What a write takes from the stack

A write that is compiled takes the value and the addressing operands from the stack, and nothing that
lies below them.  If the value is not to be moved, a copy of it is left.  Local variables and tuples,
which do reach further down, are left to modules of their own.

## Main results

* `MemoryCell.balances_store`, `StorageItem.balances_store`, `ImmutableVariable.balances_store`,
  `ByteElement.balances_store` — the four kinds of places.
-/

set_option autoImplicit false

namespace WordPlaces

open Fragment StructTable

variable {strict : Prop} {sc : Scope} {source : Ty}

/-- A conversion to a value type, above other slots of the value. -/
theorem Balances.convertLast {ty : Ty} (hvalue : ty.isValueType = true) :
    Balances strict sc (WordPlaces.convertType source ty true false) ty.sizeOnStack
      ty.sizeOnStack := by
  have hconvert : Balances strict sc (WordPlaces.convertType source ty true false) 1 1 :=
    .convertType hvalue false
  have hadd := hconvert.add (ty.sizeOnStack - 1)
  rwa [Nat.add_sub_cancel' (Ty.one_le_sizeOnStack hvalue)] at hadd

/-! ## Memory -/

namespace MemoryCell

variable {cell : MemoryCell}

/-- A value above an address is written. -/
theorem balances_write (hvalue : cell.ty.isValueType = true) (hown : cell.WritesOwnWords) :
    Balances strict sc cell.write (cell.ty.sizeOnStack + 1) 0 := by
  unfold write
  split
  · rename_i hpadded
    exact (Balances.storeInMemory_of_wellNamed (hown hpadded) true).bind fun _ => .emit (Nat.le_refl 1)
  · split
    · exact .fault rfl
    · rename_i hbytes
      refine .bind_encoding fun e he => ?_
      -- a single byte is no external function
      have hform : e.form ≠ .externalFunction := by
        intro hform
        have hwidth : cell.ty.memoryBytes false = 24 := by
          rw [Ty.memoryBytes, hvalue, ← Ty.bytes_of_externalFunction he hform,
            Ty.bytes_of_encoding?_eq_ok he]
          rfl
        rw [hwidth] at hbytes
        exact absurd (by decide) hbytes
      rw [Ty.sizeOnStack_of_encoding?_eq_ok he fun h => absurd h hform, if_neg hform]
      split
      · have hbyte : Balances strict sc (emitAll [.push 0, .byte]) 2 2 := .emitAll rfl
        exact hbyte.bind fun _ => .emitAll rfl
      · exact .emitAll rfl

/-- A reference is written as one word. -/
theorem balances_storeReference (move : Bool) :
    Balances strict sc (cell.storeReference source move) (1 + cell.ty.sizeOnStack)
      (keptSlots move cell.ty.sizeOnStack) := by
  unfold storeReference
  split
  · exact .reject _
  · split
    · exact .fault rfl
    · rename_i hone
      rw [Decidable.not_not.1 hone]
      cases move with
      | true => exact .emit (Nat.le_refl 2)
      | false =>
        have hcopy : Balances strict sc (emitAll [.dup 2, .swap 1]) 2 3 := .emitAll rfl
        exact hcopy.bind fun _ => .emit (by decide)

/-- A write to memory takes the value and the address. -/
theorem balances_store (hown : cell.WritesOwnWords)
    (hsize : source.sizeOnStack = cell.ty.sizeOnStack) (move : Bool) :
    Balances strict sc (cell.store source move) (1 + cell.ty.sizeOnStack)
      (keptSlots move cell.ty.sizeOnStack) := by
  unfold store
  split
  · exact balances_storeReference move
  · rename_i hvalue
    have hvalue : cell.ty.isValueType = true := by simpa using hvalue
    split
    · exact .fault rfl
    · rw [hsize, Nat.add_comm 1]
      have hconvert : Balances strict sc (convertType source cell.ty true false)
          (cell.ty.sizeOnStack + 1) (cell.ty.sizeOnStack + 1) := (Balances.convertLast hvalue).add 1
      refine (Balances.moveInto (Nat.le_refl _)).bind fun _ => hconvert.bind fun _ => ?_
      cases move with
      | true => exact balances_write hvalue hown
      | false =>
        have hmove : Balances strict sc (moveToTop cell.ty.sizeOnStack 1) (cell.ty.sizeOnStack + 1)
            (cell.ty.sizeOnStack + 1) := .moveInto (by omega)
        have hcopy : Balances strict sc (copyToTop (1 + cell.ty.sizeOnStack) cell.ty.sizeOnStack)
            (cell.ty.sizeOnStack + 1) (cell.ty.sizeOnStack + 1 + cell.ty.sizeOnStack) :=
          .copyToTop (by omega) _
        have hwrite : Balances strict sc cell.write
            (cell.ty.sizeOnStack + 1 + cell.ty.sizeOnStack) (0 + cell.ty.sizeOnStack) :=
          (balances_write hvalue hown).add _
        rw [Nat.zero_add] at hwrite
        exact hmove.bind fun _ => hcopy.bind fun _ => hwrite

end MemoryCell

/-! ## Immutables and bytes -/

namespace ImmutableVariable

/-- A write to an immutable takes the value. -/
theorem balances_store {v : ImmutableVariable} (hnamed : v.ty.WellNamed) (move : Bool) :
    Balances strict sc (v.store source move) v.ty.sizeOnStack (keptSlots move v.ty.sizeOnStack) := by
  refine balances_rejectReference v fun hvalue => ?_
  split
  · exact .fault rfl
  · refine (Balances.convertLast hvalue).bind fun _ => (balances_pushAddress v _).bind fun _ => ?_
    have hwrite : Balances strict sc (do storeInMemory v.ty true; emit .pop)
        (v.ty.sizeOnStack + 1) 0 :=
      (Balances.storeInMemory_of_wellNamed hnamed true).bind fun _ => .emit (Nat.le_refl 1)
    cases move with
    | true =>
      have hmove : Balances strict sc (moveInto v.ty.sizeOnStack 1) (v.ty.sizeOnStack + 1)
          (v.ty.sizeOnStack + 1) := .moveInto (Nat.le_refl _)
      exact hmove.bind fun _ => hwrite
    | false =>
      have hcopy : Balances strict sc (copyToTop (v.ty.sizeOnStack + 1) v.ty.sizeOnStack)
          (v.ty.sizeOnStack + 1) (v.ty.sizeOnStack + 1 + v.ty.sizeOnStack) :=
        .copyToTop (Nat.le_refl _) _
      have hadd := hwrite.add v.ty.sizeOnStack
      rw [Nat.zero_add] at hadd
      exact hcopy.bind fun _ => hadd

end ImmutableVariable

namespace ByteElement

/-- A write to a byte takes the slot and the index, and the value if it is to be moved. -/
theorem balances_store (move : Bool) : Balances strict sc (store move) 3 (keptSlots move 1) := by
  cases move <;> exact .emitAll rfl

end ByteElement

/-! ## Storage -/

namespace StorageItem

variable {item : StorageItem}

/-- A value type is written with its operands.  The words that are taken are those that a value is read
as, and as many are left of them as the type takes. -/
theorem balances_storeValue (hvalue : item.ty.isValueType = true) (move : Bool) :
    Balances strict sc (item.storeValue source move) (item.ty.readSize + 2)
      (keptSlots move item.ty.sizeOnStack) := by
  unfold storeValue popElement
  refine .bind_encoding fun e he => ?_
  have hread := Ty.readSize_of_encoding?_eq_ok he
  split
  · rename_i hfull
    have hform := Ty.form_ne_of_isFullWord he hfull
    rw [hread, Ty.sizeOnStack_of_encoding?_eq_ok he fun h => absurd h hform, if_neg hform]
    have hpop : Balances strict sc (emit .pop) 3 2 := .emit (by decide)
    have hconvert : Balances strict sc (convertType source item.ty true false) 1 1 :=
      .convertType hvalue false
    have hwrite : Balances strict sc (do
        emit (.swap 1)
        convertType source item.ty true false
        emitAll [.swap 1, .sstore item.kind]) 2 0 := by
      have hswap : Balances strict sc (emit (.swap 1)) 2 2 := .emit (Nat.le_refl 2)
      exact hswap.bind fun _ => (hconvert.add 1).bind fun _ => .emitAll rfl
    cases move with
    | true => exact hpop.bind fun _ => hwrite
    | false =>
      have hcopy : Balances strict sc (emitAll [.dup 2, .swap 1]) 2 3 := .emitAll rfl
      exact hpop.bind fun _ => hcopy.bind fun _ => hwrite.add 1
  · have hle := Ty.sizeOnStack_le_readSize hvalue
    have hpack : Balances strict sc (packValue source item.ty) item.ty.readSize 1 := by
      rw [hread]
      exact .packValue he
    generalize item.ty.sizeOnStack = size at hle ⊢
    generalize item.ty.readSize = taken at hle hpack ⊢
    have hcleared : Balances strict sc (emitAll (offsetToMultiplier ++
        [.dup 2, .sload item.kind, .dup 2] ++ clearBytes e.bytes ++ [.swap 1])) (taken + 2)
        (taken + 3) := by
      have hadd := heightFrom_add taken (show heightFrom 2 (offsetToMultiplier ++ [.dup 2,
        .sload item.kind, .dup 2] ++ clearBytes e.bytes ++ [.swap 1]) = some 3 from rfl)
      rw [Nat.add_comm 2, Nat.add_comm 3] at hadd
      exact .emitAll hadd
    have hcopy : Balances strict sc (copyToTop (3 + size) size) (taken + 3) (taken + (3 + size)) := by
      rw [← Nat.add_assoc]
      exact .copyToTop (by omega) size
    have hwrite : Balances strict sc (emitAll [.mul, .or, .swap 1, .sstore item.kind])
        (1 + (3 + size)) (0 + size) := by
      have hadd := heightFrom_add size
        (show heightFrom 4 [.mul, .or, .swap 1, .sstore item.kind] = some 0 from rfl)
      rw [show 4 + size = 1 + (3 + size) by omega] at hadd
      exact .emitAll hadd
    have hend : Balances strict sc (if move then popSlots size else pure ()) (0 + size)
        (keptSlots move size) := by
      cases move with
      | true => exact .popSlots size
      | false =>
        rw [Nat.zero_add]
        exact .pure ()
    exact hcleared.bind fun _ => hcopy.bind fun _ => (hpack.add (3 + size)).bind fun _ =>
      hwrite.bind fun _ => hend

/-- An array is written with its operands, and its slot is what is left. -/
theorem balances_storeArray (move : Bool) :
    Balances strict sc (item.storeArray source move) (source.sizeOnStack + 2)
      (keptSlots move 1) := by
  unfold storeArray
  split
  · have hpop : Balances strict sc (emit .pop) (source.sizeOnStack + 2) (source.sizeOnStack + 1) :=
      .emit (Nat.le_add_left 1 _)
    have hcopy : Balances strict sc (copyArrayToStorage item.ty source) (source.sizeOnStack + 1) 1 :=
      .callRoutine _ _ _ _
    refine hpop.bind fun _ => hcopy.bind fun _ => ?_
    cases move with
    | true => exact .emit (Nat.le_refl 1)
    | false => exact .pure ()
  · exact .fault rfl

/-- Every type but structs is written with its operands. -/
theorem balances_storeFlat (move : Bool) :
    Balances strict sc (item.storeFlat source move)
      ((if item.ty.isValueType then item.ty.readSize else source.sizeOnStack) + 2)
      (keptSlots move (if item.ty.isValueType then item.ty.sizeOnStack else 1)) := by
  unfold storeFlat
  cases hvalue : item.ty.isValueType with
  | true => exact balances_storeValue hvalue move
  | false =>
    simp only [Bool.false_eq_true, if_false]
    split
    · exact balances_storeArray move
    · exact .bind_nil (.displayTy _) (.fault rfl)

/-! ## Structs -/

/-- Reading a member through the struct in the second slot of the stack. -/
theorem balances_retrieveMember (f : Field) (location : DataLocation) (memoryOffset : Nat) :
    Balances strict sc (retrieveMember location f memoryOffset) 2 (2 + f.ty.readSize) := by
  have hoperands : Balances strict sc (emitAll (memberOperands f)) 2 4 := .emitAll rfl
  have haddress : Balances strict sc (emitAll [.pushNat memoryOffset, .dup 3, .add]) 2 3 :=
    .emitAll rfl
  have hread : Balances strict sc
      ((⟨f.ty.located location, .persistent⟩ : StorageItem).retrieve true) 2
      (0 + (f.ty.located location).readSize) := balances_retrieve true
  have hload : Balances strict sc ((⟨f.ty.located location, true⟩ : MemoryCell).retrieve true) 1
      (0 + (f.ty.located location).readSize) := MemoryCell.balances_retrieve true
  rw [Ty.readSize_located, Nat.zero_add] at hread hload
  unfold retrieveMember
  rw [Nat.add_comm]
  cases location with
  | storage => exact hoperands.bind fun _ => hread.add 2
  | memory | calldata => exact haddress.bind fun _ => hload.add 2

/-- Pushing the operands of a member of the target, which lies below the value, and a write. -/
theorem balances_writeOperands {f : Field} {size taken : Nat} {c : Emit Unit} (hle : size ≤ taken)
    (hc : Balances strict sc c (taken + 2) 0) :
    Balances strict sc (do
      dupSlot (1 + size)
      emitAll [.push f.slotWord, .add, .pushNat f.storage.byte]
      c) (2 + taken) 2 := by
  have hdup : Balances strict sc (dupSlot (1 + size)) (2 + taken) (2 + taken + 1) :=
    .dupSlot (by omega)
  have htarget : Balances strict sc (emitAll [.push f.slotWord, .add, .pushNat f.storage.byte])
      (2 + taken + 1) (taken + 2 + 2) := by
    have hone : heightFrom 1 [.push f.slotWord, .add, .pushNat f.storage.byte] = some 2 := rfl
    have hadd := heightFrom_add (2 + taken) hone
    rw [show 1 + (2 + taken) = 2 + taken + 1 by omega, show 2 + (2 + taken) = taken + 2 + 2 by omega]
      at hadd
    exact .emitAll hadd
  exact hdup.bind fun _ => htarget.bind fun _ => hc.add 2

/-- What was read from a member is written, if the structs that the member consists of are written with
their operands. -/
theorem balances_writeMember {f : Field} {source location : DataLocation}
    (htuple : strict → ∀ components, f.ty ≠ .tuple components) (hsource : source ≠ .calldata)
    (hstruct : ∀ d declared, f.ty = .struct d declared →
      Balances strict sc (storeStruct d location (.struct d source) true) 3 0) :
    Balances strict sc (writeMember source location f) (2 + f.ty.readSize) 2 := by
  by_cases hflat : ∀ d declared, f.ty ≠ .struct d declared
  · have hwrite : Balances strict sc
        (storeFlat ⟨f.ty.located location, .persistent⟩ (f.ty.located source) true)
        ((if f.ty.isValueType then f.ty.readSize else (f.ty.located source).sizeOnStack) + 2) 0 := by
      rw [← Ty.readSize_located f.ty location, ← Ty.isValueType_located f.ty location]
      exact balances_storeFlat true
    rw [writeMember_of_ne_struct hflat]
    by_cases hvalue : f.ty.isValueType = true
    · rw [if_pos hvalue] at hwrite
      refine balances_writeOperands ?_ hwrite
      rw [Ty.located_of_isValueType hvalue]
      exact Ty.sizeOnStack_le_readSize hvalue
    · rw [Ty.readSize_of_not_isValueType (Bool.eq_false_iff.2 hvalue)]
      rw [if_neg hvalue] at hwrite
      cases hty : f.ty with
      | array element length declared =>
        have hsize : ((Ty.array element length declared).located source).sizeOnStack = 1 := by
          cases source with
          | calldata => contradiction
          | storage | memory => cases length <;> rfl
        rw [hty, hsize] at hwrite
        rw [hsize]
        exact balances_writeOperands (Nat.le_refl 1) hwrite
      | mapping key value =>
        rw [hty] at hwrite
        exact balances_writeOperands (Nat.le_refl 1) hwrite
      | tuple components =>
        -- the write of such a member is not strict, and it is never compiled
        refine .of_takes (fun hs => htuple hs components hty) ?_
        have hfails : ∀ P, EmitsSome sc (storeFlat ⟨(Ty.tuple components).located location, .persistent⟩
            ((Ty.tuple components).located source) true) P := fun P =>
          .bind_nil (.displayTy _) (.fault _)
        exact (EmitsSome.dupSlot _).bind_fails fun _ _ =>
          (EmitsSome.of_emits (P := fun _ _ => True) (.emitAll _) trivial).bind_fails fun _ P => hfails P
      | struct d declared => exact absurd hty (hflat d declared)
      | _ =>
        rw [hty] at hvalue
        exact absurd rfl hvalue
  · push Not at hflat
    obtain ⟨d, declared, hty⟩ := hflat
    have hwrite : Balances strict sc (storeStruct d location (.struct d source) true) (1 + 2) 0 :=
      hstruct d declared hty
    have hoperands := balances_writeOperands (f := f) (Nat.le_refl 1) hwrite
    rw [writeMember_of_struct hty, hty]
    exact hoperands

/-- A member is copied with the stack as high as it was, if the structs that it consists of are written
with their operands. -/
theorem balances_copyMember {f : Field} {source location : DataLocation}
    (htuple : strict → ∀ components, f.ty ≠ .tuple components) (hsource : source ≠ .calldata)
    (hstruct : ∀ d declared, f.ty = .struct d declared →
      Balances strict sc (storeStruct d location (.struct d source) true) 3 0) :
    Balances strict sc (copyMember source location f) 2 2 := by
  unfold copyMember
  split
  · exact .pure ()
  · exact (balances_retrieveMember f _ _).bind fun _ => balances_writeMember htuple hsource hstruct

/-- A struct is written with its operands, whatever the source, and its slot is what is left.

**Proof sketch.** Induction on the number of the struct.  The code of every member leaves the stack
as high as it was, where it is compiled: mappings and tuples cannot be written. -/
theorem balances_storeStruct {d : StructId}
    (htuple : strict → ∀ leaf ∈ sc.structs.leaves d, ∀ components, leaf.ty ≠ .tuple components)
    (location : DataLocation) (move : Bool) :
    Balances strict sc (storeStruct d location source move) 3 (keptSlots move 1) := by
  induction d using Nat.strongRecOn generalizing source move with
  | ind d ih =>
    have hpop : Balances strict sc (emit .pop) 3 2 := .emit (by decide)
    have hcalldata : Balances strict sc (emitAll [.dup 2, .dup 2]) 2 4 := .emitAll rfl
    have hcopy : Balances strict sc (copyCalldataStruct (.struct d location) source) 4 2 :=
      (Balances.callRoutine _ _ 2 0).add 2
    have hend : Balances strict sc (if move then popSlots 2 else emitAll [.swap 1, .pop]) 2
        (keptSlots move 1) := by
      cases move with
      | true => exact .popSlots 2
      | false => exact .emitAll rfl
    have hmembers : ∀ sourceLocation ≠ .calldata, ∀ f ∈ sc.structs.fields d,
        Balances strict sc (copyMember sourceLocation location f) 2 2 := by
      intro sourceLocation hlocation f hf
      refine balances_copyMember (fun hs components hty => ?_) hlocation fun d' declared hty => ?_
      · have hmem := mem_leaves_of_ne_struct hf fun d' declared h => by rw [hty] at h; contradiction
        exact htuple hs _ hmem components hty
      · exact ih d' (lt_of_mem_fields hf hty)
          (fun hs leaf hmem => htuple hs (leaf.shift f.storage.slot) (shift_mem_leaves hf hty hmem)) true
    cases hlocation : storeStruct.sourceLocation? d source with
    | none =>
      rw [storeStruct, hlocation]
      refine hpop.bind fun _ => .bind_nil .read ?_
      exact .bind_nil (.displayTy _) (.bind_nil (.displayTy _) (.bind_error (.fault _) rfl))
    | some sourceLocation =>
      obtain rfl := sourceLocation?_eq_some.1 hlocation
      by_cases hne : sourceLocation = .calldata
      · subst hne
        rw [storeStruct, hlocation]
        refine hpop.bind fun _ => .bind_nil .read ?_
        exact hcalldata.bind fun _ => hcopy.bind fun _ => hend
      · rw [storeStruct_eq d location hne]
        exact hpop.bind fun _ => .bind_nil .read
          (Balances.bind (.forM fun f hf => hmembers sourceLocation hne f hf) fun _ => hend)

/-- A write to storage takes the value, the slot and the byte offset; what is left is the value of a
value type, and the slot of another type. -/
theorem balances_store (hnamed : item.ty.WellNamed)
    (htuple : strict → ∀ d location, item.ty = .struct d location →
      ∀ leaf ∈ sc.structs.leaves d, ∀ components, leaf.ty ≠ .tuple components)
    (hsize : item.ty.isArray = false → source.sizeOnStack = item.ty.sizeOnStack) (move : Bool) :
    Balances strict sc (item.store source move) (source.sizeOnStack + 2)
      (keptSlots move (if item.ty.isValueType then item.ty.sizeOnStack else 1)) := by
  unfold store
  cases hvalue : item.ty.isValueType with
  | true =>
    have hflat : Balances strict sc (item.storeFlat source move) (source.sizeOnStack + 2)
        (keptSlots move item.ty.sizeOnStack) := by
      have hstore : Balances strict sc (item.storeFlat source move) _ _ := balances_storeFlat move
      rw [hsize (Ty.isArray_of_isValueType hvalue)]
      rwa [hvalue, if_pos rfl, if_pos rfl, hnamed.readSize_eq hvalue] at hstore
    split
    · rename_i hstruct
      rw [hstruct] at hvalue
      contradiction
    · exact hflat
  | false =>
    refine balances_rejectTransientReference item ?_
    split
    · rename_i d location hty
      rw [hsize (by rw [hty]; rfl), hty]
      exact balances_storeStruct (fun hs => htuple hs d location hty) location move
    · have hstore : Balances strict sc (item.storeFlat source move) _ _ := balances_storeFlat move
      rwa [hvalue] at hstore

end StorageItem

end WordPlaces
