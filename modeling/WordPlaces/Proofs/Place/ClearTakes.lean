import WordPlaces.Proofs.Place.ReadTakes

/-!
# What clearing takes from the stack

Clearing a place takes its addressing operands, or leaves them if they are to be kept.  Local
variables are left to a module of their own.

## Main results

* `MemoryCell.balances_setToZero`, `StorageItem.balances_setToZero`,
  `ImmutableVariable.balances_setToZero`, `ByteElement.balances_setToZero` — the four kinds of places.
-/

set_option autoImplicit false

namespace WordPlaces

open Fragment StructTable

variable {strict : Prop} {sc : Scope}

/-- The zero value of a type is pushed above an address and written there, if the words that are pushed
are those that are written. -/
theorem balances_writeZero {ty : Ty} (hnamed : ty.WellNamed) :
    Balances strict sc (do
      pushZeroValue ty
      storeInMemory ty true
      emit .pop) 1 0 := by
  have hstore : Balances strict sc (storeInMemory ty true) (1 + ty.sizeOnStack) 1 := by
    rw [Nat.add_comm]
    exact .storeInMemory_of_wellNamed hnamed true
  exact (Balances.pushZeroValue ty 1).bind fun _ => hstore.bind fun _ => .emit (Nat.le_refl 1)

/-- Clearing memory takes the address.  A cell of one byte is cleared without the zero value of its
type. -/
theorem MemoryCell.balances_setToZero {cell : MemoryCell} (hown : cell.WritesOwnWords) (remove : Bool) :
    Balances strict sc (cell.setToZero remove) 1 (keptSlots remove 1) := by
  unfold setToZero
  rw [← Nat.add_zero (keptSlots remove 1)]
  refine balances_keep remove ?_
  split
  · exact balances_writeZero (hown ‹_›)
  · exact .emitAll rfl

/-- Clearing an immutable takes nothing. -/
theorem ImmutableVariable.balances_setToZero {v : ImmutableVariable} (hnamed : v.ty.WellNamed) :
    Balances strict sc v.setToZero 0 0 :=
  balances_rejectReference v fun _ => (balances_pushAddress v 0).bind fun _ => balances_writeZero hnamed

/-- Clearing a byte takes the slot and the index. -/
theorem ByteElement.balances_setToZero (remove : Bool) :
    Balances strict sc (setToZero remove) 2 (keptSlots remove 2) := by
  cases remove with
  | true => exact .emitAll rfl
  | false => exact .fault rfl

namespace StorageItem

variable {item : StorageItem}

/-- A value type is cleared in its slot. -/
theorem balances_clearValue (item : StorageItem) : Balances strict sc item.clearValue 2 0 := by
  refine .bind_encoding fun e _ => ?_
  split
  · exact .emitAll rfl
  · exact .emitAll rfl

/-- Every type but structs is cleared with its operands. -/
theorem balances_clearFlat (item : StorageItem) (remove : Bool) :
    Balances strict sc (item.clearFlat remove) 2 (keptSlots remove 2) := by
  unfold clearFlat
  rw [← Nat.add_zero (keptSlots remove 2)]
  split
  · exact .bind_nil (.displayTy _) (.fault rfl)
  · split
    · exact .bind_nil (.displayTy _) (.fault rfl)
    · split
      · exact balances_rejectTransientReference item
          (balances_keep remove (.callRoutine _ _ 2 0))
      · exact balances_keep remove (balances_clearValue item)

/-- A struct is cleared with its operands.

**Proof sketch.** Induction on the number of the struct: every member is cleared with the operands
that are pushed for it. -/
theorem balances_clearStruct (d : StructId) (location : DataLocation) (remove : Bool) :
    Balances strict sc (clearStruct d location remove) 2 (keptSlots remove 2) := by
  induction d using Nat.strongRecOn generalizing remove with
  | ind d ih =>
    have hend : Balances strict sc (if remove then popSlots 2 else pure ()) 2
        (keptSlots remove 2) := by
      cases remove with
      | true => exact .popSlots 2
      | false => exact .pure ()
    rw [clearStruct]
    refine .bind_nil .read (Balances.bind (.forM fun field _ => ?_) fun _ => hend)
    obtain ⟨f, hf⟩ := field
    simp only
    split
    · exact .pure ()
    · have hoperands : Balances strict sc (emitAll (memberOperands f)) 2 4 := .emitAll rfl
      refine hoperands.bind fun _ => ?_
      split
      · rename_i d' declared hty
        exact (ih d' (lt_of_mem_fields hf hty) true).add 2
      · exact (balances_clearFlat _ true).add 2

/-- Clearing storage takes the slot and the byte offset. -/
theorem balances_setToZero (item : StorageItem) (remove : Bool) :
    Balances strict sc (item.setToZero remove) 2 (keptSlots remove 2) := by
  unfold setToZero
  split
  · exact balances_rejectTransientReference item (balances_clearStruct _ _ remove)
  · exact balances_clearFlat item remove

end StorageItem

end WordPlaces
