import WordPlaces.Place.Basic
import WordPlaces.Proofs.Emit.Rotation
import WordPlaces.Proofs.Emit.ValueTakes

/-!
# What a read takes from the stack

A read replaces the addressing operands by the value, or puts the value above them.  The words of the
value are those of its encoding: an external function under another name is read as two words as well,
though it is counted as one.  Local variables, which are found by their distance from the top, are left to
a module of their own.

## Main definitions

* `keptSlots` — the slots of operands that are only taken if they are to be removed.
* `MemoryCell.WritesOwnWords` — the cells that are written as the words of their type.
* `ImmutableVariable.readSize` — the words that a read of an immutable leaves.

## Main results

* `MemoryCell.balances_retrieve`, `ImmutableVariable.balances_retrieve`,
  `ByteElement.balances_retrieve`, `StorageItem.balances_retrieve` — the four kinds of places.
-/

set_option autoImplicit false

namespace WordPlaces

open Fragment

variable {strict : Prop} {sc : Scope}

/-- The slots that are left of `size` slots, if they are not to be removed. -/
def keptSlots (remove : Bool) (size : Nat) : Nat := if remove then 0 else size

/-- Nothing is left of slots that are removed. -/
@[simp] theorem keptSlots_true (size : Nat) : keptSlots true size = 0 := rfl

/-- All slots are left where they are to be kept. -/
@[simp] theorem keptSlots_false (size : Nat) : keptSlots false size = size := rfl

/-- Nothing is left of no slots. -/
@[simp] theorem keptSlots_zero (remove : Bool) : keptSlots remove 0 = 0 := by cases remove <;> rfl

/-! ## Memory -/

namespace MemoryCell

variable {cell : MemoryCell}

/-- The words that are written to the cell are those that a value of its type takes: the type is no other
name of external functions, unless only a byte is written. -/
def WritesOwnWords (cell : MemoryCell) : Prop := cell.padded = true → cell.ty.WellNamed

/-- An address is kept by copying it. -/
theorem balances_keep (remove : Bool) {c : Emit Unit} {h' : Nat} (hc : Balances strict sc c 1 h') :
    Balances strict sc (do
      if !remove then emit (.dup 1)
      c) 1 (keptSlots remove 1 + h') := by
  cases remove with
  | true =>
    rw [keptSlots_true, Nat.zero_add]
    exact hc
  | false =>
    have hdup : Balances strict sc (emit (.dup 1)) 1 (1 + 1) := .emit (Nat.le_refl 1)
    rw [keptSlots_false, Nat.add_comm]
    exact hdup.bind fun _ => hc.add 1

/-- What is read from the address takes its place, or lies above it. -/
theorem balances_retrieve (remove : Bool) :
    Balances strict sc (cell.retrieve remove) 1 (keptSlots remove 1 + cell.ty.readSize) := by
  unfold retrieve
  refine balances_keep remove ?_
  split
  · exact .loadFromMemory _ _
  · rename_i hvalue
    rw [Ty.readSize_of_not_isValueType (by simpa using hvalue)]
    exact .emit (Nat.le_refl 1)

end MemoryCell

/-! ## Immutables and bytes -/

/-- Pushing symbols. -/
theorem heightFrom_pushSymbols (h : Nat) (symbols : List Symbol) :
    heightFrom h (symbols.map .pushSymbol) = some (h + symbols.length) := by
  induction symbols generalizing h with
  | nil => rfl
  | cons symbol symbols ih =>
    rw [List.map_cons, heightFrom_cons_of_le _ (Nat.zero_le h), ih]
    simp only [Instruction.inputs, Instruction.outputs, List.length_cons]
    congr 1
    omega

/-- There is a placeholder for each stack slot of the value. -/
theorem Variable.length_placeholders (v : Variable) :
    v.placeholders.length = v.ty.sizeOnStack := by
  rw [placeholders]
  split
  · rename_i hsize
    exact hsize.symm
  · rw [List.length_map, List.length_range]

namespace ImmutableVariable

/-- What comes after the check has a value type. -/
theorem balances_rejectReference (v : ImmutableVariable) {c : Emit Unit} {h h' : Nat}
    (hc : v.ty.isValueType = true → Balances strict sc c h h') :
    Balances strict sc (do v.rejectReference; c) h h' := by
  unfold rejectReference
  split
  · exact .bind_nil (.pure ()) (hc ‹_›)
  · exact .bind_error (.reject _) rfl

/-- The address of an immutable is pushed, if the immutable is bound to one. -/
theorem balances_pushAddress (v : ImmutableVariable) (h : Nat) :
    Balances strict sc v.pushAddress h (h + 1) := by
  refine .bind_nil .read ?_
  split
  · exact .fault rfl
  · refine .bind_nil .read ?_
    split
    · exact .fault rfl
    · exact .emit (Nat.zero_le h)

/-- The words that a read of an immutable leaves: those that are read from its cell, or the placeholders
for the slots of its type. -/
def readSize (v : ImmutableVariable) : CodeKind → Nat
  | .creation => v.ty.readSize
  | .runtime => v.ty.sizeOnStack

/-- A read of an immutable pushes its words. -/
theorem balances_retrieve (v : ImmutableVariable) :
    Balances strict sc v.retrieve 0 (v.readSize sc.kind) := by
  refine balances_rejectReference v fun _ => .bind_nil .read ?_
  cases sc.kind with
  | creation => exact (balances_pushAddress v 0).bind fun _ => .loadFromMemory _ true
  | runtime =>
    have hheight := heightFrom_pushSymbols 0 (v.placeholders.map .immutable)
    rw [List.map_map, List.length_map, Variable.length_placeholders, Nat.zero_add] at hheight
    exact .emitAll hheight

end ImmutableVariable

namespace ByteElement

/-- A read of a byte replaces or keeps the slot and the index. -/
theorem balances_retrieve (remove : Bool) :
    Balances strict sc (retrieve remove) 2 (keptSlots remove 2 + 1) := by
  cases remove <;> exact .emitAll rfl

end ByteElement

/-! ## Storage -/

namespace StorageItem

variable {item : StorageItem}

/-- What comes after the check for references in transient storage. -/
theorem balances_rejectTransientReference (item : StorageItem) {c : Emit Unit} {h h' : Nat}
    (hc : Balances strict sc c h h') :
    Balances strict sc (do item.rejectTransientReference; c) h h' := by
  unfold rejectTransientReference
  cases item.kind with
  | persistent => exact .bind_nil (.pure ()) hc
  | transient => exact .bind_error (.reject _) rfl

/-- The slot and the byte offset are kept by copying both. -/
theorem balances_keep (remove : Bool) {c : Emit Unit} {h' : Nat} (hc : Balances strict sc c 2 h') :
    Balances strict sc (do
      if !remove then copyToTop 2 2
      c) 2 (keptSlots remove 2 + h') := by
  cases remove with
  | true =>
    rw [keptSlots_true, Nat.zero_add]
    exact hc
  | false =>
    have hcopy : Balances strict sc (copyToTop 2 2) 2 (2 + 2) := .copyToTop (Nat.le_refl 2) 2
    rw [keptSlots_false, Nat.add_comm]
    exact hcopy.bind fun _ => hc.add 2

/-- The words of a value are read from its bytes, and the slot of a reference is its value. -/
theorem balances_retrieve (remove : Bool) :
    Balances strict sc (item.retrieve remove) 2 (keptSlots remove 2 + item.ty.readSize) := by
  unfold retrieve
  cases hvalue : item.ty.isValueType with
  | false =>
    rw [Ty.readSize_of_not_isValueType hvalue]
    simp only [Bool.not_false, if_true]
    refine balances_rejectTransientReference item ?_
    cases remove with
    | true => exact .emit (by decide)
    | false => exact .emit (Nat.le_refl 2)
  | true =>
    simp only [Bool.not_true, Bool.false_eq_true, if_false]
    refine balances_keep remove (.bind_encoding fun e he => ?_)
    rw [Ty.readSize_of_encoding?_eq_ok he]
    split
    · rename_i hfull
      rw [if_neg (Ty.form_ne_of_isFullWord he hfull)]
      exact .emitAll rfl
    · have hread : Balances strict sc (emitAll ([.swap 1, .sload item.kind, .swap 1] ++
          offsetToMultiplier ++ [.swap 1, .div])) 2 1 := .emitAll rfl
      exact hread.bind fun _ => .unpackValue e

end StorageItem

end WordPlaces
