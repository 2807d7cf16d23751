import WordPlaces.Proofs.Emit.EmitsOnly
import WordPlaces.Proofs.Emit.ValueTakes

/-!
# Stack instructions reach their slots

Stack instructions reach the sixteen topmost slots.  Code that handles values uses fixed distances, and
blocks of slots are moved with checked instructions, which reject the unit where a slot is out of reach.

## Main definitions

* `Instruction.IsRead` — instructions that only change the stack, and reach their slots.
* `Instruction.Lowers` — instructions that can be lowered, those on transient storage included.

## Main results

* `confined_convertType`, `confined_loadFromMemory`, `confined_unpackValue`, `confined_packValue` — the
  handling of values only changes the stack.
* `confined_storeInMemory`, `confined_pushZeroValue` — the handling of values that does more.
* `confined_copyToTop`, `confined_moveInto` — blocks of slots, which are reached if there are few of them.
-/

set_option autoImplicit false

namespace WordPlaces

open Fragment

/-! ## Instructions -/

namespace Instruction

/-- The instruction reads the stack, memory or storage and only changes the stack and the size of memory.
A stack instruction reaches its slot. -/
def IsRead : Instruction → Prop
  | .dup n | .swap n => 1 ≤ n ∧ n ≤ stackWindow
  | .mstore | .mstore8 | .sstore _ | .call .. => False
  | _ => True

/-- The instruction can be lowered, if it is not one on transient storage: a stack instruction reaches its
slot, and a routine has few inputs. -/
def Lowers : Instruction → Prop
  | .dup n | .swap n => 1 ≤ n ∧ n ≤ stackWindow
  | .call _ inputs _ => inputs ≤ 3
  | _ => True

/-- An instruction that only reads can be lowered. -/
theorem IsRead.lowers {op : Instruction} (h : op.IsRead) : op.Lowers := by
  cases op with
  | dup | swap => exact h
  | call => exact h.elim
  | _ => trivial

end Instruction

open Instruction

variable {strict : Prop} {sc : Scope}

/-! ## Values -/

section Values

/-- A sign extension works on the top of the stack. -/
theorem confined_signExtendFrom (width : Nat) : Confined strict sc IsRead (signExtendFrom width) := by
  unfold signExtendFrom
  split
  · exact .fault _
  · exact .emitAll (by simp [IsRead, signExtendBytes, pushNat])

/-- A shift works on the top of the stack. -/
theorem confined_leftShift (bits : Nat) : Confined strict sc IsRead (leftShift bits) := by
  unfold leftShift shiftLeft
  split
  · exact .emitAll (by split <;> simp [IsRead])
  · exact .fault _

/-- A shift works on the top of the stack. -/
theorem confined_rightShift (bits : Nat) : Confined strict sc IsRead (rightShift bits) := by
  unfold rightShift shiftRight
  split
  · exact .emitAll (by split <;> simp [IsRead])
  · exact .fault _

/-- A value is brought into its canonical form on the top of the stack. -/
theorem confined_cleanupValue (ty : Ty) : Confined strict sc IsRead (cleanupValue ty) := by
  refine (Confined.orFault _).bind fun e => ?_
  split
  · exact .pure ()
  · split
    · exact .emitAll (by simp [IsRead])
    · split
      · exact .emitAll (by simp [IsRead, keepHighBytes])
      · exact confined_signExtendFrom _
      · exact .emitAll (by simp [IsRead, keepLowBytes])

/-- A conversion to a value type calls no routine. -/
theorem confined_convertType {target : Ty} (hvalue : target.isValueType = true) (source : Ty)
    (cleanup chopSignBits : Bool) :
    Confined strict sc IsRead (convertType source target cleanup chopSignBits) := by
  unfold convertType
  have hchop : Confined strict sc IsRead (do
      let e ← orFault target.encoding?
      if chopSignBits && e.isSigned && !e.isFullWord then emitAll (keepLowBytes e.bytes)) := by
    refine (Confined.orFault _).bind fun e => ?_
    split
    · exact .emitAll (by simp [IsRead, keepLowBytes])
    · exact .pure ()
  split
  · split
    · exact (confined_cleanupValue target).bind fun _ => hchop
    · exact hchop
  · rw [hvalue, Bool.or_true, if_pos rfl]
    exact (Confined.displayTy source).bind fun _ => (Confined.displayTy target).bind fun _ => .fault _

/-- A call of a routine with few inputs can be lowered. -/
theorem confined_callRoutine (task : String) (types : List Ty) {inputs : Nat} (h : inputs ≤ 3)
    (outputs : Nat) : Confined strict sc Lowers (callRoutine task types inputs outputs) :=
  .bind_read ((Confined.logEvent _).bind fun _ => .emit h)

/-- A packed word is taken apart within the two topmost slots. -/
theorem confined_unpackValue (e : Encoding) : Confined strict sc IsRead (unpackValue e) := by
  unfold unpackValue
  split
  · exact .reject fun _ _ => rfl
  · exact .emitAll (by simp [IsRead, splitExternal, shiftRight, keepLowBytes, stackWindow])
  · exact (Confined.emitAll (by simp [IsRead, assignedTag, stackWindow])).bind fun _ =>
      .emitAll (by simp [IsRead, keepLowBytes])
  · exact (Confined.orFault _).bind fun _ => confined_leftShift _
  · exact confined_signExtendFrom _
  · exact .emitAll (by simp [IsRead, keepLowBytes])

/-- A value is packed within the two topmost slots. -/
theorem confined_packValue (source target : Ty) : Confined strict sc IsRead (packValue source target) := by
  refine Confined.bind_orFault fun e he => ?_
  split
  · exact .reject fun _ _ => rfl
  · exact .emitAll (by simp [IsRead, combineExternal, shiftLeft, keepLowBytes, stackWindow])
  · exact .emitAll (by simp [IsRead, keepLowBytes])
  · exact (Confined.orFault _).bind fun _ => confined_rightShift _
  · exact confined_convertType (Ty.isValueType_of_encoding?_eq_ok he) _ _ _

/-- A value is read from memory within the two topmost slots. -/
theorem confined_loadFromMemory (ty : Ty) (padded : Bool) :
    Confined strict sc IsRead (loadFromMemory ty padded) := by
  refine (Confined.orFault _).bind fun e => (Confined.emit trivial).bind fun _ => ?_
  split
  · exact .emitAll (by simp [IsRead, splitExternal, shiftRight, keepLowBytes, stackWindow])
  · split
    · exact .pure ()
    · refine (Confined.orFault _).bind fun unused => (confined_rightShift unused).bind fun _ => ?_
      split
      · exact confined_leftShift _
      · exact confined_signExtendFrom _
      · exact .pure ()

/-- A value is written to memory with its address in the second slot from the top. -/
theorem confined_storeInMemory (ty : Ty) (padded : Bool) :
    Confined strict sc Lowers (storeInMemory ty padded) := by
  unfold storeInMemory
  have hwrite : ∀ bytes, Confined strict sc Lowers (emitAll [.dup 2, .mstore, .pushNat bytes, .add]) :=
    fun bytes => .emitAll (by simp [Lowers, stackWindow])
  split
  · rename_i hvalue
    refine (Confined.orFault _).bind fun e => ?_
    split
    · have hcombine : Confined strict sc Lowers (emitAll (combineExternal true)) :=
        .emitAll (by simp [Lowers, combineExternal, shiftLeft, keepLowBytes, stackWindow])
      exact hcombine.bind fun _ => hwrite _
    · refine ((confined_convertType hvalue _ _ _).mono fun _ => IsRead.lowers).bind fun _ => ?_
      split
      · exact (Confined.orFault _).bind fun _ =>
          ((confined_leftShift _).mono fun _ => IsRead.lowers).bind fun _ => hwrite _
      · exact hwrite _
  · split
    · exact hwrite 32
    · exact .reject fun _ _ => rfl

/-- A zero value in memory comes from a routine without inputs, or is a constant. -/
theorem confined_pushZeroReference (ty : Ty) : Confined strict sc Lowers (pushZeroReference ty) := by
  unfold pushZeroReference
  split
  · exact .emit trivial
  · exact confined_callRoutine _ _ (Nat.zero_le 3) _

mutual

/-- A zero value is pushed without reaching for a slot. -/
theorem confined_pushZeroValue (ty : Ty) : Confined strict sc Lowers (pushZeroValue ty) := by
  have hzeros : ∀ count, Confined strict sc Lowers (repeatEmit count (emit (.push 0))) :=
    (Confined.emit trivial).repeatEmit
  cases ty with
  | function kind =>
    cases kind with
    | internal => exact .emit trivial
    | external => exact hzeros 2
  | tuple components => exact confined_pushZeroValues components
  | array element length location =>
    cases location with
    | storage => exact (Confined.displayTy _).bind fun _ => .fault _
    | memory => exact confined_pushZeroReference (.array element length .memory)
    | calldata => exact hzeros _
  | struct d location =>
    cases location with
    | storage => exact (Confined.displayTy _).bind fun _ => .fault _
    | memory => exact confined_pushZeroReference (.struct d .memory)
    | calldata => exact hzeros 1
  | mapping key value => exact (Confined.displayTy _).bind fun _ => .fault _
  | _ => exact hzeros 1

/-- The zero values of a list of types are pushed without reaching for a slot. -/
theorem confined_pushZeroValues (tys : List Ty) :
    Confined strict sc Lowers (pushZeroValue.pushZeroValues tys) := by
  cases tys with
  | nil => exact .pure ()
  | cons ty tys => exact (confined_pushZeroValue ty).bind fun _ => confined_pushZeroValues tys

end

end Values

/-! ## Blocks on the stack -/

section Blocks

/-- A copy only reads, and its slot is within reach or it is refused. -/
theorem confined_dupSlot {depth : Nat} (h : strict → depth ≤ stackWindow) :
    Confined strict sc IsRead (dupSlot depth) := .dupSlot h fun hpos hle => ⟨hpos, hle⟩

/-- An exchange only reads, and its slot is within reach or it is refused. -/
theorem confined_swapSlot {depth : Nat} (h : strict → depth ≤ stackWindow) :
    Confined strict sc IsRead (swapSlot depth) := .swapSlot h fun hpos hle => ⟨hpos, hle⟩

/-- Copies are all made at one depth. -/
theorem confined_copyToTop {depth : Nat} (h : strict → depth ≤ stackWindow) (size : Nat) :
    Confined strict sc IsRead (copyToTop depth size) := (confined_dupSlot h).repeatEmit size

/-- Dropping slots works on the top of the stack. -/
theorem confined_popSlots (count : Nat) : Confined strict sc IsRead (popSlots count) :=
  (Confined.emit trivial).repeatEmit count

/-- Exchanges at rising depths are within reach if the last one is. -/
theorem confined_swapsFrom {depth count : Nat} (h : strict → depth + count ≤ stackWindow + 1) :
    Confined strict sc IsRead (swapsFrom depth count) := by
  induction count generalizing depth with
  | zero => exact .pure ()
  | succ count ih =>
    refine (confined_swapSlot fun hs => ?_).bind fun _ => ih fun hs => ?_
    · have := h hs
      omega
    · have := h hs
      omega

/-- Exchanges at falling depths are within reach if the first one is. -/
theorem confined_swapsDownFrom {depth : Nat} (h : strict → depth ≤ stackWindow) :
    Confined strict sc IsRead (swapsDownFrom depth) := by
  induction depth with
  | zero => exact .pure ()
  | succ depth ih => exact (confined_swapSlot h).bind fun _ => ih fun hs => Nat.le_of_succ_le (h hs)

/-- Blocks that are exchanged are within reach if the lowest of their slots is. -/
theorem confined_moveInto {depth size : Nat} (h : strict → depth + size ≤ stackWindow + 1) :
    Confined strict sc IsRead (moveInto depth size) := by
  unfold moveInto rotateDown rotateUp
  split
  · refine Confined.repeatEmit (.bind_orFault fun count hcount => confined_swapsFrom fun hs => ?_) _
    rw [checkedCount_eq_ok hcount]
    have := h hs
    omega
  · refine Confined.repeatEmit (.bind_orFault fun count hcount => confined_swapsDownFrom fun hs => ?_) _
    rw [checkedCount_eq_ok hcount]
    have := h hs
    omega

end Blocks

end WordPlaces
