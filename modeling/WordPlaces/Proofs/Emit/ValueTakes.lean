import WordPlaces.Proofs.Emit.Takes
import WordPlaces.Proofs.Ty.Width

/-!
# What the handling of values takes from the stack

Conversions, and the ways into and out of memory and packed words.  Those that cannot be compiled are
refused, whatever they would take.

## Main results

* `Balances.convertType` — a conversion of value types replaces the top of the stack.
* `Balances.loadFromMemory`, `Balances.storeInMemory` — between an address and the value behind it.
* `Balances.unpackValue`, `Balances.packValue` — between a packed word and a value.
* `Balances.pushZeroValue` — the zero value of a type takes the slots of the type.
-/

set_option autoImplicit false

namespace WordPlaces

open Fragment

/-- Reference types have no packed encoding. -/
theorem Ty.encoding?_eq_error {ty : Ty} {f : Fault} (h : ty.encoding? = .error f) :
    f = .referenceEncoding := by
  induction ty using encoding?.induct with
  | case7 name underlying ih => exact ih h
  | case10 | case11 | case12 | case13 => exact (Except.error.inj h).symm
  | _ => contradiction

namespace Balances

variable {strict : Prop} {sc : Scope} {source ty : Ty} {e : Encoding} {h h' : Nat}

/-! ## Parts that may not be there -/

/-- What follows the form of a type, which not every type has. -/
theorem bind_encoding {α : Type} {f : Encoding → Emit α}
    (hf : ∀ e, ty.encoding? = .ok e → Balances strict sc (f e) h h') :
    Balances strict sc (orFault ty.encoding? >>= f) h h' :=
  bind_orFault (fun _ he => Ty.encoding?_eq_error he ▸ rfl) hf

/-- What follows the number of bits that a width leaves, which may be too wide. -/
theorem bind_unusedBits {α : Type} {width : Nat} {f : Nat → Emit α}
    (hf : ∀ bits, Balances strict sc (f bits) h h') :
    Balances strict sc (orFault (unusedBits width) >>= f) h h' := by
  refine bind_orFault (fun e he => ?_) fun bits _ => hf bits
  rw [unusedBits] at he
  split at he
  · contradiction
  · obtain rfl := Except.error.inj he
    rfl

/-! ## Value types -/

/-- Extending a sign replaces one word. -/
theorem signExtendFrom (width : Nat) : Balances strict sc (signExtendFrom width) 1 1 := by
  unfold WordPlaces.signExtendFrom
  split
  · exact .fault rfl
  · exact .emitAll rfl

/-- A shift to the left replaces one word. -/
theorem leftShift (bits : Nat) : Balances strict sc (leftShift bits) 1 1 := by
  unfold WordPlaces.leftShift shiftLeft
  split
  · split
    · exact .emitAll rfl
    · exact .emitAll rfl
  · exact .fault rfl

/-- A shift to the right replaces one word. -/
theorem rightShift (bits : Nat) : Balances strict sc (rightShift bits) 1 1 := by
  unfold WordPlaces.rightShift shiftRight
  split
  · split
    · exact .emitAll rfl
    · exact .emitAll rfl
  · exact .fault rfl

/-- Cleaning up replaces one word. -/
theorem cleanupValue (ty : Ty) : Balances strict sc (cleanupValue ty) 1 1 := by
  unfold WordPlaces.cleanupValue
  refine bind_encoding fun e _ => ?_
  split
  · exact .pure ()
  · split
    · exact .emitAll rfl
    · split
      · exact .emitAll rfl
      · exact signExtendFrom _
      · exact .emitAll rfl

/-- A value is converted to a value type where it is. -/
theorem convertType (hvalue : ty.isValueType = true) (chopSignBits : Bool) :
    Balances strict sc (convertType source ty true chopSignBits) 1 1 := by
  unfold WordPlaces.convertType
  split
  · simp only [if_true]
    refine (cleanupValue ty).bind fun _ => bind_encoding fun e _ => ?_
    split
    · exact .emitAll rfl
    · exact .pure ()
  · rw [hvalue, Bool.or_true, if_pos rfl]
    exact bind_nil (.displayTy _) (bind_nil (.displayTy _) (fault rfl))

/-- A call takes the inputs of the routine and leaves its outputs. -/
theorem callRoutine (task : String) (types : List Ty) (inputs outputs : Nat) :
    Balances strict sc (callRoutine task types inputs outputs) inputs outputs := by
  refine bind_nil .read (bind_nil (.logEvent _) ?_)
  have hcall : Balances strict sc (WordPlaces.emit (.call (routineName sc.structs task types) inputs outputs))
      inputs (inputs - inputs + outputs) := emit (Nat.le_refl inputs)
  rwa [Nat.sub_self, Nat.zero_add] at hcall

/-! ## Packed words -/

/-- A packed word is replaced by the value. -/
theorem unpackValue (e : Encoding) :
    Balances strict sc (unpackValue e) 1 (if e.form = .externalFunction then 2 else 1) := by
  unfold WordPlaces.unpackValue
  cases e.form with
  | fixedPoint => exact .reject _
  | externalFunction => exact .emitAll rfl
  | internalFunction => exact (emitAll rfl).bind fun _ => .emitAll rfl
  | plain =>
    cases e.alignment with
    | left => exact bind_unusedBits fun _ => leftShift _
    | right =>
      cases e.signedness with
      | signed => exact signExtendFrom _
      | unsigned | notApplicable => exact .emitAll rfl

/-- A value is replaced by its packed word. -/
theorem packValue (he : ty.encoding? = .ok e) :
    Balances strict sc (packValue source ty) (if e.form = .externalFunction then 2 else 1) 1 := by
  unfold WordPlaces.packValue
  refine bind_nil (.orFault he) ?_
  cases e.form with
  | fixedPoint => exact .reject _
  | externalFunction => exact .emitAll rfl
  | internalFunction => exact .emitAll rfl
  | plain =>
    cases e.alignment with
    | left => exact bind_unusedBits fun _ => rightShift _
    | right => exact convertType (Ty.isValueType_of_encoding?_eq_ok he) _

/-! ## Memory -/

/-- An address is replaced by the value behind it. -/
theorem loadFromMemory (ty : Ty) (padded : Bool) :
    Balances strict sc (loadFromMemory ty padded) 1 ty.readSize := by
  unfold WordPlaces.loadFromMemory
  refine bind_encoding fun e he => ?_
  rw [Ty.readSize_of_encoding?_eq_ok he]
  refine (emit (Nat.le_refl 1)).bind fun _ => ?_
  split
  · exact .emitAll rfl
  · split
    · exact .pure ()
    · refine bind_unusedBits fun unused => (rightShift unused).bind fun _ => ?_
      split
      · exact leftShift _
      · exact signExtendFrom _
      · exact .pure ()

/-- A reference above an address is written like a value of one slot. -/
theorem storeInMemory_of_not_isValueType (hvalue : ty.isValueType = false) (padded : Bool) :
    Balances strict sc (WordPlaces.storeInMemory ty padded) (ty.sizeOnStack + 1) 1 := by
  unfold WordPlaces.storeInMemory
  rw [hvalue, if_neg Bool.false_ne_true]
  split
  · rename_i hmemory
    rw [Ty.sizeOnStack_of_location?_eq_memory hmemory]
    exact .emitAll rfl
  · exact .reject _

/-- A value above an address is written, and the address behind it is left.  The value has the words that
it is read as. -/
theorem storeInMemory (hvalue : ty.isValueType = true) (padded : Bool) :
    Balances strict sc (storeInMemory ty padded) (ty.readSize + 1) 1 := by
  unfold WordPlaces.storeInMemory
  rw [if_pos hvalue]
  refine bind_encoding fun e he => ?_
  rw [Ty.readSize_of_encoding?_eq_ok he]
  have hwrite : Balances strict sc
      (WordPlaces.emitAll [.dup 2, .mstore, .pushNat (ty.memoryBytes padded), .add]) 2 1 := .emitAll rfl
  split
  · have hcombine : Balances strict sc (WordPlaces.emitAll (combineExternal true)) 3 2 := .emitAll rfl
    exact hcombine.bind fun _ => hwrite
  · have hconvert : Balances strict sc (WordPlaces.convertType ty ty true false) 2 2 :=
      (convertType hvalue false).add 1
    refine hconvert.bind fun _ => ?_
    split
    · refine bind_unusedBits fun unused => ?_
      have hshift : Balances strict sc (WordPlaces.leftShift unused) 2 2 := (leftShift unused).add 1
      exact hshift.bind fun _ => hwrite
    · exact hwrite

/-- What a type takes is written, if it is no other name of external functions. -/
theorem storeInMemory_of_wellNamed (hnamed : ty.WellNamed) (padded : Bool) :
    Balances strict sc (WordPlaces.storeInMemory ty padded) (ty.sizeOnStack + 1) 1 := by
  cases hvalue : ty.isValueType with
  | true =>
    rw [← hnamed.readSize_eq hvalue]
    exact storeInMemory hvalue padded
  | false => exact storeInMemory_of_not_isValueType hvalue padded

/-! ## Zero values -/

/-- Pushing zeros raises the stack by their number. -/
theorem pushZeros (count h : Nat) :
    Balances strict sc (WordPlaces.repeatEmit count (WordPlaces.emit (.push 0))) h (h + count) :=
  repeatEmit (h + ·) fun _ _ => emit (Nat.zero_le _)

/-- The reference to an empty object is one word. -/
theorem pushZeroReference (ty : Ty) (h : Nat) :
    Balances strict sc (pushZeroReference ty) h (h + 1) := by
  unfold WordPlaces.pushZeroReference
  split
  · exact .emit (Nat.zero_le h)
  · have hcall : Balances strict sc (WordPlaces.callRoutine "allocate_and_zero" [ty] 0 1) 0 1 :=
      callRoutine _ _ 0 1
    have hadd := hcall.add h
    rwa [Nat.zero_add, Nat.add_comm 1] at hadd

mutual

/-- The zero value of a type takes the slots of the type. -/
theorem pushZeroValue (ty : Ty) (h : Nat) :
    Balances strict sc (pushZeroValue ty) h (h + ty.sizeOnStack) := by
  cases ty with
  | function kind =>
    cases kind with
    | internal => exact .emit (Nat.zero_le h)
    | external => exact pushZeros 2 h
  | tuple components => exact pushZeroValues components h
  | array element length location =>
    cases location with
    | storage => exact bind_nil (.displayTy _) (fault rfl)
    | memory =>
      cases length with
      | none => exact pushZeroReference (.array element none .memory) h
      | some n => exact pushZeroReference (.array element (some n) .memory) h
    | calldata => exact pushZeros _ h
  | struct d location =>
    cases location with
    | storage => exact bind_nil (.displayTy _) (fault rfl)
    | memory => exact pushZeroReference (.struct d .memory) h
    | calldata => exact pushZeros 1 h
  | mapping key value => exact bind_nil (.displayTy _) (fault rfl)
  | _ => exact pushZeros 1 h

/-- The values of a tuple take the words of its components. -/
theorem pushZeroValues (tys : List Ty) (h : Nat) :
    Balances strict sc (pushZeroValue.pushZeroValues tys) h (h + Ty.sizeOnStack.sizes tys) := by
  cases tys with
  | nil => exact .pure ()
  | cons ty tys =>
    rw [Ty.sizeOnStack.sizes, ← Nat.add_assoc]
    exact (pushZeroValue ty h).bind fun _ => pushZeroValues tys (h + ty.sizeOnStack)

end

end Balances

end WordPlaces
