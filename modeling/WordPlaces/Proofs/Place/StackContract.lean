import WordPlaces.Proofs.Place.ClearTakes
import WordPlaces.Proofs.Place.LocalVariable
import WordPlaces.Proofs.Place.StoreTakes

/-!
# The stack contract of places

Every access takes the operands that it is documented to take and leaves what it is documented to
leave: nothing is missed on the stack, and nothing is forgotten there.  This holds of all kinds of
places but tuples, for all types that a place can have and all types that it can be assigned from.

## Main definitions

* `Place.Fits` — the types that each kind of place can have.
* `Place.Admits` — the types that a place can be assigned from.
* `Operation` — the three accesses, with the slots that they take and leave.

## Main results

* `StackVariable.balancesFrom_retrieve`, `StackVariable.balancesFrom_store`,
  `StackVariable.balancesFrom_setToZero` — the accesses of local variables.
* `Operation.exec_height` — every access keeps the contract.
-/

set_option autoImplicit false

namespace WordPlaces

/-! ## Local variables -/

namespace StackVariable

variable {sc : Scope}

/-- The distance of a slot is asked for; there is none for a slot above the top. -/
theorem balancesFrom_bind_distanceToTop {α : Type} {base h h' : Nat} {f : Nat → Emit α}
    (hf : base < h → BalancesFrom sc (f (h - base - 1)) h h') :
    BalancesFrom sc (distanceToTop base >>= f) h h' := by
  by_cases hlt : base < h
  · exact .bind_nil (emitsFrom_distanceToTop hlt) (hf hlt)
  · exact .bind_error (emitsFrom_distanceToTop_of_le (Nat.le_of_not_lt hlt)) rfl

/-- A local variable is copied onto the top. -/
theorem balancesFrom_retrieve (v : StackVariable) (h : Nat) :
    BalancesFrom sc v.retrieve h (h + v.size) := by
  refine balancesFrom_bind_distanceToTop fun hlt => ?_
  simp only
  split
  · exact .fault rfl
  · exact (Balances.copyToTop (by omega) v.size).balancesFrom 0

/-- The slots of a variable take the words above them. -/
theorem balances_overwrite (v : StackVariable) {distance : Nat} (hpos : 0 < distance) :
    Balances True sc (v.overwrite distance) (v.size + distance) distance := by
  have hstep : ∀ i < v.size, Balances True sc (do swapSlot distance; emit .pop)
      (v.size + distance - i) (v.size + distance - (i + 1)) := by
    intro i hi
    have hswap : Balances True sc (swapSlot distance) (v.size + distance - i)
        (v.size + distance - i) := .swapSlot (by omega)
    exact hswap.bind fun _ => .emit (by simp only [Instruction.inputs]; omega)
  have hrepeat := Balances.repeatEmit (v.size + distance - ·) hstep
  rwa [Nat.add_sub_cancel_left] at hrepeat

/-- A local variable is written with the words above it. -/
theorem balancesFrom_store (v : StackVariable) (move : Bool) {distance : Nat}
    (hle : v.size ≤ distance) :
    BalancesFrom sc (v.store move) (v.size + distance + v.base)
      (distance + v.base + keptSlots move v.size) := by
  have hend : BalancesFrom sc (if !move then v.retrieve else pure ()) (distance + v.base)
      (distance + v.base + keptSlots move v.size) := by
    cases move with
    | true => exact .pure ()
    | false => exact balancesFrom_retrieve v _
  refine balancesFrom_bind_distanceToTop fun hlt => ?_
  have hdepth : v.size + distance + v.base - v.base - 1 + 1 = v.size + distance := by omega
  simp only [hdepth]
  rw [if_neg (by omega)]
  split
  · rename_i hpos
    rw [Nat.add_sub_cancel_left]
    exact .bind ((balances_overwrite v (by omega)).balancesFrom v.base) fun _ => hend
  · rw [show v.size + distance + v.base = distance + v.base by omega]
    exact hend

/-- Clearing a local variable leaves the stack as high as it was. -/
theorem balancesFrom_setToZero (v : StackVariable) {distance : Nat} (hle : v.size ≤ distance) :
    BalancesFrom sc v.setToZero (distance + v.base) (distance + v.base) := by
  have hzero : BalancesFrom sc (pushZeroValue v.ty) (distance + v.base)
      (v.size + distance + v.base) := by
    rw [show v.size + distance + v.base = distance + v.base + v.ty.sizeOnStack by
      rw [Nat.add_assoc, Nat.add_comm]; rfl]
    exact (Balances.pushZeroValue v.ty _).balancesFrom 0
  exact hzero.bind fun _ => balancesFrom_store v true hle

end StackVariable

/-! ## The contract -/

/-- The types whose values can be in storage: value types that are no external functions under another
name, arrays and structs in storage, the latter with parts that can be there, and mappings. -/
def Ty.FitsStorage (structs : StructTable) : Ty → Prop
  | .array _ _ location => location = .storage
  | .struct d location =>
    location = .storage ∧
      ∀ leaf ∈ structs.leaves d, leaf.ty.WellNamed ∧ ∀ components, leaf.ty ≠ .tuple components
  | .mapping .. => True
  | .tuple _ => False
  | ty => ty.WellNamed

/-- The types whose values storage is assigned from: other value types of as many slots for a value
type, all arrays for an array, and the same struct in any data location. -/
def Ty.AdmitsInStorage : Ty → Ty → Prop
  | .array .., source => source.isArray = true
  | .struct d _, source => ∃ location, source = .struct d location
  | .mapping .., _ | .tuple _, _ => False
  | ty, source => source.isValueType = true ∧ source.sizeOnStack = ty.sizeOnStack

namespace Ty.FitsStorage

variable {structs : StructTable} {ty : Ty}

/-- A type whose values are in storage is no external function under another name. -/
theorem wellNamed (h : ty.FitsStorage structs) : ty.WellNamed := by
  cases ty with
  | array | struct | mapping => exact fun e he => by contradiction
  | tuple components => exact h.elim
  | _ => exact h

/-- References to storage are one word. -/
theorem sizeOnStack_eq (h : ty.FitsStorage structs) :
    (if ty.isValueType then ty.sizeOnStack else 1) = ty.sizeOnStack := by
  cases ty with
  | array element length location =>
    obtain rfl : location = .storage := h
    cases length <;> rfl
  | tuple components => exact h.elim
  | _ => rfl

end Ty.FitsStorage

/-- The value takes as many slots as those of the item, unless both are arrays. -/
theorem Ty.AdmitsInStorage.sizeOnStack_eq {ty source : Ty} (h : ty.AdmitsInStorage source)
    (harray : ty.isArray = false) : source.sizeOnStack = ty.sizeOnStack := by
  cases ty with
  | array => contradiction
  | struct d location =>
    obtain ⟨location', rfl⟩ := h
    rfl
  | mapping | tuple => exact h.elim
  | _ => exact h.2

namespace Place

/-- The place has a type that its location has values of.  Tuples are left out. -/
def Fits (structs : StructTable) : Place → Prop
  | .stack _ | .byteElement => True
  | .memory cell =>
    cell.ty.WellNamed ∧ (cell.ty.isValueType = true ∨ cell.ty.location? = some .memory)
  | .storage item => item.ty.FitsStorage structs
  | .immutable v => v.ty.isValueType = true ∧ v.ty.WellNamed
  | .tuple _ => False

/-- The words that a read of the place leaves.  A tuple is not read. -/
def readSize (kind : CodeKind) : Place → Nat
  | .stack v => v.size
  | .memory cell => cell.ty.readSize
  | .storage item => item.ty.readSize
  | .immutable v => v.readSize kind
  | .byteElement => ByteElement.ty.sizeOnStack
  | .tuple _ => 0

/-- What is read from a place of a type that its location has values of is a value of the type. -/
theorem readSize_eq_sizeOnStack {structs : StructTable} {place : Place} (hfits : place.Fits structs)
    (kind : CodeKind) : place.readSize kind = place.sizeOnStack := by
  cases place with
  | stack | byteElement => rfl
  | memory cell =>
    obtain ⟨hnamed, hvalue | hmemory⟩ := hfits
    · exact hnamed.readSize_eq hvalue
    · have hvalue : cell.ty.isValueType = false := by
        cases hty : cell.ty <;> first | rfl | (rw [hty] at hmemory; contradiction)
      exact (Ty.readSize_of_not_isValueType hvalue).trans
        (Ty.sizeOnStack_of_location?_eq_memory hmemory).symm
  | storage item =>
    have hfits : item.ty.FitsStorage structs := hfits
    have hsize := hfits.sizeOnStack_eq
    cases hvalue : item.ty.isValueType with
    | true => exact hfits.wellNamed.readSize_eq hvalue
    | false =>
      rw [hvalue] at hsize
      exact (Ty.readSize_of_not_isValueType hvalue).trans hsize
  | immutable v =>
    cases kind with
    | creation => exact hfits.2.readSize_eq hfits.1
    | runtime => rfl
  | tuple components => exact hfits.elim

/-- The place can be assigned from values of the type. -/
def Admits : Place → Ty → Prop
  | .stack v, source => source.sizeOnStack = v.size
  | .memory cell, source =>
    if cell.ty.isValueType then source.isValueType = true ∧ source.sizeOnStack = cell.ty.sizeOnStack
    else source = cell.ty
  | .storage item, source => item.ty.AdmitsInStorage source
  | .immutable v, source => source.isValueType = true ∧ source.sizeOnStack = v.ty.sizeOnStack
  | .byteElement, source =>
    source.isValueType = true ∧ source.sizeOnStack = ByteElement.ty.sizeOnStack
  | .tuple _, _ => False

/-- The slots that have to lie below the operands of an access: those up to a local variable. -/
def reserved : Place → Nat
  | .stack v => v.base + v.size
  | _ => 0

end Place

/-- The accesses to a place. -/
inductive Operation where
  | retrieve (remove : Bool)
  | store (source : Ty) (move : Bool)
  | setToZero (remove : Bool)

namespace Operation

/-- The code of the access. -/
def emit (place : Place) : Operation → Emit Unit
  | .retrieve remove => place.retrieve remove
  | .store source move => place.store source move
  | .setToZero remove => place.setToZero remove

/-- The slots that the access takes: the addressing operands, and a value that is to be stored. -/
def inputs (place : Place) : Operation → Nat
  | .retrieve _ | .setToZero _ => place.referenceSize
  | .store source _ => place.referenceSize + source.sizeOnStack

/-- The slots that the access leaves: a value that was read, a value that was not to be moved, and
operands that were not to be removed. -/
def outputs (place : Place) : Operation → Nat
  | .retrieve remove => keptSlots remove place.referenceSize + place.sizeOnStack
  | .store _ move => keptSlots move place.sizeOnStack
  | .setToZero remove => keptSlots remove place.referenceSize

/-- A store has a value that the place can be assigned from. -/
def Legal (place : Place) : Operation → Prop
  | .store source _ => place.Admits source
  | .retrieve _ | .setToZero _ => True

variable {sc : Scope} {operation : Operation}

/-! ### Places with operands of their own -/

/-- Operations on a memory cell. -/
theorem balances_memory {cell : MemoryCell} (hfits : (Place.memory cell).Fits sc.structs)
    (hlegal : operation.Legal (.memory cell)) :
    Balances True sc (operation.emit (.memory cell)) (operation.inputs (.memory cell))
      (operation.outputs (.memory cell)) := by
  have hown : cell.WritesOwnWords := fun _ => hfits.1
  cases operation with
  | retrieve remove =>
    rw [outputs, ← Place.readSize_eq_sizeOnStack hfits sc.kind]
    exact .bind_nil (.logEvent _) (MemoryCell.balances_retrieve remove)
  | store source move =>
    have hsource : source.sizeOnStack = cell.ty.sizeOnStack := by
      rw [Legal, Place.Admits] at hlegal
      split at hlegal
      · exact hlegal.2
      · rw [hlegal]
    refine .bind_nil (.logEvent _) ?_
    rw [inputs, hsource]
    exact MemoryCell.balances_store hown hsource move
  | setToZero remove =>
    exact .bind_nil (.logEvent _) (MemoryCell.balances_setToZero hown remove)

/-- Operations on a storage item. -/
theorem balances_storage {item : StorageItem} (hfits : (Place.storage item).Fits sc.structs)
    (hlegal : operation.Legal (.storage item)) :
    Balances True sc (operation.emit (.storage item)) (operation.inputs (.storage item))
      (operation.outputs (.storage item)) := by
  have hread := Place.readSize_eq_sizeOnStack hfits sc.kind
  have hfits : item.ty.FitsStorage sc.structs := hfits
  have hsize := hfits.sizeOnStack_eq
  cases operation with
  | retrieve remove =>
    rw [outputs, ← hread]
    exact .bind_nil (.logEvent _) (StorageItem.balances_retrieve remove)
  | store source move =>
    have hadmits : item.ty.AdmitsInStorage source := hlegal
    have htuple : True → ∀ d location, item.ty = .struct d location →
        ∀ leaf ∈ sc.structs.leaves d, ∀ components, leaf.ty ≠ .tuple components := by
      intro _ d location hty leaf hleaf
      rw [hty] at hfits
      exact (hfits.2 leaf hleaf).2
    have hstore : Balances True sc (item.store source move) (source.sizeOnStack + 2)
        (keptSlots move (if item.ty.isValueType then item.ty.sizeOnStack else 1)) :=
      StorageItem.balances_store hfits.wellNamed htuple hadmits.sizeOnStack_eq move
    refine .bind_nil (.logEvent _) ?_
    rw [outputs, Place.sizeOnStack, ← hsize, inputs, Nat.add_comm]
    exact hstore
  | setToZero remove =>
    exact .bind_nil (.logEvent _) (StorageItem.balances_setToZero item remove)

/-- Operations on an immutable variable. -/
theorem balances_immutable {v : ImmutableVariable} (hfits : (Place.immutable v).Fits sc.structs)
    (hlegal : operation.Legal (.immutable v)) :
    Balances True sc (operation.emit (.immutable v)) (operation.inputs (.immutable v))
      (operation.outputs (.immutable v)) := by
  have hread := Place.readSize_eq_sizeOnStack hfits sc.kind
  obtain ⟨-, hnamed⟩ := hfits
  cases operation with
  | retrieve remove =>
    refine .bind_nil (.logEvent _) ?_
    rw [outputs, ← hread, Place.referenceSize, keptSlots_zero, Nat.zero_add]
    exact ImmutableVariable.balances_retrieve v
  | store source move =>
    refine .bind_nil (.logEvent _) ?_
    rw [inputs, hlegal.2, Place.referenceSize, Nat.zero_add]
    exact ImmutableVariable.balances_store hnamed move
  | setToZero remove =>
    refine .bind_nil (.logEvent _) ?_
    rw [outputs, Place.referenceSize, keptSlots_zero]
    exact ImmutableVariable.balances_setToZero hnamed

/-- Operations on a byte of a byte sequence. -/
theorem balances_byteElement (hlegal : operation.Legal .byteElement) :
    Balances True sc (operation.emit .byteElement) (operation.inputs .byteElement)
      (operation.outputs .byteElement) := by
  cases operation with
  | retrieve remove => exact .bind_nil (.logEvent _) (ByteElement.balances_retrieve remove)
  | store source move =>
    refine .bind_nil (.logEvent _) ?_
    rw [inputs, hlegal.2]
    exact ByteElement.balances_store move
  | setToZero remove => exact .bind_nil (.logEvent _) (ByteElement.balances_setToZero remove)

/-! ### All places -/

/-- Operations on a local variable, whose slots lie below the operands. -/
theorem balancesFrom_stack {v : StackVariable} {h : Nat} (hlegal : operation.Legal (.stack v))
    (hle : v.base + v.size + operation.inputs (.stack v) ≤ h) :
    BalancesFrom sc (operation.emit (.stack v)) h
      (h - operation.inputs (.stack v) + operation.outputs (.stack v)) := by
  cases operation with
  | retrieve remove =>
    refine .bind_nil (.logEvent _) ?_
    rw [outputs, Place.referenceSize, keptSlots_zero, Nat.zero_add]
    exact StackVariable.balancesFrom_retrieve v h
  | store source move =>
    have hsource : source.sizeOnStack = v.size := hlegal
    rw [inputs, Place.referenceSize, Nat.zero_add, hsource] at hle ⊢
    obtain ⟨distance, hdistance, rfl⟩ : ∃ distance, v.size ≤ distance ∧
        h = v.size + distance + v.base := ⟨h - v.size - v.base, by omega, by omega⟩
    refine .bind_nil (.logEvent _) ?_
    rw [show v.size + distance + v.base - v.size = distance + v.base by omega]
    exact StackVariable.balancesFrom_store v move hdistance
  | setToZero remove =>
    obtain ⟨distance, hdistance, rfl⟩ : ∃ distance, v.size ≤ distance ∧
        h = distance + v.base := ⟨h - v.base, by omega, by omega⟩
    refine .bind_nil (.logEvent _) ?_
    rw [outputs, Place.referenceSize, keptSlots_zero]
    exact StackVariable.balancesFrom_setToZero v hdistance

/-- **The stack contract.**  Take a place of a type that its location has values of, and an access
that is legal for it, on a stack on which the operands are there; for a local variable they lie above
it.  The access is not refused for want of an operand, and if it succeeds, the height has changed by
the slots that the access leaves instead of those that it takes.

**Proof sketch.** The accesses of places with operands of their own emit the same code on every stack,
whose parts take what earlier ones leave (`Balances`).  A local variable is found by its distance from
the top, so that its code is that for one height (`BalancesFrom`). -/
theorem exec_height {place : Place} {out : Output} (hfits : place.Fits sc.structs)
    (hlegal : operation.Legal place) (hle : place.reserved + operation.inputs place ≤ out.code.height) :
    (∀ op needed available out',
      (operation.emit place).exec sc out ≠ (.error (.fault (.stackUnderflow op needed available)), out')) ∧
    ∀ out', (operation.emit place).exec sc out = (.ok (), out') →
      out'.code.height + operation.inputs place = out.code.height + operation.outputs place := by
  have hbalances : BalancesFrom sc (operation.emit place) out.code.height
      (out.code.height - operation.inputs place + operation.outputs place) := by
    have hadd : ∀ {c : Emit Unit} {h h' : Nat}, h ≤ out.code.height → Balances True sc c h h' →
        BalancesFrom sc c out.code.height (out.code.height - h + h') := by
      intro c h h' hin hc
      have hfrom := hc.balancesFrom (out.code.height - h)
      rwa [Nat.add_sub_cancel' hin, Nat.add_comm] at hfrom
    cases place with
    | stack v => exact balancesFrom_stack hlegal hle
    | memory cell => exact hadd (by omega) (balances_memory hfits hlegal)
    | storage item => exact hadd (by omega) (balances_storage hfits hlegal)
    | immutable v => exact hadd (by omega) (balances_immutable hfits hlegal)
    | byteElement => exact hadd (by omega) (balances_byteElement hlegal)
    | tuple components => exact hfits.elim
  obtain ⟨herror, hok⟩ := hbalances out rfl
  refine ⟨fun op needed available out' hexec => ?_, fun out' hexec => ?_⟩
  · exact Bool.false_ne_true (herror _ _ hexec).symm
  · have := hok () out' hexec
    omega

/-- A value of two words is written to storage, and a copy of it is left. -/
theorem exec_height_external :
    ∃ out', ((Operation.store (.function .external) false).emit
        (.storage ⟨.function .external, .persistent⟩)).exec {} { code := .ofHeight 5 } =
          (.ok (), out') ∧
      out'.code.height + 4 = 5 + 2 := by
  obtain ⟨out', hout'⟩ : ∃ out', ((Operation.store (.function .external) false).emit
      (.storage ⟨.function .external, .persistent⟩)).exec {} { code := .ofHeight 5 } =
        (.ok (), out') := Emit.exists_exec_eq_ok (by decide +kernel)
  have hfits : Place.Fits {} (.storage ⟨.function .external, .persistent⟩) := fun e he _ => rfl
  have hlegal : (Operation.store (.function .external) false).Legal
      (.storage ⟨.function .external, .persistent⟩) := ⟨rfl, rfl⟩
  exact ⟨out', hout', (exec_height hfits hlegal (by decide)).2 out' hout'⟩

end Operation

end WordPlaces
