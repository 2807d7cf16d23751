import WordPlaces.Emit.Routine

/-!
# Values on the stack, in memory and packed

## Main definitions

* `leftShift`, `rightShift` — shifts by a constant.
* `pushZeroValue` — the zero value of a type.
* `loadFromMemory`, `storeInMemory` — a value read from memory, and written behind a pointer.
* `unpackValue`, `packValue` — from the shifted word of a packed field to the stack form of its
  value, and from a stack value to the bytes of a packed field.
-/

set_option autoImplicit false

namespace WordPlaces

open Fragment

/-! ## Shifts -/

/-- `value → value << bits` -/
def leftShift (bits : Nat) : Emit Unit :=
  if bits < 256 then emitAll (shiftLeft bits) else fault .shiftTooWide

/-- `value → value >> bits` -/
def rightShift (bits : Nat) : Emit Unit :=
  if bits < 256 then emitAll (shiftRight bits) else fault .shiftTooWide

/-- The bits of a word beside a value of the given width. -/
def unusedBits (width : Nat) : Except Fault Nat :=
  if width ≤ 32 then .ok (8 * (32 - width)) else .error .widthBeyondWord

/-! ## Zero values -/

/-- `→ value..`, the zero value of a type: zero words, the tag of an unassigned function, or a
fresh zero value in memory. -/
def pushZeroValue : Ty → Emit Unit
  | .function .internal => emit (.pushSymbol .uninitializedFunction)
  | .tuple components => pushZeroValues components
  | .mapping key value => do
    fault (.zeroOfStorageType (← displayTy (.mapping key value)))
  | .array element length .storage => do
    fault (.zeroOfStorageType (← displayTy (.array element length .storage)))
  | .struct d .storage => do
    fault (.zeroOfStorageType (← displayTy (.struct d .storage)))
  | .array element length .memory => pushZeroReference (.array element length .memory)
  | .struct d .memory => pushZeroReference (.struct d .memory)
  | ty => repeatEmit ty.sizeOnStack (emit (.push 0))
where
  /-- The zero values of a list of types, in order. -/
  pushZeroValues : List Ty → Emit Unit
  | [] => pure ()
  | ty :: tys => do
    pushZeroValue ty
    pushZeroValues tys

/-! ## Memory -/

/-- `address → value..`, reading a value type from memory. -/
def loadFromMemory (ty : Ty) (padded : Bool) : Emit Unit := do
  let bytes := ty.memoryBytes padded
  let e ← orFault ty.encoding?
  emit .mload
  if e.form = .externalFunction then emitAll (splitExternal true)
  else if bytes = 32 then pure ()
  else do
    let unused ← orFault (unusedBits bytes)
    rightShift unused
    match e.alignment, e.signedness with
    | .left, _ => leftShift unused
    | .right, .signed => signExtendFrom bytes
    | .right, _ => pure ()

/-- `address value.. → address`, writing a value to memory and leaving the address behind it.
Reference types in memory write their pointer. -/
def storeInMemory (ty : Ty) (padded : Bool) : Emit Unit := do
  if ty.isValueType then
    let bytes := ty.memoryBytes padded
    let e ← orFault ty.encoding?
    if e.form = .externalFunction then emitAll (combineExternal true)
    else
      convertType ty ty true false
      if bytes ≠ 32 ∧ padded = false ∧ e.alignment = .right then
        leftShift (← orFault (unusedBits bytes))
    emitAll [.dup 2, .mstore, .pushNat bytes, .add]
  else if ty.location? = some .memory then emitAll [.dup 2, .mstore, .push 32, .add]
  else reject (.unimplemented "Only in-memory reference type can be stored.")

/-! ## Packed fields -/

/-- Rejects values that have no packed form. -/
def rejectFixedPoint : Emit Unit :=
  reject (.unimplemented
    "Packed storage encoding of fixed point types is not implemented yet.")

/-- `word → value..`, from a word whose low bytes are a packed field to the stack form of its
value, whatever the higher bytes are. -/
def unpackValue (e : Encoding) : Emit Unit :=
  match e.form, e.alignment, e.signedness with
  | .fixedPoint, _, _ => rejectFixedPoint
  | .externalFunction, _, _ => emitAll (splitExternal false)
  | .internalFunction, _, _ => do
    emitAll assignedTag
    emitAll (keepLowBytes e.bytes)
  | .plain, .left, _ => do leftShift (← orFault (unusedBits e.bytes))
  | .plain, .right, .signed => signExtendFrom e.bytes
  | .plain, .right, _ => emitAll (keepLowBytes e.bytes)

/-- `value.. → bytes`, from the stack form of a `source` value to the low bytes that a packed
`target` field holds. -/
def packValue (source target : Ty) : Emit Unit := do
  let e ← orFault target.encoding?
  match e.form, e.alignment with
  | .fixedPoint, _ => rejectFixedPoint
  | .externalFunction, _ => emitAll (combineExternal false)
  | .internalFunction, _ => emitAll (keepLowBytes e.bytes)
  | .plain, .left => rightShift (← orFault (unusedBits e.bytes))
  | .plain, .right => convertType source target true true

end WordPlaces
