import WordPlaces.Emit.Basic
import WordPlaces.Emit.Fragment

/-!
# Conversions and shared routines

Value types are cleaned and converted in place.  Whole arrays, structs in call data, and
conversions between reference types are left to shared routines, whose names are made of what
they do and the types they do it to.

## Main definitions

* `cleanupValue` — brings a value into its canonical form.
* `routineName`, `callRoutine` — the name of a shared routine, and a call of one.
* `convertType` — converts the value on top of the stack.
* `copyArrayToStorage`, `clearArray`, `copyCalldataStruct` — work on whole arrays and structs.
* `pushZeroReference` — a zero value in memory.
-/

set_option autoImplicit false

namespace WordPlaces

open Fragment

/-! ## Value types -/

/-- `value → value`, sign extended from its low bytes, of which there must be some. -/
def signExtendFrom (width : Nat) : Emit Unit :=
  if width = 0 then fault .zeroWidth else emitAll (signExtendBytes width)

/-- `value → value` in the canonical form of its type: a truth value is `0` or `1`, unused high
bytes are clear or repeat the sign, and byte sequences are clear below their width.  External
functions and full words are left as they are. -/
def cleanupValue (ty : Ty) : Emit Unit := do
  let e ← orFault ty.encoding?
  if e.form = .externalFunction ∨ e.isFullWord then pure ()
  else if ty = .bool then emitAll [.isZero, .isZero]
  else match e.alignment, e.signedness with
    | .left, _ => emitAll (keepHighBytes e.bytes)
    | .right, .signed => signExtendFrom e.bytes
    | .right, _ => emitAll (keepLowBytes e.bytes)

/-! ## Shared routines -/

/-- The name of a routine for the given types, in letters, digits and underscores. -/
def routineName (structs : StructTable) (task : String) (types : List Ty) : String :=
  types.foldl
    (fun name ty =>
      name ++ "_" ++ (ty.display structs).map fun c => if c.isAlphanum then c else '_')
    task

/-- Calls the routine for a task on the given types. -/
def callRoutine (task : String) (types : List Ty) (inputs outputs : Nat) : Emit Unit := do
  let name := routineName (← read).structs task types
  logEvent (.routineCall name inputs outputs)
  emit (.call name inputs outputs)

/-- `source_ref.. target_ref → target_ref`, copying an array into a storage array. -/
def copyArrayToStorage (target source : Ty) : Emit Unit :=
  callRoutine "copy_array_to_storage" [source, target] (source.sizeOnStack + 1) 1

/-- `slot byte_offset →`, clearing a storage array. -/
def clearArray (ty : Ty) : Emit Unit := callRoutine "clear_storage_array" [ty] 2 0

/-- `source_ref target_ref →`, copying a struct in call data into a storage struct. -/
def copyCalldataStruct (target source : Ty) : Emit Unit :=
  callRoutine "update_storage_value" [source, target] 2 0

/-- `→ pointer` to a zero value of a reference type in memory.  All empty dynamic arrays are
the word at one address that is never written. -/
def pushZeroReference (ty : Ty) : Emit Unit :=
  match ty with
  | .array _ none .memory => emit (.push 0x60)
  | _ => callRoutine "allocate_and_zero" [ty] 0 1

/-- `value → converted`.  `cleanup` asks for the canonical form of the target, and
`chopSignBits` for a signed value cut to its width. -/
def convertType (source target : Ty) (cleanup chopSignBits : Bool) : Emit Unit := do
  if source.isValueType && target.isValueType then
    if cleanup then cleanupValue target
    let e ← orFault target.encoding?
    if chopSignBits && e.isSigned && !e.isFullWord then emitAll (keepLowBytes e.bytes)
  else if source.isValueType || target.isValueType then
    fault (.invalidConversion (← displayTy source) (← displayTy target))
  else if source = target then pure ()
  else callRoutine "convert" [source, target] source.sizeOnStack target.sizeOnStack

end WordPlaces
