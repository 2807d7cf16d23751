import WordPlaces.Place.MemoryCell

/-!
# Storage items

A storage item is addressed by two words, its slot and its first byte in that slot.  Value
types that are narrower than a word share the slot with others: the byte offset becomes a
multiplier, and the item is read by dividing by it and written by clearing its bytes and adding
the new ones.  Arrays and structs are addressed by their first slot and are copied or cleared
as a whole, structs member by member.

## Main definitions

* `StorageItem`, `StorageItem.ofVariable` — an item, and the one of a state variable.
* `StorageItem.retrieve`, `StorageItem.store`, `StorageItem.setToZero` — its accesses.
* `StorageItem.storeStruct`, `StorageItem.clearStruct` — the recursion over nested structs.
-/

set_option autoImplicit false

namespace WordPlaces

open Fragment StructTable

/-- A value in storage. -/
structure StorageItem where
  ty : Ty
  kind : StorageKind
  deriving Repr, DecidableEq, Inhabited

namespace StorageItem

/-- `→ slot byte_offset`, the item of a state variable. -/
def ofVariable (v : Variable) : Emit StorageItem := do
  match (← read).stateVariables.lookup v.id with
  | none => fault (.unboundStateVariable v.name)
  | some (slot, byte) =>
    match v.location with
    | .stack => fault (.notStateVariable v.name)
    | .storage => address slot byte .persistent
    | .transient => address slot byte .transient
where
  /-- Logs the item and pushes its operands. -/
  address (slot : Word) (byte : Nat) (kind : StorageKind) : Emit StorageItem := do
    logEvent (.storageItem v.name slot byte kind)
    emitAll [.push slot, .pushNat byte]
    return ⟨v.ty, kind⟩

/-- Only value types live in transient storage. -/
def rejectTransientReference (item : StorageItem) : Emit Unit :=
  match item.kind with
  | .persistent => pure ()
  | .transient =>
    reject (.unimplementedWithHelp
      "Transient storage reference types are not supported yet."
      "keep arrays and structs in persistent storage")

/-! ## Reading -/

/-- `slot byte_offset → value..`, or `slot byte_offset → slot byte_offset value..` to keep the
operands.  Of a reference type the slot is the value. -/
def retrieve (item : StorageItem) (remove : Bool) : Emit Unit := do
  if !item.ty.isValueType then
    item.rejectTransientReference
    emit (if remove then .pop else .dup 2)
  else
    if !remove then copyToTop 2 2
    let e ← orFault item.ty.encoding?
    if e.isFullWord then emitAll [.pop, .sload item.kind]
    else
      emitAll ([.swap 1, .sload item.kind, .swap 1] ++ offsetToMultiplier ++ [.swap 1, .div])
      unpackValue e

/-! ## Writing -/

/-- `value.. slot byte_offset →`, or `→ value..` if it is not to be moved. -/
def storeValue (item : StorageItem) (source : Ty) (move : Bool) : Emit Unit := do
  let e ← orFault item.ty.encoding?
  if e.isFullWord then
    emit .pop
    if !move then emitAll [.dup 2, .swap 1]
    emit (.swap 1)
    convertType source item.ty true false
    emitAll [.swap 1, .sstore item.kind]
  else
    let size := item.ty.sizeOnStack
    emitAll (offsetToMultiplier ++ [.dup 2, .sload item.kind, .dup 2] ++ clearBytes e.bytes
      ++ [.swap 1])
    -- value.. slot cleared_word multiplier
    copyToTop (3 + size) size
    packValue source item.ty
    emitAll [.mul, .or, .swap 1, .sstore item.kind]
    if move then popElement item.ty

/-- `source_ref.. slot byte_offset →`, or `→ slot` if it is not to be moved, for arrays. -/
def storeArray (item : StorageItem) (source : Ty) (move : Bool) : Emit Unit :=
  if source.isArray then do
    emit .pop
    copyArrayToStorage item.ty source
    if move then emit .pop
  else fault .arrayExpected

/-- The write of every type but structs. -/
def storeFlat (item : StorageItem) (source : Ty) (move : Bool) : Emit Unit := do
  if item.ty.isValueType then item.storeValue source move
  else if item.ty.isArray then item.storeArray source move
  else fault (.unassignable (← displayTy item.ty))

/-- `ref.. → ref.. slot byte_offset`, the operands of a member, from the first slot of its struct
in the second slot of the stack. -/
def memberOperands (f : Field) : Code :=
  [.push f.slotWord, .dup 3, .add, .pushNat f.storage.byte]

/-- `source_ref target_ref → source_ref target_ref value..`, reading a member of a struct in
storage or memory. -/
def retrieveMember (source : DataLocation) (f : Field) (memoryOffset : Nat) : Emit Unit := do
  let ty := f.ty.located source
  match source with
  | .storage =>
    emitAll (memberOperands f)
    (⟨ty, .persistent⟩ : StorageItem).retrieve true
  | _ =>
    emitAll [.pushNat memoryOffset, .dup 3, .add]
    (⟨ty, true⟩ : MemoryCell).retrieve true

/-- `source_ref slot byte_offset →`, or `→ slot` if it is not to be moved, for struct `d` seen
through `location`.  The struct is copied member by member; mappings are left alone. -/
def storeStruct (d : StructId) (location : DataLocation) (source : Ty) (move : Bool) :
    Emit Unit := do
  emit .pop
  let structs := (← read).structs
  match sourceLocation? source with
  | none =>
    fault (.structConversion (← displayTy source) (← displayTy (.struct d location)))
  | some .calldata =>
    emitAll [.dup 2, .dup 2]
    copyCalldataStruct (.struct d location) source
  | some sourceLocation =>
    (structs.fields d).attach.forM fun ⟨f, _⟩ => do
      match f.memoryOffset with
      | none => pure ()
      | some memoryOffset =>
        retrieveMember sourceLocation f memoryOffset
        dupSlot (1 + (f.ty.located sourceLocation).sizeOnStack)
        emitAll [.push f.slotWord, .add, .pushNat f.storage.byte]
        -- source_ref target_ref value.. member_slot member_byte_offset
        match _ : f.ty with
        | .struct d' _ => storeStruct d' location (.struct d' sourceLocation) true
        | ty => storeFlat ⟨ty.located location, .persistent⟩ (ty.located sourceLocation) true
  if move then popSlots 2 else emitAll [.swap 1, .pop]
termination_by d
decreasing_by exact lt_of_mem_fields ‹_› ‹_›
where
  /-- The data location of a source that is the same struct. -/
  sourceLocation? : Ty → Option DataLocation
    | .struct d' location => if d' = d then some location else none
    | _ => none

/-- `value.. slot byte_offset →`; if it is not to be moved, `→ value..` for value types and
`→ slot` for the others. -/
def store (item : StorageItem) (source : Ty) (move : Bool) : Emit Unit := do
  if !item.ty.isValueType then item.rejectTransientReference
  match item.ty with
  | .struct d location => storeStruct d location source move
  | _ => item.storeFlat source move

/-! ## Clearing -/

/-- Clears a value type.  `slot byte_offset →` -/
def clearValue (item : StorageItem) : Emit Unit := do
  let e ← orFault item.ty.encoding?
  if e.isFullWord then emitAll [.pop, .push 0, .swap 1, .sstore item.kind]
  else
    emitAll (offsetToMultiplier ++ [.dup 2, .sload item.kind, .swap 1] ++ clearBytes e.bytes
      ++ [.swap 1, .sstore item.kind])

/-- Clears every type but structs.  `slot byte_offset →`, or `→ slot byte_offset` to keep the
operands. -/
def clearFlat (item : StorageItem) (remove : Bool) : Emit Unit := do
  if item.ty.isMapping then fault (.clearedMapping (← displayTy item.ty))
  else if !item.ty.isValueType && !item.ty.isArray then
    fault (.clearedTuple (← displayTy item.ty))
  else
    if item.ty.isArray then item.rejectTransientReference
    if !remove then copyToTop 2 2
    if item.ty.isArray then clearArray item.ty else item.clearValue

/-- Clears struct `d`, seen through `location`, member by member; mappings are left alone.
`slot byte_offset →`, or `→ slot byte_offset` to keep the operands. -/
def clearStruct (d : StructId) (location : DataLocation) (remove : Bool) : Emit Unit := do
  let structs := (← read).structs
  (structs.fields d).attach.forM fun ⟨f, _⟩ => do
    if f.ty.isMapping then pure ()
    else
      emitAll (memberOperands f)
      match _ : f.ty with
      | .struct d' _ => clearStruct d' location true
      | ty => clearFlat ⟨ty.located location, .persistent⟩ true
  if remove then popSlots 2
termination_by d
decreasing_by exact lt_of_mem_fields ‹_› ‹_›

/-- `slot byte_offset →`, or `→ slot byte_offset` to keep the operands. -/
def setToZero (item : StorageItem) (remove : Bool) : Emit Unit :=
  match item.ty with
  | .struct d location => do
    item.rejectTransientReference
    clearStruct d location remove
  | _ => item.clearFlat remove

end StorageItem

end WordPlaces
