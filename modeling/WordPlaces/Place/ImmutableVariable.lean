import WordPlaces.Emit.Stack
import WordPlaces.Emit.Value

/-!
# Immutable variables

Creation code reads and writes an immutable in the memory cell it is bound to.  Deployed code
reads placeholders, one for each stack slot of the value, in whose place the linker puts the
final value.  An immutable takes no addressing operands.

## Main definitions

* `Variable.placeholders` — the names of the placeholders of a variable.
* `ImmutableVariable`, `ImmutableVariable.of` — a variable that was declared immutable.
* `ImmutableVariable.retrieve`, `ImmutableVariable.store`, `ImmutableVariable.setToZero` — its
  accesses.
-/

set_option autoImplicit false

namespace WordPlaces

/-- The names of the placeholders of a variable, one for each stack slot of its value: the
number of the variable, with the number of the slot if there is not just one. -/
def Variable.placeholders (v : Variable) : List String :=
  if v.ty.sizeOnStack = 1 then [toString v.id]
  else (List.range v.ty.sizeOnStack).map fun i => s!"{v.id}_{i}"

/-- An immutable variable. -/
structure ImmutableVariable extends Variable where
  deriving Repr, DecidableEq, Inhabited

namespace ImmutableVariable

/-- The variable, if it was declared immutable. -/
def of (v : Variable) : Emit ImmutableVariable :=
  if v.isImmutable then return ⟨v⟩ else fault (.notImmutable v.name)

/-- Only value types can be immutable. -/
def rejectReference (v : ImmutableVariable) : Emit Unit :=
  if v.ty.isValueType then pure ()
  else reject (.unimplemented "Immutable variables of reference type are not supported yet.")

/-- `→ address` of the memory cell, in creation code. -/
def pushAddress (v : ImmutableVariable) : Emit Unit := do
  match (← read).kind with
  | .runtime => fault .immutableWrittenAtRuntime
  | .creation =>
    match (← read).immutables.lookup v.id with
    | none => fault (.unboundImmutable v.name)
    | some address => emit (.pushNat address)

/-- `→ value..` -/
def retrieve (v : ImmutableVariable) : Emit Unit := do
  v.rejectReference
  match (← read).kind with
  | .creation =>
    v.pushAddress
    loadFromMemory v.ty true
  | .runtime =>
    emitAll (v.placeholders.map fun name => .pushSymbol (.immutable name))

/-- `value.. →`, or `value.. → value..` if it is not to be moved: then the converted value is
left. -/
def store (v : ImmutableVariable) (source : Ty) (move : Bool) : Emit Unit := do
  v.rejectReference
  if !source.isValueType then fault .valueTypeExpected
  else
    let size := v.ty.sizeOnStack
    convertType source v.ty true false
    v.pushAddress
    if move then moveInto size 1 else copyToTop (size + 1) size
    storeInMemory v.ty true
    emit .pop

/-- Writes the zero value. -/
def setToZero (v : ImmutableVariable) : Emit Unit := do
  v.rejectReference
  v.pushAddress
  pushZeroValue v.ty
  storeInMemory v.ty true
  emit .pop

end ImmutableVariable

end WordPlaces
