/-!
# Faults

A fault is a broken internal promise: a request that no well-formed program makes, or a count
that leaves the range a machine counter holds.  It ends the work at hand and is never a
diagnostic for the author of the compiled program.

## Main definitions

* `Fault` — one constructor per cause.
* `Fault.message` — the wording of the causes that have one.
* `checkedCount`, `checkedSigned` — admit the numbers that a 64-bit counter holds.
* `signedCount` — how a signed counter reads a count.
-/

set_option autoImplicit false

namespace WordPlaces

/-- The causes for which generating, laying out or lowering code is given up. -/
inductive Fault where
  /-- An instruction takes more slots than the section has. -/
  | stackUnderflow (op : String) (needed available : Nat)
  /-- A stack instruction was asked for depth zero. -/
  | depthZero
  /-- A local was bound to more slots than there are. -/
  | bindingBelowBase
  /-- A slot was looked for at or above the top of the stack. -/
  | slotAboveTop
  /-- A constant shift by a whole word or more. -/
  | shiftTooWide
  /-- Only value types have a packed encoding. -/
  | referenceEncoding
  /-- Only structs have members. -/
  | membersOfNonStruct
  /-- A struct names a declaration that does not exist. -/
  | undeclaredStruct
  /-- A member that takes no storage slot cannot be placed. -/
  | emptyMember
  /-- A packed field must lie within one word and have at least one byte. -/
  | straddlingField
  /-- Storage references have no zero value. -/
  | zeroOfStorageType (type : String)
  /-- Value types and reference types do not convert into each other. -/
  | invalidConversion (source target : String)
  /-- A local that was never bound. -/
  | unboundLocal (name : String)
  /-- A local reaches above the top of the stack. -/
  | localAboveTop
  /-- The value to be written does not lie above the local it is written to. -/
  | valueBelowLocal
  /-- A state variable that was never bound. -/
  | unboundStateVariable (name : String)
  /-- A local was used as a state variable. -/
  | notStateVariable (name : String)
  /-- Structs are assigned from the same struct only. -/
  | structConversion (source target : String)
  /-- Storage arrays are assigned from arrays only. -/
  | arrayExpected
  /-- A mapping or tuple cannot be assigned in storage. -/
  | unassignable (type : String)
  /-- A mapping cannot be cleared. -/
  | clearedMapping (type : String)
  /-- A tuple cannot be cleared in storage. -/
  | clearedTuple (type : String)
  /-- A memory cell holds references of one slot only. -/
  | wideReference
  /-- A value type location is assigned from value types only. -/
  | valueTypeExpected
  /-- Unpadded memory cells are one byte wide. -/
  | unpaddedWidth
  /-- The variable was not declared immutable. -/
  | notImmutable (name : String)
  /-- Deployed code cannot write immutables. -/
  | immutableWrittenAtRuntime
  /-- An immutable without a memory cell. -/
  | unboundImmutable (name : String)
  /-- Clearing a byte of a byte array always takes its operands. -/
  | byteElementKept
  /-- Tuple destinations have no value. -/
  | retrievedTuple
  /-- Tuple destinations cannot be cleared. -/
  | clearedDestination
  /-- Tuple destinations are assigned from tuples only. -/
  | tupleExpected (source : String)
  /-- A tuple is assigned from a tuple of the same length. -/
  | tupleArity
  /-- There is no such instruction among the sixteen duplications. -/
  | dupOutOfRange (n : Nat)
  /-- There is no such instruction among the sixteen exchanges. -/
  | swapOutOfRange (n : Nat)
  /-- A count left the range of a 64-bit counter. -/
  | countOverflow
  /-- A value of no bytes has no sign, and no whole number of them fills a word. -/
  | zeroWidth
  /-- A value of more bytes than a word has. -/
  | widthBeyondWord
  deriving Repr, DecidableEq

namespace Fault

/-- The wording of a fault.  Faults of arithmetic carry none. -/
def message : Fault → Option String
  | stackUnderflow op needed available =>
    some s!"Stack underflow: `{op}` needs {needed} slots, {available} available."
  | depthZero => some "Stack instructions address at least one slot."
  | bindingBelowBase => some "Variable is not on the stack."
  | slotAboveTop => some "Slot is above the stack top."
  | shiftTooWide => some "Invalid shift."
  | referenceEncoding => some "Storage encoding requested for a reference type."
  | membersOfNonStruct =>
    some "Internal compiler error: member layout requested for a non-struct type."
  | undeclaredStruct => none
  | emptyMember => some "Invalid storage size."
  | straddlingField => some "Packed field straddles a word boundary."
  | zeroOfStorageType type =>
    some s!"Internal compiler error: requested a zero value of storage type `{type}`."
  | invalidConversion source target =>
    some s!"Internal compiler error: invalid conversion from `{source}` to `{target}`."
  | unboundLocal name =>
    some s!"Internal compiler error: variable `{name}` is not on the stack."
  | localAboveTop => some "Size and stack pos mismatch."
  | valueBelowLocal => none
  | unboundStateVariable name =>
    some s!"Internal compiler error: `{name}` has no storage location."
  | notStateVariable name =>
    some s!"Internal compiler error: `{name}` is not a state variable."
  | structConversion source target =>
    some <| s!"Internal compiler error: struct assignment from `{source}` to `{target}` "
      ++ "with conversion."
  | arrayExpected => some "Wrong type conversion for assignment."
  | unassignable type =>
    some s!"Internal compiler error: invalid non-value type `{type}` for assignment."
  | clearedMapping type => some s!"Internal compiler error: cannot delete mapping `{type}`."
  | clearedTuple type => some s!"Clearing of unsupported type `{type}` requested."
  | wideReference => none
  | valueTypeExpected => some "Value type expected."
  | unpaddedWidth => some "Invalid non-padded type."
  | notImmutable name => some s!"`{name}` is not immutable."
  | immutableWrittenAtRuntime => some "Immutables can only be written by creation code."
  | unboundImmutable name =>
    some s!"Internal compiler error: immutable `{name}` has no memory cell."
  | byteElementKept => some "Byte array elements are always cleared by reference."
  | retrievedTuple =>
    some "Internal compiler error: tried to retrieve the value of a tuple destination."
  | clearedDestination =>
    some "Internal compiler error: tried to delete a tuple destination."
  | tupleExpected source => some s!"Internal compiler error: tuple assigned from `{source}`."
  | tupleArity => some "Internal compiler error: tuple arity mismatch."
  | dupOutOfRange n => some s!"Internal compiler error: dup{n} is out of range."
  | swapOutOfRange n => some s!"Internal compiler error: swap{n} is out of range."
  | countOverflow => none
  | zeroWidth => none
  | widthBeyondWord => none

end Fault

/-- The least number that no 64-bit counter holds. -/
def countLimit : Nat := 0x10000000000000000

/-- The least number that no signed 64-bit counter holds. -/
def signedLimit : Nat := 0x8000000000000000

/-- `n`, unless it is too large to be counted. -/
def checkedCount (n : Nat) : Except Fault Nat :=
  if n < countLimit then .ok n else .error .countOverflow

/-- How a signed 64-bit counter reads a count: from half the range on, as a number below zero. -/
def signedCount (n : Nat) : Int := Int.bmod n countLimit

/-- `n`, unless no signed 64-bit counter holds it. -/
def checkedSigned (n : Int) : Except Fault Int :=
  if -signedLimit ≤ n ∧ n < signedLimit then .ok n else .error .countOverflow

end WordPlaces
