import WordPlaces.CodeSection
import WordPlaces.Diagnostic
import WordPlaces.Ty.Display

/-!
# Events

What the library tells about its work while it works.  An event keeps what it is about; it
becomes text when the log is written, so that work without a log names no types.

## Main definitions

* `Event` — an entry of the log.
* `Event.level`, `Event.message`, `Event.fields` — how much detail an event is about, its
  wording, and its named values as text.
-/

set_option autoImplicit false

namespace WordPlaces

/-- How much detail an event is about. -/
inductive EventLevel where
  | trace
  | debug
  | info
  deriving Repr, DecidableEq, Inhabited

/-- The name of a level. -/
def EventLevel.name : EventLevel → String
  | trace => "TRACE"
  | debug => "DEBUG"
  | info => "INFO"

/-- The kinds of places that the log tells apart. -/
inductive PlaceKind where
  | stack
  | memory
  | storage (kind : StorageKind)
  | immutable
  | byteElement
  | tuple
  deriving Repr, DecidableEq, Inhabited

/-- The name of a kind of place. -/
def PlaceKind.name : PlaceKind → String
  | stack => "stack"
  | memory => "memory"
  | storage .persistent => "storage"
  | storage .transient => "transient"
  | immutable => "immutable"
  | byteElement => "byte array element"
  | tuple => "tuple"

/-- An entry of the log. -/
inductive Event where
  /-- An instruction is about to be appended to a section of the given height. -/
  | instruction (op : Instruction) (height : Nat)
  /-- A shared routine is about to be called. -/
  | routineCall (name : String) (inputs outputs : Nat)
  /-- A place was made of a local variable. -/
  | stackVariable (name : String) (base : Nat)
  /-- A place was made of a state variable. -/
  | storageItem (name : String) (slot : Word) (byte : Nat) (kind : StorageKind)
  | retrieve (place : PlaceKind) (remove : Bool)
  | store (place : PlaceKind) (source : Ty) (move : Bool)
  | setToZero (place : PlaceKind) (remove : Bool)
  /-- A unit was rejected. -/
  | unitDropped (d : Diagnostic)
  /-- A unit was kept after `number` others. -/
  | unitKept (number : Nat) (kind : CodeKind) (code : CodeSection)
  /-- All code of a kind was lowered. -/
  | finished (kind : CodeKind) (ops : Nat)
  deriving DecidableEq

namespace Event

/-- How much detail an event is about. -/
def level : Event → EventLevel
  | instruction .. => .trace
  | routineCall .. | stackVariable .. | storageItem .. | retrieve .. | store .. | setToZero ..
  | unitDropped _ => .debug
  | unitKept .. | finished .. => .info

/-- The wording of an event. -/
def message : Event → String
  | instruction op _ => op.text
  | routineCall .. => "utility routine call"
  | stackVariable .. => "stack variable"
  | storageItem .. => "storage item"
  | retrieve .. => "retrieve value"
  | store .. => "store value"
  | setToZero .. => "set to zero"
  | unitDropped _ => "dropping unit"
  | unitKept number kind code => s!"unit {number} ({kind.name}):\n{code.text}"
  | finished kind ops => s!"{kind.name} code: {ops}"

/-- The named values of an event, as text. -/
def fields (structs : StructTable) : Event → List (String × String)
  | instruction _ height => [("height", toString height)]
  | routineCall name inputs outputs =>
    [("name", name), ("inputs", toString inputs), ("outputs", toString outputs)]
  | stackVariable name base => [("variable", name), ("base_stack_offset", toString base)]
  | storageItem name slot byte kind =>
    [("variable", name), ("slot", toString slot.toNat), ("byte_offset", toString byte),
      ("kind", kind.name)]
  | retrieve place remove => [("location", place.name), ("remove", toString remove)]
  | store place source move =>
    [("location", place.name), ("source", source.display structs),
      ("move_value", toString move)]
  | setToZero place remove => [("location", place.name), ("remove_reference", toString remove)]
  | unitDropped d => [("error", d.message)]
  | unitKept .. | finished .. => []

end Event

end WordPlaces
