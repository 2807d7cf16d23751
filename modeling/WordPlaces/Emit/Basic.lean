import WordPlaces.Event

/-!
# Emitting code

Code for a place is emitted into a section by computations that can look at the bindings of the
unit, and that keep what they have emitted when they fail.  No computation changes a binding.

## Main definitions

* `Variable`, `Bindings` — declared variables, and what they are bound to.
* `Scope` — what a computation can look at.
* `Output` — what it adds to: the section and the log.
* `Emit` — the computations.
* `emit`, `emitAll` — emit an instruction, or several in order.
-/

set_option autoImplicit false

namespace WordPlaces

/-! ## Variables -/

/-- The number of a variable, unique in a program. -/
abbrev VariableId := Nat

/-- Where the value of a variable lives. -/
inductive VariableLocation where
  /-- A local variable on the operand stack. -/
  | stack
  /-- A state variable in persistent storage. -/
  | storage
  /-- A state variable in transient storage. -/
  | transient
  deriving Repr, DecidableEq, Inhabited

/-- A declared variable. -/
structure Variable where
  id : VariableId
  name : String
  ty : Ty
  /-- Assigned by creation code once, and only read afterwards. -/
  isImmutable : Bool
  location : VariableLocation
  deriving Repr, DecidableEq, Inhabited

/-- What variables are bound to, the latest binding first. -/
abbrev Bindings (α : Type) := List (VariableId × α)

/-! ## Scope and output -/

/-- What code generation can look at. -/
structure Scope where
  structs : StructTable := {}
  kind : CodeKind := .runtime
  /-- The stack height below the lowest slot of each local variable. -/
  locals : Bindings Nat := []
  /-- The slot and byte of each state variable. -/
  stateVariables : Bindings (Word × Nat) := []
  /-- The memory address of each immutable, which creation code uses. -/
  immutables : Bindings Nat := []
  /-- The source of the access, to which diagnostics point. -/
  site : Span := .dummy
  deriving Inhabited

/-- What code generation adds to. -/
structure Output where
  code : CodeSection := {}
  events : Array Event := #[]
  deriving Inhabited

/-! ## Computations -/

/-- Computations that emit code.  When one fails, the code emitted before stays. -/
abbrev Emit := ReaderT Scope (ExceptT Failure (StateM Output))

/-- Gives up. -/
def fault {α : Type} (f : Fault) : Emit α := throw (.fault f)

/-- Rejects the unit, at the source of the access. -/
def reject {α : Type} (d : Span → Diagnostic) : Emit α := do
  throw (.diagnostic (d (← read).site))

/-- The value of a computation that emits nothing. -/
def orFault {α : Type} : Except Fault α → Emit α
  | .ok a => pure a
  | .error f => fault f

/-- Adds an event to the log. -/
def logEvent (e : Event) : Emit Unit :=
  modify fun out => { out with events := out.events.push e }

/-- The height of the operand stack. -/
def stackHeight : Emit Nat := return (← get).code.height

/-- The text of a type. -/
def displayTy (ty : Ty) : Emit String := return ty.display (← read).structs

/-- Emits an instruction.  It is logged before it is appended, with the height before it. -/
def emit (op : Instruction) : Emit Unit := do
  let height ← stackHeight
  logEvent (.instruction op height)
  let height ← orFault ((← get).code.heightAfter op)
  modify fun out => { out with code := out.code.push op height }

/-- Emits instructions in order. -/
def emitAll : Code → Emit Unit
  | [] => pure ()
  | op :: code => do
    emit op
    emitAll code

/-- Repeats a computation. -/
def repeatEmit (count : Nat) (m : Emit Unit) : Emit Unit :=
  match count with
  | 0 => pure ()
  | count + 1 => do
    m
    repeatEmit count m

end WordPlaces
