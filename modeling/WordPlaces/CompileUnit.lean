import WordPlaces.Place.Basic

/-!
# Units

A unit is the code of one statement or expression.  While it is compiled its variables are bound
to where they live, and code is emitted in the scope of the bindings so far.

## Main definitions

* `UnitContext` — the scope and the output of a unit.
* `Compile` — computations that bind variables and emit code.
* `Compile.emitting` — emits code for an access at a source span.
* `Compile.bindLocal`, `Compile.bindState`, `Compile.bindImmutable` — bind a variable.
-/

set_option autoImplicit false

namespace WordPlaces

/-- The state of a unit that is being compiled. -/
structure UnitContext where
  scope : Scope := {}
  output : Output := {}
  deriving Inhabited

/-- Computations that compile a unit.  When one fails, what it did before stays. -/
abbrev Compile := ExceptT Failure (StateM UnitContext)

namespace Compile

/-- Emits code in the scope of the unit, for an access at `site`. -/
def emitting {α : Type} (site : Span) (m : Emit α) : Compile α := do
  let ctx ← get
  let (result, output) := ((m { ctx.scope with site }).run ctx.output).run
  set { ctx with output }
  MonadExcept.ofExcept result

/-- The height of the operand stack. -/
def height : Compile Nat := return (← get).output.code.height

/-- Changes the bindings. -/
def modifyScope (f : Scope → Scope) : Compile Unit :=
  modify fun ctx => { ctx with scope := f ctx.scope }

/-- Binds a local variable to the `size` topmost slots. -/
def bindLocal (id : VariableId) (size : Nat) : Compile Unit := do
  let height ← height
  if height < size then throw (.fault .bindingBelowBase)
  else modifyScope fun scope => { scope with locals := (id, height - size) :: scope.locals }

/-- Binds a state variable to its storage slot and its first byte in it. -/
def bindState (id : VariableId) (slot : Word) (byte : Nat) : Compile Unit :=
  modifyScope fun scope =>
    { scope with stateVariables := (id, slot, byte) :: scope.stateVariables }

/-- Binds an immutable to the memory cell that creation code uses. -/
def bindImmutable (id : VariableId) (address : Nat) : Compile Unit :=
  modifyScope fun scope => { scope with immutables := (id, address) :: scope.immutables }

end Compile

end WordPlaces
