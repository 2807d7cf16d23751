import WordPlaces.Instruction
import WordPlaces.PackedField
import WordPlaces.Machine.Memory
import WordPlaces.Machine.WordMap

/-!
# The machine

The meaning of instructions: a step from state to state, and a run of straight-line code as a
fold of steps.  Tags read as one fixed word.  A call of a routine takes its inputs, leaves
zeros for its outputs and is only noted.

## Main definitions

* `Machine` — the state of the machine; the head of `stack` is its top.
* `MachineFault` — why a step fails.
* `Machine.step` — one instruction.
* `Machine.run` — straight-line code.
* `Machine.trace` — the states after each instruction of a run.

## Main results

* `Machine.run_append` — a run of two pieces of code is a run of one after the other.
-/

set_option autoImplicit false

namespace WordPlaces

/-- Why an instruction cannot be executed. -/
inductive MachineFault where
  /-- An operand was taken from the empty stack. -/
  | emptyStack
  /-- A duplication or exchange reaches beyond the stack. -/
  | noSuchSlot
  /-- The placeholder of an immutable has no value. -/
  | unlinkedImmutable (name : String)
  /-- A memory address outside the range of memory. -/
  | addressOutOfRange
  deriving Repr, DecidableEq

/-- The wording of a fault, where it has one. -/
def MachineFault.message : MachineFault → Option String
  | emptyStack => some "stack underflow"
  | noSuchSlot => none
  | unlinkedImmutable name => some s!"unlinked immutable {name}"
  | addressOutOfRange => none

/-- The state of the machine. -/
structure Machine where
  /-- The operand stack, its top first. -/
  stack : List Word := []
  memory : Memory := {}
  persistent : WordMap := {}
  transient : WordMap := {}
  /-- The values of the placeholders of immutables. -/
  immutables : List (String × Word) := []
  /-- The keys under which persistent storage was written, in order. -/
  writes : List Word := []
  /-- The routines that were called, in order. -/
  calls : List String := []

namespace Machine

instance : Inhabited Machine := ⟨{}⟩

/-- What every tag reads as. -/
def tagWord : Word := 0x51

/-! ## Operations on words -/

/-- What a binary operation makes of the top of the stack and the slot below it. -/
def evalBinary : BinaryOp → Word → Word → Word
  | .add, a, b => a + b
  | .sub, a, b => a - b
  | .mul, a, b => a * b
  | .div, a, b => a / b
  | .exp, a, b => a.pow b.toNat
  | .signExtend, a, b => if a < 31 then WordPlaces.signExtend b (a.toNat + 1) else b
  | .and, a, b => a &&& b
  | .or, a, b => a ||| b
  | .byte, a, b => if a < 32 then (Word.byteAt b (31 - a.toNat)).setWidth 256 else 0
  | .shl, a, b => if a < 256 then b <<< a.toNat else 0
  | .shr, a, b => if a < 256 then b >>> a.toNat else 0

/-- What a unary operation makes of the top of the stack. -/
def evalUnary : UnaryOp → Word → Word
  | .not, a => ~~~a
  | .isZero, a => Word.ofBool (a == 0)

/-! ## Storage -/

/-- The storage of the given kind. -/
def storage (m : Machine) : StorageKind → WordMap
  | .persistent => m.persistent
  | .transient => m.transient

/-- Writes storage; writes of persistent storage are noted. -/
def writeStorage (m : Machine) (kind : StorageKind) (key value : Word) : Machine :=
  match kind with
  | .persistent =>
    { m with persistent := m.persistent.write key value, writes := m.writes ++ [key] }
  | .transient => { m with transient := m.transient.write key value }

/-! ## The stack -/

/-- Takes a word from the stack. -/
def pop (m : Machine) : Except MachineFault (Word × Machine) :=
  match m.stack with
  | [] => .error .emptyStack
  | w :: rest => .ok (w, { m with stack := rest })

/-- Puts a word on the stack. -/
def push (m : Machine) (w : Word) : Machine := { m with stack := w :: m.stack }

/-- Takes a number of words from the stack. -/
def drop (m : Machine) (count : Nat) : Except MachineFault Machine :=
  if count ≤ m.stack.length then .ok { m with stack := m.stack.drop count }
  else .error .emptyStack

/-! ## Memory -/

/-- The memory address a word stands for. -/
def addressOf (w : Word) : Except MachineFault Nat :=
  if w.toNat < countLimit then .ok w.toNat else .error .addressOutOfRange

/-- The `size` bytes from an address on are within the range of memory. -/
def checkRange (address size : Nat) : Except MachineFault Unit :=
  if address + size ≤ Memory.limit then .ok () else .error .addressOutOfRange

/-! ## Steps and runs -/

/-- Executes one instruction. -/
def step (m : Machine) : Instruction → Except MachineFault Machine
  | .push value => .ok (m.push value)
  | .pushSymbol (.tag _) => .ok (m.push tagWord)
  | .pushSymbol (.immutable name) =>
    match m.immutables.lookup name with
    | some value => .ok (m.push value)
    | none => .error (.unlinkedImmutable name)
  | .pop => do
    let (_, m) ← m.pop
    return m
  | .dup n =>
    match n with
    | 0 => .error .noSuchSlot
    | n + 1 =>
      match m.stack[n]? with
      | some w => .ok (m.push w)
      | none => .error .noSuchSlot
  | .swap n =>
    match m.stack[0]?, m.stack[n]? with
    | some top, some other => .ok { m with stack := (m.stack.set 0 other).set n top }
    | _, _ => .error .noSuchSlot
  | .unary op => do
    let (a, m) ← m.pop
    return m.push (evalUnary op a)
  | .binary op => do
    let (a, m) ← m.pop
    let (b, m) ← m.pop
    return m.push (evalBinary op a b)
  | .mload => do
    let (a, m) ← m.pop
    let address ← addressOf a
    checkRange address 32
    return { m with memory := m.memory.grow (address + 32) }.push (m.memory.loadWord address)
  | .mstore => do
    let (a, m) ← m.pop
    let address ← addressOf a
    let (value, m) ← m.pop
    checkRange address 32
    return { m with memory := m.memory.storeWord address value }
  | .mstore8 => do
    let (a, m) ← m.pop
    let address ← addressOf a
    let (value, m) ← m.pop
    checkRange address 1
    return { m with memory := m.memory.storeByte address (value.byteAt 0) }
  | .sload kind => do
    let (key, m) ← m.pop
    return m.push ((m.storage kind).read key)
  | .sstore kind => do
    let (key, m) ← m.pop
    let (value, m) ← m.pop
    return m.writeStorage kind key value
  | .call routine inputs outputs => do
    let m ← m.drop inputs
    return { m with
      stack := List.replicate outputs 0 ++ m.stack
      calls := m.calls ++ [routine] }

/-- Executes straight-line code. -/
def run (m : Machine) : Code → Except MachineFault Machine
  | [] => .ok m
  | op :: code => do
    let m ← m.step op
    m.run code

/-- The states after each instruction of a run, up to the first that fails. -/
def trace (m : Machine) : Code → List Machine × Option MachineFault
  | [] => ([], none)
  | op :: code =>
    match m.step op with
    | .error fault => ([], some fault)
    | .ok m =>
      let (states, fault) := m.trace code
      (m :: states, fault)

/-- No code leaves the machine as it is. -/
@[simp] theorem run_nil (m : Machine) : m.run [] = .ok m := rfl

/-- Code is executed one instruction after the other. -/
theorem run_cons (m : Machine) (op : Instruction) (code : Code) :
    m.run (op :: code) = m.step op >>= fun m => m.run code := rfl

/-- A run of two pieces of code is a run of one after the other. -/
theorem run_append (m : Machine) (code code' : Code) :
    m.run (code ++ code') = m.run code >>= fun m => m.run code' := by
  induction code generalizing m with
  | nil => rfl
  | cons op code ih =>
    rw [List.cons_append, run_cons, run_cons]
    cases m.step op with
    | error _ => rfl
    | ok m => exact ih m

/-- Words written into memory in order, as a start for a run. -/
def withMemory (m : Machine) : List (Nat × Word) → Except MachineFault Machine
  | [] => .ok m
  | (address, value) :: rest => do
    checkRange address 32
    { m with memory := m.memory.storeWord address value }.withMemory rest

end Machine

end WordPlaces
