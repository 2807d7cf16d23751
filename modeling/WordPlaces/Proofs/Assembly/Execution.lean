import Mathlib.Logic.Relation
import WordPlaces.Assembly
import WordPlaces.Proofs.Machine.Step

/-!
# Executing assembled code

Assembler operations work on the memory and the storage of the machine, and on a stack of their own.
Labels have no addresses yet: the address of a label stays symbolic while it lies on the stack, it is
read as the one word that the machine reads for every tag, and a jump to it continues where the label
is defined.

The routines that are called are no part of the code.  A jump to one is taken for the whole of the call:
the routine finds its arguments on top of the address to return to, and execution continues there with
the outputs of the routine in place of both.  How many arguments and outputs the routines have is known
for the calls to come, in the order in which they are made.

## Main definitions

* `Slot` — a word or the address of a label, and `Slot.value` — the word it is read as.
* `Routine` — a routine as its callers know it, and `Code.routines` — those that code calls.
* `AsmState`, `AsmState.step`, `AsmState.run` — execution, which ends with the code.
* `AsmState.view` — the state as one of the machine.
* `AsmState.Reaches` — any number of steps.

## Main results

* `AsmState.step_lt` — a step uses up an operation or a call, so that execution ends.
* `AsmState.run_eq_of_reaches` — a run goes through all states that are reached.
-/

set_option autoImplicit false

namespace WordPlaces

/-- What lies in a slot of the operand stack. -/
inductive Slot where
  | word (w : Word)
  /-- The address of a label. -/
  | address (l : Label)
  deriving Repr, DecidableEq, Inhabited

/-- The word that a slot is read as.  All addresses read as the same word. -/
def Slot.value : Slot → Word
  | word w => w
  | address _ => Machine.tagWord

/-- A routine as its callers know it. -/
structure Routine where
  label : Label
  inputs : Nat
  outputs : Nat
  deriving Repr, DecidableEq, Inhabited

/-- The routines that an instruction calls. -/
def Instruction.routines : Instruction → List Routine
  | .call routine inputs outputs => [⟨routine, inputs, outputs⟩]
  | _ => []

/-- The routines that code calls, in order. -/
def Code.routines (code : Code) : List Routine := code.flatMap Instruction.routines

/-- The word that is linked for the placeholder of an immutable. -/
def Machine.linked? (m : Machine) (l : Label) : Option Word :=
  (m.immutables.map fun e => (placeholderLabel e.1, e.2)).lookup l

/-- The operations from the definition of a label on, which is a place that can be jumped to. -/
def codeAt? (l : Label) : List AsmOp → Option (List AsmOp)
  | [] => none
  | op :: code =>
    if op = .label l then if code.head? = some .jumpDest then some code else none
    else codeAt? l code

/-- A state of the execution of assembled code. -/
structure AsmState where
  /-- The operations that are still to be executed. -/
  code : List AsmOp
  /-- The operand stack, its top first. -/
  stack : List Slot
  /-- Memory and storage, and the values of placeholders.  Its own stack is not used. -/
  machine : Machine
  /-- The routines of the calls to come. -/
  routines : List Routine

namespace AsmState

/-- The state as one of the machine: every slot is the word it is read as. -/
def view (s : AsmState) : Machine := s.machine.withStack (s.stack.map Slot.value)

/-! ## Steps -/

/-- Takes the top from a stack. -/
def pop? : List Slot → Option (Slot × List Slot)
  | [] => none
  | a :: stack => some (a, stack)

/-- What an operation other than a jump makes of the stack and of the machine. -/
def operate (m : Machine) (op : AsmOp) (stack : List Slot) : Option (List Slot × Machine) :=
  match op with
  | .pushNumber w => some (.word w :: stack, m)
  | .pushLabel l => some (.address l :: stack, m)
  | .pushPlaceholder l => (m.linked? l).map fun w => (.word w :: stack, m)
  | .pop => do
    let (_, stack) ← pop? stack
    return (stack, m)
  | .dup n => if n = 0 then none else stack[n - 1]?.map fun a => (a :: stack, m)
  | .swap n =>
    if n = 0 then none
    else do
      let (top, below) ← pop? stack
      below[n - 1]?.map fun a => (a :: below.set (n - 1) top, m)
  | .unary op => do
    let (a, stack) ← pop? stack
    return (.word (Machine.evalUnary op a.value) :: stack, m)
  | .binary op => do
    let (a, stack) ← pop? stack
    let (b, stack) ← pop? stack
    return (.word (Machine.evalBinary op a.value b.value) :: stack, m)
  | .mload => do
    let (a, stack) ← pop? stack
    (Machine.access a.value 32).toOption.map fun address =>
      (.word (m.memory.loadWord address) :: stack, m.touch address)
  | .mstore => do
    let (a, stack) ← pop? stack
    let (b, stack) ← pop? stack
    (Machine.access a.value 32).toOption.map fun address =>
      (stack, { m with memory := m.memory.storeWord address b.value })
  | .mstore8 => do
    let (a, stack) ← pop? stack
    let (b, stack) ← pop? stack
    (Machine.access a.value 1).toOption.map fun address =>
      (stack, { m with memory := m.memory.storeByte address (b.value.byteAt 0) })
  | .sload => do
    let (a, stack) ← pop? stack
    return (.word (m.persistent.read a.value) :: stack, m)
  | .sstore => do
    let (a, stack) ← pop? stack
    let (b, stack) ← pop? stack
    return (stack, m.writeStorage .persistent a.value b.value)
  | .label _ | .jumpDest => some (stack, m)
  | .jump => none

/-- A copy of the slot at its depth is put on top, if there is such a slot. -/
theorem operate_dup (m : Machine) (n : Nat) (stack : List Slot) :
    operate m (.dup (n + 1)) stack = stack[n]?.map fun a => (a :: stack, m) := by
  rw [operate, if_neg (Nat.succ_ne_zero n), Nat.add_sub_cancel]

/-- The top changes places with the slot at its depth, if there is such a slot. -/
theorem operate_swap (m : Machine) (n : Nat) (top : Slot) (below : List Slot) :
    operate m (.swap (n + 1)) (top :: below) =
      below[n]?.map fun a => (a :: below.set n top, m) := by
  rw [operate, if_neg (Nat.succ_ne_zero n), Nat.add_sub_cancel]
  rfl

/-- A word is read from an address in range, up to which memory is extended. -/
theorem operate_mload (m : Machine) (a : Slot) (stack : List Slot) :
    operate m .mload (a :: stack) = (Machine.access a.value 32).toOption.map fun address =>
      (.word (m.memory.loadWord address) :: stack, m.touch address) := rfl

/-- A word is written at an address in range. -/
theorem operate_mstore (m : Machine) (a b : Slot) (stack : List Slot) :
    operate m .mstore (a :: b :: stack) = (Machine.access a.value 32).toOption.map fun address =>
      (stack, { m with memory := m.memory.storeWord address b.value }) := rfl

/-- The lowest byte of a word is written at an address in range. -/
theorem operate_mstore8 (m : Machine) (a b : Slot) (stack : List Slot) :
    operate m .mstore8 (a :: b :: stack) = (Machine.access a.value 1).toOption.map fun address =>
      (stack, { m with memory := m.memory.storeByte address (b.value.byteAt 0) }) := rfl

/-- The call of a routine: the address on top is that of the routine, below it are its arguments, and
below them is the address to return to. -/
def call (program : List AsmOp) (s : AsmState) : Option AsmState :=
  match s.stack, s.routines with
  | .address l :: stack, r :: routines =>
    if l = r.label then
      match stack[r.inputs]? with
      | some (.address back) =>
        (codeAt? back program).map fun code => {
          code
          stack := List.replicate r.outputs (.word 0) ++ stack.drop (r.inputs + 1)
          machine := { s.machine with calls := s.machine.calls ++ [l] }
          routines }
      | _ => none
    else none
  | _, _ => none

/-- Executes one operation of a program. -/
def step (program : List AsmOp) (s : AsmState) : Option AsmState :=
  match s.code with
  | [] => none
  | .jump :: _ => s.call program
  | op :: code =>
    (operate s.machine op s.stack).map fun (stack, machine) => { s with code, stack, machine }

/-- A step uses up the call to come, or an operation. -/
theorem step_lt {program : List AsmOp} {s s' : AsmState} (h : s.step program = some s') :
    s'.routines.length < s.routines.length ∨
      s'.routines = s.routines ∧ s'.code.length < s.code.length := by
  rw [step] at h
  split at h
  · contradiction
  · left
    rw [call] at h
    split at h
    · rename_i hroutines
      split at h
      · split at h
        · obtain ⟨code, -, rfl⟩ := Option.map_eq_some_iff.1 h
          rw [hroutines]
          exact Nat.lt_succ_self _
        · contradiction
      · contradiction
    · contradiction
  · rename_i hcode
    right
    obtain ⟨x, -, rfl⟩ := Option.map_eq_some_iff.1 h
    rw [hcode]
    exact ⟨rfl, Nat.lt_succ_self _⟩

/-! ## Runs -/

/-- Executes a program until no operation is left; there is no result if an operation cannot be
executed. -/
def run (program : List AsmOp) (s : AsmState) : Option AsmState :=
  if s.code = [] then some s
  else
    match _ : s.step program with
    | none => none
    | some s' => s'.run program
termination_by (s.routines.length, s.code.length)
decreasing_by
  rename_i h
  rcases step_lt h with hlt | ⟨hroutines, hlt⟩
  · exact .left _ _ hlt
  · rw [hroutines]
    exact .right _ hlt

/-- One state is reached from another by any number of steps. -/
def Reaches (program : List AsmOp) : AsmState → AsmState → Prop :=
  Relation.ReflTransGen fun s s' => s.step program = some s'

section Run

variable {program : List AsmOp} {s s' : AsmState}

/-- A run ends with the code. -/
theorem run_of_code_eq_nil (h : s.code = []) : s.run program = some s := by
  rw [run, if_pos h]

/-- There is a step only where there is an operation. -/
theorem code_ne_nil_of_step (h : s.step program = some s') : s.code ≠ [] := by
  intro hcode
  rw [step, hcode] at h
  contradiction

/-- A run goes on after a step. -/
theorem run_of_step (h : s.step program = some s') : s.run program = s'.run program := by
  rw [run, if_neg (code_ne_nil_of_step h)]
  split
  · rename_i hnone
    rw [hnone] at h
    contradiction
  · rename_i hsome
    rw [hsome] at h
    rw [Option.some.inj h]

/-- A run that is stuck has no result. -/
theorem run_of_step_eq_none (hcode : s.code ≠ []) (h : s.step program = none) :
    s.run program = none := by
  rw [run, if_neg hcode]
  split
  · rfl
  · rename_i hsome
    rw [hsome] at h
    contradiction

/-- No steps lead to where they start. -/
theorem Reaches.refl (s : AsmState) : Reaches program s s := Relation.ReflTransGen.refl

/-- Steps may be followed by further ones. -/
theorem Reaches.trans {s'' : AsmState} (h : Reaches program s s') (h' : Reaches program s' s'') :
    Reaches program s s'' :=
  Relation.ReflTransGen.trans h h'

/-- One step leads to the next state. -/
theorem Reaches.of_step (h : s.step program = some s') : Reaches program s s' :=
  Relation.ReflTransGen.single h

/-- A run goes through every state that is reached. -/
theorem run_eq_of_reaches (h : Reaches program s s') : s.run program = s'.run program := by
  induction h with
  | refl => rfl
  | tail _ hstep ih => exact ih.trans (run_of_step hstep)

end Run

/-! ## Single steps -/

section Step

variable {program : List AsmOp} {stack stack' : List Slot} {m m' : Machine}
  {routines : List Routine}

/-- A step of an operation other than a jump. -/
theorem step_of_operate {op : AsmOp} (hop : op ≠ .jump) (code : List AsmOp) :
    (AsmState.mk (op :: code) stack m routines).step program =
      (operate m op stack).map fun x => ⟨code, x.1, x.2, routines⟩ := by
  cases op <;> first | rfl | contradiction

/-- An operation that can be executed takes the run to the next one. -/
theorem reaches_of_operate {op : AsmOp} (hop : op ≠ .jump)
    (h : operate m op stack = some (stack', m')) (code : List AsmOp) :
    Reaches program ⟨op :: code, stack, m, routines⟩ ⟨code, stack', m', routines⟩ :=
  .of_step (by rw [step_of_operate hop, h]; rfl)

/-- An operation that cannot be executed ends the run without a result. -/
theorem run_of_operate_eq_none {op : AsmOp} (hop : op ≠ .jump) (h : operate m op stack = none)
    (code : List AsmOp) : (AsmState.mk (op :: code) stack m routines).run program = none :=
  run_of_step_eq_none (List.cons_ne_nil _ _) (by rw [step_of_operate hop, h]; rfl)

end Step

end AsmState

end WordPlaces
