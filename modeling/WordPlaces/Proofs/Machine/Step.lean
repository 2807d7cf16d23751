import WordPlaces.Machine.Basic

/-!
# Executing code on an explicit stack

One rule for each instruction: what it makes of a stack on which its operands are visible.  The
rules are applied from the first instruction of a listing on, so that simplification with them
executes it.

## Main definitions

* `Machine.withStack` — the machine with another stack.
* `Machine.SameElsewhere` — machines that differ in stack and storage only.
* `Machine.access` — the address of a memory access, if it is within the range of memory.
* `Machine.touch` — the machine after a word of memory was read.

## Main results

* `Machine.read_writeStorage` — what a write to storage changes.
* `Machine.run_cons_of_step` — a run of code whose first instruction has been executed.
-/

set_option autoImplicit false

namespace WordPlaces

namespace Machine

/-- The machine with another stack. -/
def withStack (m : Machine) (stack : List Word) : Machine := { m with stack }

/-- The stack that a machine is given is its stack. -/
@[simp] theorem withStack_stack (m : Machine) (stack : List Word) :
    (m.withStack stack).stack = stack := rfl

/-- Of two stacks the last one stays. -/
@[simp] theorem withStack_withStack (m : Machine) (stack stack' : List Word) :
    (m.withStack stack).withStack stack' = m.withStack stack' := rfl

/-- A machine keeps its own stack. -/
@[simp] theorem withStack_self (m : Machine) : m.withStack m.stack = m := rfl

/-- The storage does not depend on the stack. -/
@[simp] theorem withStack_storage (m : Machine) (stack : List Word) (kind : StorageKind) :
    (m.withStack stack).storage kind = m.storage kind := by cases kind <;> rfl

/-- A write changes what is read under its own key of its own storage and nothing else. -/
theorem read_writeStorage (m : Machine) (kind kind' : StorageKind) (key value k : Word) :
    ((m.writeStorage kind key value).storage kind').read k =
      if kind = kind' ∧ k = key then value else (m.storage kind').read k := by
  cases kind <;> cases kind' <;> simp [writeStorage, storage, WordMap.read_write]

/-- Two machines that differ in their stack, their storage and the writes that were noted only. -/
structure SameElsewhere (m m' : Machine) : Prop where
  memory : m'.memory = m.memory
  immutables : m'.immutables = m.immutables
  calls : m'.calls = m.calls

/-- A machine is the same as itself. -/
theorem SameElsewhere.refl (m : Machine) : m.SameElsewhere m := ⟨rfl, rfl, rfl⟩

/-- What stays the same in two steps stays the same. -/
theorem SameElsewhere.trans {a b c : Machine} (hab : a.SameElsewhere b) (hbc : b.SameElsewhere c) :
    a.SameElsewhere c :=
  ⟨hbc.memory.trans hab.memory, hbc.immutables.trans hab.immutables, hbc.calls.trans hab.calls⟩

/-- Another stack changes nothing elsewhere. -/
theorem sameElsewhere_withStack (m : Machine) (stack : List Word) :
    m.SameElsewhere (m.withStack stack) := ⟨rfl, rfl, rfl⟩

/-- A write to storage changes nothing outside of storage. -/
theorem sameElsewhere_writeStorage (m : Machine) (kind : StorageKind) (key value : Word) :
    m.SameElsewhere (m.writeStorage kind key value) := by
  cases kind <;> exact ⟨rfl, rfl, rfl⟩

/-- The writes of persistent storage are noted. -/
theorem writes_writeStorage (m : Machine) (kind : StorageKind) (key value : Word) :
    (m.writeStorage kind key value).writes =
      m.writes ++ if kind = .persistent then [key] else [] := by
  cases kind with
  | persistent => rfl
  | transient => exact (List.append_nil _).symm

/-- The address of an access to `size` bytes of memory, if all of them are within its range. -/
def access (a : Word) (size : Nat) : Except MachineFault Nat := do
  let address ← addressOf a
  checkRange address size
  return address

/-- An address outside the range is the only reason for which memory is not accessed. -/
theorem access_eq (a : Word) (size : Nat) :
    access a size =
      if a.toNat + size ≤ Memory.limit then .ok a.toNat else .error .addressOutOfRange := by
  have hlimit : Memory.limit < countLimit := by decide
  rw [access, addressOf]
  by_cases ha : a.toNat < countLimit
  · rw [if_pos ha]
    change (checkRange a.toNat size >>= fun _ => pure a.toNat) = _
    rw [checkRange]
    split <;> rfl
  · rw [if_neg ha, if_neg (by omega)]
    rfl

/-- The machine after the word at an address was read, which memory grows to cover. -/
def touch (m : Machine) (address : Nat) : Machine :=
  { m with memory := m.memory.grow (address + 32) }

/-! ## One instruction -/

section Step

variable (m : Machine) (a b : Word) (rest : List Word)

/-- A slot that is there is copied to the top. -/
theorem step_dup {n : Nat} {stack : List Word} (h : n < stack.length) :
    (m.withStack stack).step (.dup (n + 1)) = .ok (m.withStack (stack[n] :: stack)) := by
  simp only [step, withStack_stack, List.getElem?_eq_getElem h]
  rfl

/-- The top is exchanged with a slot below it. -/
theorem step_swap {n : Nat} {stack : List Word} (h : n < stack.length) :
    (m.withStack stack).step (.swap n) =
      .ok (m.withStack ((stack.set 0 stack[n]).set n stack[0])) := by
  simp only [step, withStack_stack, List.getElem?_eq_getElem h,
    List.getElem?_eq_getElem (show 0 < stack.length by omega)]
  rfl

/-- The key on top is replaced by what is stored under it. -/
theorem step_sload (kind : StorageKind) :
    (m.withStack (a :: rest)).step (.sload kind) =
      .ok (m.withStack ((m.storage kind).read a :: rest)) := by cases kind <;> rfl

/-- The word below the top is stored under the key on top. -/
theorem step_sstore (kind : StorageKind) :
    (m.withStack (a :: b :: rest)).step (.sstore kind) =
      .ok ((m.writeStorage kind a b).withStack rest) := by cases kind <;> rfl

/-- The address on top is replaced by the word behind it, which memory covers from then on. -/
theorem step_mload :
    (m.withStack (a :: rest)).step .mload =
      (access a 32).map fun address =>
        (m.touch address).withStack (m.memory.loadWord address :: rest) := by
  simp only [step, pop, access, withStack_stack, bind, Except.bind, pure, Except.pure]
  rcases addressOf a with _ | address
  · rfl
  · cases h : checkRange address 32 <;> simp only [h] <;> rfl

/-- The word below the top is written at the address on top. -/
theorem step_mstore :
    (m.withStack (a :: b :: rest)).step .mstore =
      (access a 32).map fun address =>
        { m with memory := m.memory.storeWord address b }.withStack rest := by
  simp only [step, pop, access, withStack_stack, bind, Except.bind, pure, Except.pure]
  rcases addressOf a with _ | address
  · rfl
  · cases h : checkRange address 32 <;> simp only [h] <;> rfl

/-- The lowest byte of the word below the top is written at the address on top. -/
theorem step_mstore8 :
    (m.withStack (a :: b :: rest)).step .mstore8 =
      (access a 1).map fun address =>
        { m with memory := m.memory.storeByte address (b.byteAt 0) }.withStack rest := by
  simp only [step, pop, access, withStack_stack, bind, Except.bind, pure, Except.pure]
  rcases addressOf a with _ | address
  · rfl
  · cases h : checkRange address 1 <;> simp only [h] <;> rfl

/-- A call is recorded, and its inputs are replaced by zeros. -/
theorem step_call {stack : List Word} (routine : String) {inputs : Nat} (outputs : Nat)
    (h : inputs ≤ stack.length) :
    (m.withStack stack).step (.call routine inputs outputs) =
      .ok ({ m with calls := m.calls ++ [routine] }.withStack
        (List.replicate outputs 0 ++ stack.drop inputs)) := by
  have hdrop : (m.withStack stack).drop inputs = .ok (m.withStack (stack.drop inputs)) := if_pos h
  rw [step, hdrop]
  rfl

end Step

/-! ## Runs -/

/-- A run of code with nothing behind it. -/
theorem run_eq_of_append_nil {m : Machine} {code : Code} {r : Except MachineFault Machine}
    (h : m.run (code ++ []) = r) : m.run code = r := by
  rwa [List.append_nil] at h

/-- A run of code whose first instruction has been executed. -/
theorem run_cons_of_step {m m' : Machine} {op : Instruction} (code : Code)
    (h : m.step op = .ok m') : m.run (op :: code) = m'.run code := by
  rw [run_cons, h]
  rfl

section Run

variable (m : Machine) (a b : Word) (rest : List Word) (code : Code)

/-- A word is pushed, and the code after it runs. -/
@[simp] theorem run_push (stack : List Word) :
    (m.withStack stack).run (.push a :: code) = (m.withStack (a :: stack)).run code := rfl

/-- The top is dropped, and the code after it runs. -/
@[simp] theorem run_pop :
    (m.withStack (a :: rest)).run (.pop :: code) = (m.withStack rest).run code := rfl

/-- A slot is copied to the top, and the code after it runs. -/
@[simp] theorem run_dup {n : Nat} {stack : List Word} (h : n < stack.length) :
    (m.withStack stack).run (.dup (n + 1) :: code) =
      (m.withStack (stack[n] :: stack)).run code :=
  run_cons_of_step code (step_dup m h)

/-- The top is exchanged with a slot, and the code after it runs. -/
@[simp] theorem run_swap {n : Nat} {stack : List Word} (h : n < stack.length) :
    (m.withStack stack).run (.swap n :: code) =
      (m.withStack ((stack.set 0 stack[n]).set n stack[0])).run code :=
  run_cons_of_step code (step_swap m h)

/-- The second word of the stack is copied. -/
theorem run_dup_two :
    (m.withStack (a :: b :: rest)).run (.dup 2 :: code) =
      (m.withStack (b :: a :: b :: rest)).run code := rfl

/-- The two words on top are exchanged. -/
theorem run_swap_one :
    (m.withStack (a :: b :: rest)).run (.swap 1 :: code) =
      (m.withStack (b :: a :: rest)).run code := rfl

/-- The two words on top are replaced by the result, and the code after it runs. -/
@[simp] theorem run_binary (op : BinaryOp) :
    (m.withStack (a :: b :: rest)).run (.binary op :: code) =
      (m.withStack (evalBinary op a b :: rest)).run code := rfl

/-- A word is read from memory if its address is within range, and then the code after it runs. -/
theorem run_mload :
    (m.withStack (a :: rest)).run (.mload :: code) = access a 32 >>= fun address =>
      ((m.touch address).withStack (m.memory.loadWord address :: rest)).run code := by
  rw [run_cons, step_mload]
  cases access a 32 <;> rfl

/-- A word is written to memory if its address is within range, and then the code after it runs. -/
theorem run_mstore :
    (m.withStack (a :: b :: rest)).run (.mstore :: code) = access a 32 >>= fun address =>
      ({ m with memory := m.memory.storeWord address b }.withStack rest).run code := by
  rw [run_cons, step_mstore]
  cases access a 32 <;> rfl

/-- A byte is written to memory if its address is within range, and then the code after it runs. -/
theorem run_mstore8 :
    (m.withStack (a :: b :: rest)).run (.mstore8 :: code) = access a 1 >>= fun address =>
      ({ m with memory := m.memory.storeByte address (b.byteAt 0) }.withStack rest).run code := by
  rw [run_cons, step_mstore8]
  cases access a 1 <;> rfl

/-- A key is replaced by what is stored under it, and the code after it runs. -/
@[simp] theorem run_sload (kind : StorageKind) :
    (m.withStack (a :: rest)).run (.sload kind :: code) =
      (m.withStack ((m.storage kind).read a :: rest)).run code :=
  run_cons_of_step code (step_sload m a rest kind)

/-- A word is stored under a key, and the code after it runs. -/
@[simp] theorem run_sstore (kind : StorageKind) :
    (m.withStack (a :: b :: rest)).run (.sstore kind :: code) =
      ((m.writeStorage kind a b).withStack rest).run code :=
  run_cons_of_step code (step_sstore m a b rest kind)

end Run

end Machine

end WordPlaces
