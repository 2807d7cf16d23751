import WordPlaces.Proofs.Machine.Frame

/-!
# Progress of emitted code

Code that a section accepts has all its operands whenever it is executed.  What remains is what
the stack cannot answer for: that memory has the addresses the code computes and that the
placeholders of immutables have their values.  A machine that serves the code in these two
respects executes it to its end.

## Main definitions

* `Machine.Serves`, `Machine.ServesRun` — memory and immutables have what an instruction, and what
  each instruction of a run asks of them.

## Main results

* `Machine.refused_of_step`, `Machine.refused_of_run` — an instruction, and a run, that has its
  operands fails for want of memory or of an immutable only.
* `Machine.run_accepted` — code that a section accepts does not miss an operand, leaves a stack of
  the height that was counted, and does not touch what lies below its operands.
-/

set_option autoImplicit false

namespace WordPlaces

/-! ## Accepted code -/

/-- Code whose instructions a section accepts one by one has its inputs, and the height of the
section is the one after them. -/
theorem CodeSection.heightFrom_of_foldlM_append {s s' : CodeSection} {code : Code}
    (h : code.foldlM append s = .ok s') : heightFrom s.height code = some s'.height := by
  induction code generalizing s with
  | nil =>
    obtain rfl := Except.ok.inj h
    rfl
  | cons op code ih =>
    rw [List.foldlM_cons] at h
    obtain ⟨next, hnext, hcode⟩ := Except.exists_of_bind_eq_ok h
    obtain ⟨height, hheight, rfl⟩ := Except.exists_of_map_eq_ok hnext
    obtain ⟨hin, rfl, -⟩ := heightAfter_eq_ok hheight
    rw [heightFrom_cons_of_le code hin]
    exact ih hcode

namespace Machine

/-! ## One instruction -/

/-- Memory has the bytes that an instruction accesses at the address on top of the stack, and the
immutable that it reads has a value. -/
def Serves (m : Machine) : Instruction → Prop
  | .mload | .mstore => (m.stack.headD 0).toNat + 32 ≤ Memory.limit
  | .mstore8 => (m.stack.headD 0).toNat + 1 ≤ Memory.limit
  | .pushSymbol (.immutable name) => (m.immutables.lookup name).isSome
  | _ => True

instance (m : Machine) : (op : Instruction) → Decidable (m.Serves op)
  | .mload | .mstore => inferInstanceAs (Decidable ((m.stack.headD 0).toNat + 32 ≤ Memory.limit))
  | .mstore8 => inferInstanceAs (Decidable ((m.stack.headD 0).toNat + 1 ≤ Memory.limit))
  | .pushSymbol (.immutable name) =>
    inferInstanceAs (Decidable ((m.immutables.lookup name).isSome = true))
  | .pushSymbol (.tag _) | .push _ | .pop | .dup _ | .swap _ | .unary _ | .binary _ | .sload _
  | .sstore _ | .call .. => .isTrue trivial

/-- An access to memory fails at an address outside its range only. -/
private theorem refused_of_access {α : Type} {a : Word} {size : Nat} {g : Nat → α}
    {f : MachineFault} (hf : (access a size).map g = .error f) :
    f = .addressOutOfRange ∧ ¬a.toNat + size ≤ Memory.limit := by
  rw [access_eq] at hf
  split at hf
  · contradiction
  · exact ⟨(Except.error.inj hf).symm, ‹_›⟩

/-- An instruction that has its operands fails for want of memory or of an immutable only. -/
theorem refused_of_step {m : Machine} {stack : List Word} {op : Instruction} {f : MachineFault}
    (hin : op.inputs ≤ stack.length) (hop : op ≠ .dup 0)
    (hf : (m.withStack stack).step op = .error f) :
    f ≠ .emptyStack ∧ f ≠ .noSuchSlot ∧ ¬(m.withStack stack).Serves op := by
  cases op with
  | push value => contradiction
  | pushSymbol symbol =>
    cases symbol with
    | tag name => contradiction
    | immutable name =>
      rw [step] at hf
      split at hf
      · contradiction
      · rename_i hname
        obtain rfl := Except.error.inj hf
        refine ⟨by simp, by simp, fun hserves => ?_⟩
        rw [Serves, hname] at hserves
        contradiction
  | dup n =>
    cases n with
    | zero => contradiction
    | succ n =>
      rw [step_dup m hin] at hf
      contradiction
  | swap n =>
    rw [step_swap m hin] at hf
    contradiction
  | call routine inputs outputs =>
    rw [step_call m routine outputs (show inputs ≤ stack.length from hin)] at hf
    contradiction
  | pop | unary | sload =>
    obtain _ | ⟨a, stack⟩ := stack
    · contradiction
    · contradiction
  | binary | sstore =>
    obtain _ | ⟨a, _ | ⟨b, stack⟩⟩ := stack
    · contradiction
    · exact absurd hin (by simp [Instruction.inputs])
    · contradiction
  | mload =>
    obtain _ | ⟨a, stack⟩ := stack
    · contradiction
    · rw [step_mload] at hf
      obtain ⟨rfl, hlimit⟩ := refused_of_access hf
      exact ⟨by simp, by simp, fun hserves => hlimit hserves⟩
  | mstore =>
    obtain _ | ⟨a, _ | ⟨b, stack⟩⟩ := stack
    · contradiction
    · exact absurd hin (by simp [Instruction.inputs])
    · rw [step_mstore] at hf
      obtain ⟨rfl, hlimit⟩ := refused_of_access hf
      exact ⟨by simp, by simp, fun hserves => hlimit hserves⟩
  | mstore8 =>
    obtain _ | ⟨a, _ | ⟨b, stack⟩⟩ := stack
    · contradiction
    · exact absurd hin (by simp [Instruction.inputs])
    · rw [step_mstore8] at hf
      obtain ⟨rfl, hlimit⟩ := refused_of_access hf
      exact ⟨by simp, by simp, fun hserves => hlimit hserves⟩

/-! ## Runs -/

/-- Memory and immutables have what each instruction of a run asks of them. -/
def ServesRun (m : Machine) : Code → Prop
  | [] => True
  | op :: code =>
    m.Serves op ∧
      match m.step op with
      | .ok m' => m'.ServesRun code
      | .error _ => True

instance decidableServesRun (m : Machine) : (code : Code) → Decidable (m.ServesRun code)
  | [] => .isTrue trivial
  | op :: code =>
    have : Decidable (match m.step op with
      | .ok m' => m'.ServesRun code
      | .error _ => True) :=
      match m.step op with
      | .ok m' => m'.decidableServesRun code
      | .error _ => .isTrue trivial
    inferInstanceAs (Decidable (m.Serves op ∧ _))

/-- A run of code that has its operands fails for want of memory or of an immutable only. -/
theorem refused_of_run {m : Machine} {code : Code} {h' : Nat} {f : MachineFault}
    (hh : heightFrom m.stack.length code = some h') (hdup : .dup 0 ∉ code)
    (hf : m.run code = .error f) : f ≠ .emptyStack ∧ f ≠ .noSuchSlot ∧ ¬m.ServesRun code := by
  induction code generalizing m with
  | nil => contradiction
  | cons op code ih =>
    obtain ⟨hin, hcode⟩ := inputs_le_of_heightFrom hh
    rw [run_cons] at hf
    cases hstep : m.step op with
    | error f' =>
      rw [hstep] at hf
      obtain rfl := Except.error.inj hf
      obtain ⟨hempty, hslot, hserves⟩ :=
        refused_of_step hin (fun h => hdup (h ▸ List.mem_cons_self)) hstep
      exact ⟨hempty, hslot, fun h => hserves h.1⟩
    | ok m₁ =>
      rw [hstep] at hf
      rw [← (step_onto [] hin).2 m₁ hstep] at hcode
      obtain ⟨hempty, hslot, hserves⟩ := ih hcode (fun h => hdup (List.mem_cons_of_mem _ h)) hf
      refine ⟨hempty, hslot, fun h => hserves ?_⟩
      have h₁ := h.2
      rw [hstep] at h₁
      exact h₁

/-- **Accepted code keeps to its operands.**  Code whose instructions a section accepts one by one,
none of them a duplication of slot zero, is executed on a stack of the height the section started
from, with any words below it.  It never misses a word of the stack.  If memory and immutables
serve it, it ends; the stack then has the height that was counted, the words below it are as they
were, and everything else is as if they had not been there.

**Proof sketch.** Acceptance says that every instruction has its inputs (`heightFrom`), and more
words below them change nothing about that.  So a run with words below can only be refused for
want of memory or of an immutable (`refused_of_run`), it is the run without them with the same
words put below (`run_onto`), and its height is the one that was counted (`length_of_run`). -/
theorem run_accepted {start accepted : CodeSection} {code : Code} {m : Machine}
    (haccept : code.foldlM CodeSection.append start = .ok accepted)
    (hdup : ∀ n, .dup n ∈ code → 1 ≤ n) (hm : m.stack.length = start.height)
    (below : List Word) :
    (∀ f, (m.onto below).run code = .error f → f ≠ .emptyStack ∧ f ≠ .noSuchSlot) ∧
      ((m.onto below).ServesRun code → ∃ m', m.run code = .ok m' ∧
        m'.stack.length = accepted.height ∧ (m.onto below).run code = .ok (m'.onto below)) := by
  have hheight : heightFrom m.stack.length code = some accepted.height :=
    hm ▸ CodeSection.heightFrom_of_foldlM_append haccept
  have hbelow : heightFrom (m.onto below).stack.length code =
      some (accepted.height + below.length) := by
    rw [onto_stack, List.length_append]
    exact heightFrom_add _ hheight
  have hzero : .dup 0 ∉ code := fun h => absurd (hdup 0 h) (by decide)
  refine ⟨fun f hf => ?_, fun hserves => ?_⟩
  · obtain ⟨hempty, hslot, -⟩ := refused_of_run hbelow hzero hf
    exact ⟨hempty, hslot⟩
  · have honto := run_onto below hheight
    cases hrun : m.run code with
    | error f =>
      rw [hrun] at honto
      exact absurd hserves (refused_of_run hbelow hzero honto).2.2
    | ok m' =>
      rw [hrun] at honto
      exact ⟨m', rfl, length_of_run hheight hrun, honto⟩

/-- A value is written to memory and memory is read again next to an immutable, with two words
below that the call would take if it reached beyond its operands. -/
theorem run_accepted_call :
    let code : Code := [.dup 2, .swap 1, .mstore, .pushSymbol (.immutable "cap_0"), .swap 1,
      .mload, .call "convert" 2 1]
    let m : Machine := { stack := [0x40, 7], immutables := [("cap_0", 9)] }
    ∃ m', m.run code = .ok m' ∧ m'.stack.length = 1 ∧
      (m.onto [1, 2]).run code = .ok (m'.onto [1, 2]) := by
  intro code m
  have haccept : code.foldlM CodeSection.append (CodeSection.ofHeight 2) =
      .ok ⟨code.toArray, 1⟩ := rfl
  have hserves : (m.onto [1, 2]).ServesRun code := by decide
  refine (run_accepted haccept (fun n hn => ?_) rfl [1, 2]).2 hserves
  simp only [code, List.mem_cons, reduceCtorEq, Instruction.dup.injEq, List.not_mem_nil,
    or_false] at hn
  omega

end Machine

end WordPlaces
