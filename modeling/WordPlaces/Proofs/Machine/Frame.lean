import Mathlib.Data.List.Basic
import WordPlaces.Proofs.Emit.Emission
import WordPlaces.Proofs.Except
import WordPlaces.Proofs.Machine.Step

/-!
# Words below the stack

An instruction reaches no deeper into the stack than the inputs it declares.  So code that has
its inputs runs in the same way whatever lies below them, and leaves it as it was.

## Main definitions

* `Machine.onto` — the machine with further words below its stack.

## Main results

* `Machine.run_onto` — a run is not affected by what lies below the inputs of its code.
* `Machine.length_of_run` — the height that is counted while code is emitted is that of the stack
  when it is executed.
* `Emit.exists_run_eq_ok` — what the code of a computation leaves of a machine.
-/

set_option autoImplicit false

namespace WordPlaces

namespace Machine

/-- The machine with further words below its stack. -/
def onto (m : Machine) (below : List Word) : Machine := m.withStack (m.stack ++ below)

/-- A stack that was put in place lies on the words below it. -/
@[simp] theorem withStack_onto (m : Machine) (stack below : List Word) :
    (m.withStack stack).onto below = m.withStack (stack ++ below) := rfl

/-- The words below a machine lie at the bottom of its stack. -/
@[simp] theorem onto_stack (m : Machine) (below : List Word) :
    (m.onto below).stack = m.stack ++ below := rfl

/-! ## One instruction -/

/-- An instruction replaces its inputs by its outputs.  What it does besides does not depend on
the words below its inputs. -/
theorem exists_step_eq (m : Machine) {op : Instruction} {taken : List Word}
    (h : taken.length = op.inputs) :
    ∃ effect : Except MachineFault (Machine × List Word),
      (∀ m' left, effect = .ok (m', left) → left.length = op.outputs) ∧
      ∀ rest, (m.withStack (taken ++ rest)).step op =
        effect.map fun (m', left) => m'.withStack (left ++ rest) := by
  cases op with
  | push value =>
    obtain rfl := List.length_eq_zero_iff.1 h
    exact ⟨.ok (m, [value]), by rintro _ _ ⟨⟩; rfl, fun rest => rfl⟩
  | pushSymbol symbol =>
    obtain rfl := List.length_eq_zero_iff.1 h
    cases symbol with
    | tag name => exact ⟨.ok (m, [tagWord]), by rintro _ _ ⟨⟩; rfl, fun rest => rfl⟩
    | immutable name =>
      cases hname : m.immutables.lookup name with
      | none =>
        refine ⟨.error (.unlinkedImmutable name), by rintro _ _ ⟨⟩, fun rest => ?_⟩
        simp only [step, withStack, hname]
        rfl
      | some value =>
        refine ⟨.ok (m, [value]), by rintro _ _ ⟨⟩; rfl, fun rest => ?_⟩
        simp only [step, withStack, hname]
        rfl
  | pop =>
    obtain ⟨a, rfl⟩ := List.length_eq_one_iff.1 h
    exact ⟨.ok (m, []), by rintro _ _ ⟨⟩; rfl, fun rest => rfl⟩
  | dup n =>
    cases n with
    | zero => exact ⟨.error .noSuchSlot, by rintro _ _ ⟨⟩, fun rest => rfl⟩
    | succ n =>
      have hn : n < taken.length := by simp only [h, Instruction.inputs]; omega
      refine ⟨.ok (m, taken[n] :: taken), by rintro _ _ ⟨⟩; exact congrArg (· + 1) h,
        fun rest => ?_⟩
      rw [step_dup _ (by simp; omega), List.getElem_append_left hn]
      rfl
  | swap n =>
    have hn : n < taken.length := by simp only [h, Instruction.inputs]; omega
    refine ⟨.ok (m, (taken.set 0 taken[n]).set n taken[0]), ?_, fun rest => ?_⟩
    · rintro _ _ ⟨⟩
      rw [List.length_set, List.length_set]
      exact h
    · rw [step_swap _ (by simp; omega), List.getElem_append_left hn,
        List.getElem_append_left (by omega), List.set_append_left _ _ (by omega),
        List.set_append_left _ _ (by simpa using hn)]
      rfl
  | unary op =>
    obtain ⟨a, rfl⟩ := List.length_eq_one_iff.1 h
    exact ⟨.ok (m, [evalUnary op a]), by rintro _ _ ⟨⟩; rfl, fun rest => rfl⟩
  | binary op =>
    obtain ⟨a, b, rfl⟩ := List.length_eq_two.1 h
    exact ⟨.ok (m, [evalBinary op a b]), by rintro _ _ ⟨⟩; rfl, fun rest => rfl⟩
  | mload =>
    obtain ⟨a, rfl⟩ := List.length_eq_one_iff.1 h
    refine ⟨(access a 32).map fun address =>
      (m.touch address, [m.memory.loadWord address]), ?_, ?_⟩
    · intro m' left hleft
      obtain ⟨address, -, ⟨⟩⟩ := Except.exists_of_map_eq_ok hleft
      rfl
    · intro rest
      rw [List.cons_append, step_mload]
      cases access a 32 <;> rfl
  | mstore =>
    obtain ⟨a, b, rfl⟩ := List.length_eq_two.1 h
    refine ⟨(access a 32).map fun address =>
      ({ m with memory := m.memory.storeWord address b }, []), ?_, ?_⟩
    · intro m' left hleft
      obtain ⟨address, -, ⟨⟩⟩ := Except.exists_of_map_eq_ok hleft
      rfl
    · intro rest
      rw [List.cons_append, List.cons_append, step_mstore]
      cases access a 32 <;> rfl
  | mstore8 =>
    obtain ⟨a, b, rfl⟩ := List.length_eq_two.1 h
    refine ⟨(access a 1).map fun address =>
      ({ m with memory := m.memory.storeByte address (b.byteAt 0) }, []), ?_, ?_⟩
    · intro m' left hleft
      obtain ⟨address, -, ⟨⟩⟩ := Except.exists_of_map_eq_ok hleft
      rfl
    · intro rest
      rw [List.cons_append, List.cons_append, step_mstore8]
      cases access a 1 <;> rfl
  | sload kind =>
    obtain ⟨a, rfl⟩ := List.length_eq_one_iff.1 h
    exact ⟨.ok (m, [(m.storage kind).read a]), by rintro _ _ ⟨⟩; rfl,
      fun rest => step_sload m a rest kind⟩
  | sstore kind =>
    obtain ⟨a, b, rfl⟩ := List.length_eq_two.1 h
    exact ⟨.ok (m.writeStorage kind a b, []), by rintro _ _ ⟨⟩; rfl,
      fun rest => step_sstore m a b rest kind⟩
  | call routine inputs outputs =>
    refine ⟨.ok ({ m with calls := m.calls ++ [routine] }, List.replicate outputs 0), ?_, ?_⟩
    · rintro _ _ ⟨⟩
      exact List.length_replicate
    · intro rest
      have hdrop : (taken ++ rest).drop inputs = rest := List.drop_left' h
      have hin : inputs ≤ (taken ++ rest).length := by
        rw [List.length_append]
        exact Nat.le_add_right_of_le (Nat.le_of_eq h.symm)
      rw [step_call m routine outputs hin, hdrop]
      rfl

/-- An instruction that has its inputs acts in the same way whatever lies below them, and leaves
its outputs in their place. -/
theorem step_onto {m : Machine} {op : Instruction} (below : List Word)
    (h : op.inputs ≤ m.stack.length) :
    (m.onto below).step op = (m.step op).map (·.onto below) ∧
      ∀ m', m.step op = .ok m' → m'.stack.length = m.stack.length - op.inputs + op.outputs := by
  obtain ⟨effect, hlength, heffect⟩ := exists_step_eq m (List.length_take_of_le h)
  have hstep : m.step op = effect.map fun x => x.1.withStack (x.2 ++ m.stack.drop op.inputs) := by
    rw [← heffect, List.take_append_drop, withStack_self]
  have hbelow : (m.onto below).step op =
      effect.map fun x => x.1.withStack (x.2 ++ (m.stack.drop op.inputs ++ below)) := by
    rw [← heffect, ← List.append_assoc, List.take_append_drop]
    rfl
  rw [hbelow, hstep]
  cases effect with
  | error f => exact ⟨rfl, by rintro _ ⟨⟩⟩
  | ok x =>
    refine ⟨congrArg Except.ok (by simp), ?_⟩
    rintro _ ⟨⟩
    have := hlength x.1 x.2 rfl
    simp only [withStack_stack, List.length_append, List.length_drop]
    omega

/-! ## Runs -/

section Run

variable {h' : Nat} {code : Code}

/-- Code that has its inputs runs in the same way whatever lies below them. -/
theorem run_onto {m : Machine} (below : List Word)
    (h : heightFrom m.stack.length code = some h') :
    (m.onto below).run code = (m.run code).map (·.onto below) := by
  induction code generalizing m with
  | nil => rfl
  | cons op code ih =>
    obtain ⟨hin, hcode⟩ := inputs_le_of_heightFrom h
    rw [run_cons, run_cons, (step_onto below hin).1]
    cases hstep : m.step op with
    | error f => rfl
    | ok m₁ =>
      rw [← (step_onto below hin).2 m₁ hstep] at hcode
      exact ih hcode

/-- The height that is counted while code is emitted is that of the stack when it is executed. -/
theorem length_of_run {m m' : Machine} (h : heightFrom m.stack.length code = some h')
    (hm : m.run code = .ok m') : m'.stack.length = h' := by
  induction code generalizing m with
  | nil =>
    obtain rfl := Except.ok.inj hm
    exact Option.some.inj h
  | cons op code ih =>
    obtain ⟨hin, hcode⟩ := inputs_le_of_heightFrom h
    rw [run_cons] at hm
    cases hstep : m.step op with
    | error f => rw [hstep] at hm; contradiction
    | ok m₁ =>
      rw [hstep] at hm
      rw [← (step_onto [] hin).2 m₁ hstep] at hcode
      exact ih hcode hm

end Run

end Machine

/-! ## Code that was emitted -/

/-- A computation that succeeds, and a machine that its code leaves. -/
theorem Emit.exists_run_eq_ok {β : Type} {sc : Scope} {out : Output} {c : Emit Unit} {m : Machine}
    {f : Machine → β} {b : β} (hexec : (c.exec sc out).1.toBool = true)
    (hrun : (m.run (c.exec sc out).2.code.ops.toList).map f = .ok b) :
    ∃ out' m', c.exec sc out = (.ok (), out') ∧ m.run out'.code.ops.toList = .ok m' ∧ b = f m' := by
  obtain ⟨out', hout⟩ := exists_exec_eq_ok hexec
  rw [hout] at hrun
  obtain ⟨m', hm, hb⟩ := Except.exists_of_map_eq_ok hrun
  exact ⟨out', m', hout, hm, hb⟩

end WordPlaces
