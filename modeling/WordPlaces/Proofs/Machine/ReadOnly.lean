import WordPlaces.Proofs.Emit.Reach
import WordPlaces.Proofs.Machine.Frame

/-!
# Code that only reads

An instruction that only reads leaves all of the machine as it is, but for the stack and for the memory
that it touches, which grows by zeros.  So does code that is made of such instructions.

## Main results

* `Machine.exists_run_eq` — code replaces its inputs by what it leaves, and does the same to the rest of
  the machine whatever lies below.
* `Machine.exists_eq_of_run` — what code that only reads leaves.
-/

set_option autoImplicit false

namespace WordPlaces

namespace Machine

variable {m m' : Machine} {code : Code}

/-- Code that has its inputs replaces them by what it leaves.  What it does besides does not depend on the
words below its inputs. -/
theorem exists_run_eq (m : Machine) {n k : Nat} (h : heightFrom n code = some k) {taken : List Word}
    (htaken : taken.length = n) :
    ∃ effect : Except MachineFault (Machine × List Word),
      (∀ m' left, effect = .ok (m', left) → left.length = k) ∧
      ∀ rest, (m.withStack (taken ++ rest)).run code =
        effect.map fun (m', left) => m'.withStack (left ++ rest) := by
  have hheight : heightFrom (m.withStack taken).stack.length code = some k := htaken ▸ h
  refine ⟨((m.withStack taken).run code).map fun m' => (m', m'.stack), fun m' left heffect => ?_,
    fun rest => ?_⟩
  · obtain ⟨m₁, hrun, heq⟩ := Except.exists_of_map_eq_ok heffect
    obtain ⟨-, rfl⟩ := Prod.mk.inj heq
    exact length_of_run hheight hrun
  · rw [← withStack_onto, run_onto rest hheight]
    cases (m.withStack taken).run code <;> rfl

/-! ## Reading -/

/-- Taking a word changes the stack only. -/
theorem stack_of_pop {x : Word × Machine} (h : m.pop = .ok x) : x.2 = { m with stack := x.2.stack } := by
  unfold pop at h
  split at h
  · contradiction
  · obtain rfl := Except.ok.inj h
    rfl

/-- An instruction that only reads changes the stack and the size of memory. -/
theorem exists_eq_of_step {op : Instruction} (hop : op.IsRead) (h : m.step op = .ok m') :
    ∃ size, m' = { m with stack := m'.stack, memory := m.memory.grow size } := by
  have hgrow : m.memory.grow 0 = m.memory := by
    rw [Memory.grow, Nat.max_zero]
  have hsame : m' = { m with stack := m'.stack } →
      ∃ size, m' = { m with stack := m'.stack, memory := m.memory.grow size } :=
    fun heq => ⟨0, by rw [hgrow]; exact heq⟩
  cases op with
  | call | mstore | mstore8 | sstore => exact hop.elim
  | push value =>
    obtain rfl := Except.ok.inj h
    exact hsame rfl
  | pushSymbol symbol =>
    cases symbol with
    | tag name =>
      obtain rfl := Except.ok.inj h
      exact hsame rfl
    | immutable name =>
      rw [step] at h
      split at h
      · obtain rfl := Except.ok.inj h
        exact hsame rfl
      · contradiction
  | dup n =>
    cases n with
    | zero => contradiction
    | succ n =>
      rw [step] at h
      split at h
      · obtain rfl := Except.ok.inj h
        exact hsame rfl
      · contradiction
  | swap n =>
    rw [step] at h
    split at h
    · obtain rfl := Except.ok.inj h
      exact hsame rfl
    · contradiction
  | pop =>
    obtain ⟨x, hpop, h⟩ := Except.exists_of_bind_eq_ok h
    obtain rfl := Except.ok.inj h
    exact hsame (stack_of_pop hpop)
  | unary | sload =>
    obtain ⟨x, hpop, h⟩ := Except.exists_of_bind_eq_ok h
    obtain rfl := Except.ok.inj h
    have hx := stack_of_pop hpop
    refine hsame ?_
    rw [hx]
    rfl
  | binary =>
    obtain ⟨x, hpop, h⟩ := Except.exists_of_bind_eq_ok h
    obtain ⟨y, hpop', h⟩ := Except.exists_of_bind_eq_ok h
    obtain rfl := Except.ok.inj h
    have hx := stack_of_pop hpop
    have hy := stack_of_pop hpop'
    refine hsame ?_
    rw [hy, hx]
    rfl
  | mload =>
    obtain ⟨x, hpop, h⟩ := Except.exists_of_bind_eq_ok h
    obtain ⟨address, -, h⟩ := Except.exists_of_bind_eq_ok h
    obtain ⟨_, -, h⟩ := Except.exists_of_bind_eq_ok h
    obtain rfl := Except.ok.inj h
    have hx := stack_of_pop hpop
    refine ⟨address + 32, ?_⟩
    rw [hx]
    rfl

/-- Code that only reads changes the stack and the size of memory. -/
theorem exists_eq_of_run (hcode : ∀ op ∈ code, op.IsRead) (h : m.run code = .ok m') :
    ∃ size, m' = { m with stack := m'.stack, memory := m.memory.grow size } := by
  induction code generalizing m with
  | nil =>
    obtain rfl := Except.ok.inj h
    refine ⟨0, ?_⟩
    rw [Memory.grow, Nat.max_zero]
  | cons op code ih =>
    obtain ⟨m₁, hstep, h⟩ := Except.exists_of_bind_eq_ok h
    obtain ⟨size, hfirst⟩ := exists_eq_of_step (hcode op List.mem_cons_self) hstep
    obtain ⟨size', hrest⟩ := ih (fun op' h' => hcode op' (List.mem_cons_of_mem _ h')) h
    refine ⟨max size size', ?_⟩
    rw [hrest, hfirst]
    simp only [Memory.grow, Nat.max_assoc]

end Machine

end WordPlaces
