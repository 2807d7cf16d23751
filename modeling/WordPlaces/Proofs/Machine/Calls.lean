import WordPlaces.Machine.Basic
import WordPlaces.Proofs.Except

/-!
# The operands of calls

The machine notes which routines were called.  What a routine would find when it is called are the
operands on top of the stack.

## Main definitions

* `Machine.callsOf`, `Machine.handed` — the routines that an instruction, and a run, calls, each with
  the operands that it is handed.

## Main results

* `Machine.handed_append` — the calls of two pieces of code are made one after the other.
* `Machine.calls_of_run` — the routines are those that the machine notes.
-/

set_option autoImplicit false

namespace WordPlaces

namespace Machine

/-- The routine that an instruction calls, and the operands that it takes, the top first. -/
def callsOf (m : Machine) : Instruction → List (String × List Word)
  | .call routine inputs _ => [(routine, m.stack.take inputs)]
  | _ => []

/-- The routines that a run calls, in order, each with the operands that it takes, the top first. -/
def handed (m : Machine) : Code → List (String × List Word)
  | [] => []
  | op :: code =>
    m.callsOf op ++
      match m.step op with
      | .error _ => []
      | .ok m' => m'.handed code

/-! ## One instruction -/

/-- Taking a word from the stack calls no routine. -/
theorem calls_of_pop {m : Machine} {x : Word × Machine} (h : m.pop = .ok x) : x.2.calls = m.calls := by
  unfold pop at h
  split at h
  · contradiction
  · obtain rfl := Except.ok.inj h
    rfl

/-- An instruction notes the routine that it calls. -/
theorem calls_of_step {m m' : Machine} {op : Instruction} (h : m.step op = .ok m') :
    m'.calls = m.calls ++ (m.callsOf op).map Prod.fst := by
  cases op with
  | call routine inputs outputs =>
    obtain ⟨m₁, hdrop, h⟩ := Except.exists_of_bind_eq_ok h
    obtain rfl := Except.ok.inj h
    unfold drop at hdrop
    split at hdrop
    · obtain rfl := Except.ok.inj hdrop
      rfl
    · contradiction
  | push value =>
    obtain rfl := Except.ok.inj h
    exact (List.append_nil _).symm
  | pushSymbol symbol =>
    cases symbol with
    | tag name =>
      obtain rfl := Except.ok.inj h
      exact (List.append_nil _).symm
    | immutable name =>
      rw [step] at h
      split at h
      · obtain rfl := Except.ok.inj h
        exact (List.append_nil _).symm
      · contradiction
  | dup n =>
    cases n with
    | zero => contradiction
    | succ n =>
      rw [step] at h
      split at h
      · obtain rfl := Except.ok.inj h
        exact (List.append_nil _).symm
      · contradiction
  | swap n =>
    rw [step] at h
    split at h
    · obtain rfl := Except.ok.inj h
      exact (List.append_nil _).symm
    · contradiction
  | pop | unary | sload =>
    obtain ⟨x, hpop, h⟩ := Except.exists_of_bind_eq_ok h
    obtain rfl := Except.ok.inj h
    exact (calls_of_pop hpop).trans (List.append_nil _).symm
  | binary =>
    obtain ⟨x, hpop, h⟩ := Except.exists_of_bind_eq_ok h
    obtain ⟨y, hpop', h⟩ := Except.exists_of_bind_eq_ok h
    obtain rfl := Except.ok.inj h
    exact ((calls_of_pop hpop').trans (calls_of_pop hpop)).trans (List.append_nil _).symm
  | sstore kind =>
    obtain ⟨x, hpop, h⟩ := Except.exists_of_bind_eq_ok h
    obtain ⟨y, hpop', h⟩ := Except.exists_of_bind_eq_ok h
    obtain rfl := Except.ok.inj h
    have hwrite : (y.2.writeStorage kind x.1 y.1).calls = y.2.calls := by cases kind <;> rfl
    exact (hwrite.trans ((calls_of_pop hpop').trans (calls_of_pop hpop))).trans
      (List.append_nil _).symm
  | mload =>
    obtain ⟨x, hpop, h⟩ := Except.exists_of_bind_eq_ok h
    obtain ⟨address, -, h⟩ := Except.exists_of_bind_eq_ok h
    obtain ⟨_, -, h⟩ := Except.exists_of_bind_eq_ok h
    obtain rfl := Except.ok.inj h
    exact (calls_of_pop hpop).trans (List.append_nil _).symm
  | mstore | mstore8 =>
    obtain ⟨x, hpop, h⟩ := Except.exists_of_bind_eq_ok h
    obtain ⟨address, -, h⟩ := Except.exists_of_bind_eq_ok h
    obtain ⟨y, hpop', h⟩ := Except.exists_of_bind_eq_ok h
    obtain ⟨_, -, h⟩ := Except.exists_of_bind_eq_ok h
    obtain rfl := Except.ok.inj h
    exact ((calls_of_pop hpop').trans (calls_of_pop hpop)).trans (List.append_nil _).symm

/-! ## Runs -/

section Run

variable {m m' : Machine} {code : Code}

/-- The calls of two pieces of code are made one after the other. -/
theorem handed_append (h : m.run code = .ok m') (code' : Code) :
    m.handed (code ++ code') = m.handed code ++ m'.handed code' := by
  induction code generalizing m with
  | nil =>
    obtain rfl := Except.ok.inj h
    rfl
  | cons op code ih =>
    obtain ⟨m₁, hstep, h⟩ := Except.exists_of_bind_eq_ok h
    rw [List.cons_append, handed, handed, hstep, List.append_assoc]
    exact congrArg (m.callsOf op ++ ·) (ih h)

/-- The routines that a run calls are those that the machine notes. -/
theorem calls_of_run (h : m.run code = .ok m') :
    m'.calls = m.calls ++ (m.handed code).map Prod.fst := by
  induction code generalizing m with
  | nil =>
    obtain rfl := Except.ok.inj h
    exact (List.append_nil _).symm
  | cons op code ih =>
    obtain ⟨m₁, hstep, h⟩ := Except.exists_of_bind_eq_ok h
    rw [ih h, calls_of_step hstep, handed, hstep, List.map_append, List.append_assoc]

/-- A run after which no more calls are noted makes none. -/
theorem handed_eq_nil (h : m.run code = .ok m') (hcalls : m'.calls = m.calls) :
    m.handed code = [] := by
  rw [calls_of_run h] at hcalls
  exact List.map_eq_nil_iff.1 (List.append_right_eq_self.1 hcalls)

end Run

end Machine

end WordPlaces
