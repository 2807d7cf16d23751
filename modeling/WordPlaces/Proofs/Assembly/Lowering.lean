import Mathlib
import WordPlaces.Assembly
import WordPlaces.Proofs.Except

/-!
# What lowering makes of an instruction

An instruction that the assembler knows becomes one operation, and a call of a routine becomes the
sequence that pushes where to return to and jumps.  Lowering is refused with a diagnostic for accesses
of transient storage, and it faults on stack instructions that reach too far.

## Main definitions

* `Lower.exec` — a computation that draws labels, as a function of the number of the next one.
* `Instruction.Encodable` — the instructions that can be lowered.
* `Instruction.isTransient`, `transientDiagnostic` — the instructions for which lowering is refused, and
  what the author of the code is told.
* `Instruction.asmSize` — how many operations an instruction becomes.
* `missingSwap` — the exchange for which a call with too many arguments faults.

## Main results

* `Instruction.Encodable.exec_lowerInstruction` — an instruction that can be lowered is.
* `exec_lowerInstruction_cases` — the three ways in which the lowering of an instruction ends.
* `exec_lowerCode_of_encodable` — code whose instructions can be lowered is, one after the other.
* `exec_lowerCode_ne_fault` — lowering faults on no instruction that can be lowered or is refused.
* `exec_lowerCode` — code is lowered, or refused for transient storage, if lowering faults nowhere.
* `returnLabel_inj` — return labels with different numbers differ.
-/

set_option autoImplicit false

namespace WordPlaces

/-! ## Drawing labels -/

/-- Runs a computation that draws labels, the next of which has number `n`. -/
def Lower.exec {α : Type} (x : Lower α) (n : Nat) : Except Failure α × Nat := (x.run n).run

namespace Lower

variable {α β : Type}

/-- A sequence runs its second part where the first one succeeds. -/
theorem exec_bind (x : Lower α) (f : α → Lower β) (n : Nat) :
    (x >>= f).exec n =
      match x.exec n with
      | (.ok a, n') => (f a).exec n'
      | (.error e, n') => (.error e, n') := by
  change (x.run n >>= fun y => ExceptT.bindCont f y.1 y.2) = _
  rw [exec]
  generalize x.run n = y
  obtain ⟨_ | _, _⟩ := y <;> rfl

/-- A result without drawing a label. -/
theorem exec_pure (a : α) (n : Nat) : (pure a : Lower α).exec n = (.ok a, n) := rfl

/-- A sequence whose first part succeeds goes on with the second one. -/
theorem exec_bind_of_ok {x : Lower α} {n n' : Nat} {a : α} (h : x.exec n = (.ok a, n'))
    (f : α → Lower β) : (x >>= f).exec n = (f a).exec n' := by
  rw [exec_bind, h]

/-- A sequence whose first part fails ends there. -/
theorem exec_bind_of_error {x : Lower α} {n n' : Nat} {e : Failure} (h : x.exec n = (.error e, n'))
    (f : α → Lower β) : (x >>= f).exec n = (.error e, n') := by
  rw [exec_bind, h]

end Lower

/-- The label that is drawn has the next number. -/
theorem exec_freshLabel (n : Nat) : freshLabel.exec n = (.ok (returnLabel n), n + 1) := rfl

/-- Return labels with different numbers differ. -/
theorem returnLabel_inj {k n : Nat} : returnLabel k = returnLabel n ↔ k = n := by
  refine ⟨fun h => ?_, congrArg returnLabel⟩
  have hrepr : "utility_return_" ++ k.repr = "utility_return_" ++ n.repr := h
  exact Nat.repr_inj.1 ((String.append_right_inj _).1 hrepr)

/-! ## Instructions -/

namespace Instruction

/-- The instructions that can be lowered: stack instructions reach sixteen slots, a call moves its
return label below no more than sixteen arguments, and there is no transient storage. -/
def Encodable : Instruction → Prop
  | .dup n | .swap n => 1 ≤ n ∧ n ≤ 16
  | .call _ inputs _ => inputs ≤ 16
  | .sload kind | .sstore kind => kind = .persistent
  | _ => True

/-- The instruction accesses transient storage. -/
def isTransient : Instruction → Bool
  | .sload .transient | .sstore .transient => true
  | _ => false

/-- How many operations an instruction becomes. -/
def asmSize : Instruction → Nat
  | .call _ inputs _ => inputs + 5
  | _ => 1

/-- How many return labels an instruction draws. -/
def returnLabels : Instruction → Nat
  | .call .. => 1
  | _ => 0

end Instruction

/-- What the author of code that accesses transient storage is told. -/
def transientDiagnostic (span : Span) : Diagnostic :=
  .unimplementedWithHelp
    "Transient storage opcodes are not available in the london instruction set."
    "use persistent storage for this variable" span

/-! ## Exchanges -/

/-- The exchanges that move the top slot below the `count` slots under it. -/
def sinkOps : Nat → List AsmOp
  | 0 => []
  | count + 1 => .swap (count + 1) :: sinkOps count

/-- Moving a return address takes one exchange for each operand. -/
theorem length_sinkOps (count : Nat) : (sinkOps count).length = count := by
  induction count with
  | zero => rfl
  | succ count ih => rw [sinkOps, List.length_cons, ih]

/-- Moving a return address defines no label. -/
theorem label_notMem_sinkOps (l : Label) (count : Nat) : .label l ∉ sinkOps count := by
  induction count with
  | zero => exact List.not_mem_nil
  | succ count ih => simpa [sinkOps] using ih

/-- The top slot can be moved below sixteen slots. -/
theorem sinkTop_eq_ok {count : Nat} (h : count ≤ 16) : sinkTop count = .ok (sinkOps count) := by
  induction count with
  | zero => rfl
  | succ count ih =>
    have hswap : AsmOp.swap? ((count + 1) % 256) = .ok (.swap (count + 1)) := by
      rw [Nat.mod_eq_of_lt (by omega), AsmOp.swap?, if_pos ⟨by omega, h⟩]
    rw [sinkTop, hswap, ih (by omega)]
    rfl

/-- The number of the exchange that is not there among those for more than sixteen slots.  Numbers are
kept in one byte, and those that are smaller than a multiple of 256 count down to zero. -/
def missingSwap (count : Nat) : Nat := if count % 256 ≤ stackWindow then 0 else count % 256

/-- The top slot cannot be moved below more than sixteen slots. -/
theorem sinkTop_eq_error {count : Nat} (h : 16 < count) :
    sinkTop count = .error (.swapOutOfRange (missingSwap count)) := by
  induction count with
  | zero => contradiction
  | succ count ih =>
    rw [sinkTop, AsmOp.swap?, missingSwap, stackWindow]
    split
    · -- The number of this exchange is cut to one byte, and a later one is cut to zero.
      have hmissing : missingSwap count = 0 := if_pos (by rw [stackWindow]; omega)
      rw [ih (by omega), hmissing, if_pos (by omega)]
      rfl
    · split
      · have hzero : (count + 1) % 256 = 0 := by omega
        rw [hzero]
        rfl
      · rfl

/-! ## The lowering of an instruction -/

section Lowering

variable (span : Span) (n : Nat)

/-- The operations of a call that returns to label number `n`. -/
def callOps (routine : Label) (inputs : Nat) : List AsmOp :=
  .pushLabel (returnLabel n) :: (sinkOps inputs ++
    [.pushLabel routine, .jump, .label (returnLabel n), .jumpDest])

/-- How long a call is. -/
theorem length_callOps (routine : Label) (inputs : Nat) :
    (callOps n routine inputs).length = inputs + 5 := by
  simp [callOps, length_sinkOps]

/-- The operations of a call and of what comes after it. -/
theorem callOps_append (routine : Label) (inputs : Nat) (code : List AsmOp) :
    callOps n routine inputs ++ code =
      .pushLabel (returnLabel n) :: (sinkOps inputs ++
        (.pushLabel routine :: .jump :: .label (returnLabel n) :: .jumpDest :: code)) := by
  simp [callOps]

/-- A call with operands in reach is lowered and draws one label. -/
theorem exec_lowerInstruction_call {inputs : Nat} (h : inputs ≤ 16) (routine : Label)
    (outputs : Nat) :
    (lowerInstruction span (.call routine inputs outputs)).exec n =
      (.ok (callOps n routine inputs), n + 1) := by
  rw [lowerInstruction, Lower.exec_bind_of_ok (exec_freshLabel n), sinkTop_eq_ok h]
  rfl

/-- A call with more than sixteen arguments is not lowered, after its label is drawn. -/
theorem exec_lowerInstruction_call_of_lt {inputs : Nat} (h : 16 < inputs) (routine : Label)
    (outputs : Nat) :
    (lowerInstruction span (.call routine inputs outputs)).exec n =
      (.error (.fault (.swapOutOfRange (missingSwap inputs))), n + 1) := by
  rw [lowerInstruction, Lower.exec_bind_of_ok (exec_freshLabel n), sinkTop_eq_error h]
  rfl

/-- An instruction that can be lowered is, and becomes as many operations as its size says. -/
theorem Instruction.Encodable.exec_lowerInstruction {op : Instruction} (h : op.Encodable) :
    ∃ ops, (lowerInstruction span op).exec n = (.ok ops, n + op.returnLabels) ∧
      ops.length = op.asmSize := by
  cases op with
  | call routine inputs outputs =>
    exact ⟨_, exec_lowerInstruction_call span n h routine outputs, length_callOps n routine inputs⟩
  | dup k =>
    have hdup : AsmOp.dup? k = .ok (.dup k) := if_pos h
    exact ⟨[.dup k], by rw [lowerInstruction, hdup]; rfl, rfl⟩
  | swap k =>
    have hswap : AsmOp.swap? k = .ok (.swap k) := if_pos h
    exact ⟨[.swap k], by rw [lowerInstruction, hswap]; rfl, rfl⟩
  | sload kind | sstore kind =>
    obtain rfl : kind = .persistent := h
    exact ⟨_, rfl, rfl⟩
  | pushSymbol symbol => cases symbol <;> exact ⟨_, rfl, rfl⟩
  | _ => exact ⟨_, rfl, rfl⟩

/-- The three ways in which the lowering of an instruction ends, whatever the next label is: it is
refused for an access of transient storage, it faults, or it succeeds. -/
theorem exec_lowerInstruction_cases (op : Instruction) :
    (op.isTransient = true ∧ ∀ n, (lowerInstruction span op).exec n =
        (.error (.diagnostic (transientDiagnostic span)), n)) ∨
      (op.isTransient = false ∧
        ∃ f, ∀ n, ∃ n', (lowerInstruction span op).exec n = (.error (.fault f), n')) ∨
      (op.isTransient = false ∧
        ∀ n, ∃ ops n', (lowerInstruction span op).exec n = (.ok ops, n')) := by
  cases op with
  | call routine inputs outputs =>
    right
    simp only [lowerInstruction, Lower.exec_bind_of_ok (exec_freshLabel _)]
    cases sinkTop inputs with
    | ok sink => exact .inr ⟨rfl, fun n => ⟨_, _, rfl⟩⟩
    | error f => exact .inl ⟨rfl, f, fun n => ⟨_, rfl⟩⟩
  | dup k =>
    right
    rw [lowerInstruction]
    cases AsmOp.dup? k with
    | ok op => exact .inr ⟨rfl, fun n => ⟨_, _, rfl⟩⟩
    | error f => exact .inl ⟨rfl, f, fun n => ⟨_, rfl⟩⟩
  | swap k =>
    right
    rw [lowerInstruction]
    cases AsmOp.swap? k with
    | ok op => exact .inr ⟨rfl, fun n => ⟨_, _, rfl⟩⟩
    | error f => exact .inl ⟨rfl, f, fun n => ⟨_, rfl⟩⟩
  | sload kind | sstore kind =>
    cases kind with
    | persistent => exact .inr (.inr ⟨rfl, fun n => ⟨_, _, rfl⟩⟩)
    | transient => exact .inl ⟨rfl, fun n => rfl⟩
  | pushSymbol symbol => cases symbol <;> exact .inr (.inr ⟨rfl, fun n => ⟨_, _, rfl⟩⟩)
  | _ => exact .inr (.inr ⟨rfl, fun n => ⟨_, _, rfl⟩⟩)

end Lowering

/-! ## The lowering of code -/

section Code

variable {span : Span} {n : Nat}

/-- Code is lowered instruction by instruction. -/
theorem exec_lowerCode_cons {op : Instruction} {ops : List AsmOp} {n' : Nat}
    (h : (lowerInstruction span op).exec n = (.ok ops, n')) (code : Code) :
    (lowerCode span (op :: code)).exec n =
      (((lowerCode span code).exec n').1.map (ops ++ ·), ((lowerCode span code).exec n').2) := by
  rw [lowerCode, Lower.exec_bind_of_ok h, Lower.exec_bind]
  rcases (lowerCode span code).exec n' with ⟨_ | _, _⟩ <;> rfl

/-- One part of the code is lowered after the other. -/
theorem exec_lowerCode_append {code : Code} {ops : List AsmOp} {n' : Nat}
    (h : (lowerCode span code).exec n = (.ok ops, n')) (code' : Code) :
    (lowerCode span (code ++ code')).exec n =
      (((lowerCode span code').exec n').1.map (ops ++ ·), ((lowerCode span code').exec n').2) := by
  induction code generalizing n ops with
  | nil =>
    obtain ⟨hops, rfl⟩ := Prod.mk.inj h
    obtain rfl := Except.ok.inj hops
    rcases hcode : (lowerCode span code').exec n with ⟨_ | _, _⟩ <;>
      simp only [List.nil_append, hcode, Except.map]
  | cons op code ih =>
    rcases hop : (lowerInstruction span op).exec n with ⟨f | ops₁, k⟩
    · have hcode : (lowerCode span (op :: code)).exec n = (.error f, k) :=
        Lower.exec_bind_of_error hop _
      exact absurd (congrArg Prod.fst (hcode.symm.trans h)) nofun
    · rw [exec_lowerCode_cons hop] at h
      obtain ⟨hops, hn⟩ := Prod.mk.inj h
      obtain ⟨ops₂, hrest, rfl⟩ := Except.exists_of_map_eq_ok hops
      rw [List.cons_append, exec_lowerCode_cons hop, ih (Prod.ext hrest hn)]
      rcases (lowerCode span code').exec n' with ⟨_ | _, _⟩ <;>
        simp only [Except.map, List.append_assoc]

/-- Code that starts with a part that cannot be lowered fails as that part does. -/
theorem exec_lowerCode_append_of_error {code : Code} {e : Failure} {n' : Nat}
    (h : (lowerCode span code).exec n = (.error e, n')) (code' : Code) :
    (lowerCode span (code ++ code')).exec n = (.error e, n') := by
  induction code generalizing n with
  | nil => exact absurd (congrArg Prod.fst h) nofun
  | cons op code ih =>
    rcases hop : (lowerInstruction span op).exec n with ⟨f | ops, k⟩
    · exact (Lower.exec_bind_of_error hop _).trans ((Lower.exec_bind_of_error hop _).symm.trans h)
    · rw [exec_lowerCode_cons hop] at h
      rw [List.cons_append, exec_lowerCode_cons hop]
      rcases hrest : (lowerCode span code).exec k with ⟨f | ops', k'⟩
      · rw [hrest] at h
        rw [ih (hrest.trans h)]
        rfl
      · rw [hrest] at h
        exact absurd (congrArg Prod.fst h) nofun

/-- Code whose instructions can be lowered is, and each instruction becomes the operations that it
becomes alone. -/
theorem exec_lowerCode_of_encodable (span : Span) (n : Nat) {code : Code}
    (h : ∀ op ∈ code, op.Encodable) :
    ∃ chunks n', (lowerCode span code).exec n = (.ok chunks.flatten, n') ∧
      List.Forall₂ (fun op chunk =>
        (∃ k, (lowerInstruction span op).exec k = (.ok chunk, k + op.returnLabels)) ∧
          chunk.length = op.asmSize) code chunks := by
  induction code generalizing n with
  | nil => exact ⟨[], n, rfl, .nil⟩
  | cons op code ih =>
    obtain ⟨ops, hops, hsize⟩ := (h op List.mem_cons_self).exec_lowerInstruction span n
    obtain ⟨chunks, n', hchunks, hall⟩ :=
      ih (n + op.returnLabels) fun op' h' => h op' (List.mem_cons_of_mem _ h')
    refine ⟨ops :: chunks, n', ?_, .cons ⟨⟨n, hops⟩, hsize⟩ hall⟩
    rw [exec_lowerCode_cons hops, hchunks, List.flatten_cons]
    rfl

/-- The lowering of code that starts with an instruction that cannot be lowered fails as that does. -/
theorem exec_lowerCode_cons_of_error {op : Instruction} {e : Failure} {n' : Nat}
    (h : (lowerInstruction span op).exec n = (.error e, n')) (code : Code) :
    (lowerCode span (op :: code)).exec n = (.error e, n') :=
  Lower.exec_bind_of_error h _

/-- Lowering does not fault on code whose instructions can be lowered, those on transient storage apart. -/
theorem exec_lowerCode_ne_fault {code : Code}
    (h : ∀ op ∈ code, op.isTransient = false → op.Encodable) (f : Fault) :
    ((lowerCode span code).exec n).1 ≠ .error (.fault f) := by
  induction code generalizing n with
  | nil => exact fun hf => by contradiction
  | cons op code ih =>
    cases hop : op.isTransient with
    | true =>
      obtain ⟨-, htransient⟩ | ⟨hpersistent, -⟩ | ⟨hpersistent, -⟩ := exec_lowerInstruction_cases span op
      · rw [exec_lowerCode_cons_of_error (htransient n)]
        simp
      all_goals
        rw [hop] at hpersistent
        contradiction
    | false =>
      obtain ⟨asm, hasm, -⟩ := (h op List.mem_cons_self hop).exec_lowerInstruction span n
      rw [exec_lowerCode_cons hasm]
      intro hf
      refine ih (n := n + op.returnLabels) (fun op' h' => h op' (List.mem_cons_of_mem _ h')) ?_
      cases hrest : ((lowerCode span code).exec (n + op.returnLabels)).1 with
      | ok rest =>
        rw [hrest] at hf
        contradiction
      | error e =>
        rw [hrest] at hf
        exact hf

/-- Code on which lowering does not fault from one label on is lowered from any label on, or refused for
an access of transient storage. -/
theorem exec_lowerCode {code : Code}
    (h : ∀ f, ((lowerCode span code).exec n).1 ≠ .error (.fault f)) (k : Nat) :
    (code.any Instruction.isTransient = false ∧
        ∃ ops k', (lowerCode span code).exec k = (.ok ops, k')) ∨
      (code.any Instruction.isTransient = true ∧
        ∃ k', (lowerCode span code).exec k =
          (.error (.diagnostic (transientDiagnostic span)), k')) := by
  induction code generalizing n k with
  | nil => exact .inl ⟨rfl, _, _, rfl⟩
  | cons op code ih =>
    rw [List.any_cons]
    rcases exec_lowerInstruction_cases span op with ⟨hop, he⟩ | ⟨hop, f, he⟩ | ⟨hop, he⟩
    · exact .inr ⟨by rw [hop, Bool.true_or], k, exec_lowerCode_cons_of_error (he k) code⟩
    · obtain ⟨n', hn⟩ := he n
      exact absurd (congrArg Prod.fst (exec_lowerCode_cons_of_error hn code)) (h f)
    · obtain ⟨ops, n', hn⟩ := he n
      obtain ⟨ops', k', hk⟩ := he k
      rw [exec_lowerCode_cons hn] at h
      have hrest : ∀ f, ((lowerCode span code).exec n').1 ≠ .error (.fault f) := by
        intro f hf
        exact h f (by rw [hf]; rfl)
      rw [hop, Bool.false_or, exec_lowerCode_cons hk]
      rcases ih hrest k' with ⟨hcode, ops'', k'', hrun⟩ | ⟨hcode, k'', hrun⟩
      · exact .inl ⟨hcode, _, _, by rw [hrun]; rfl⟩
      · exact .inr ⟨hcode, _, by rw [hrun]; rfl⟩

end Code

end WordPlaces
