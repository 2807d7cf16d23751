import WordPlaces.Proofs.Assembly.Execution
import WordPlaces.Proofs.Assembly.Lowering
import WordPlaces.Proofs.Except

/-!
# Lowering preserves meaning

Assembled code does to the machine what the code it was made of does.

## Main definitions

* `AsmState.Follows` — execution from a state on comes to what the machine comes to.
* `LabelsBelow` — the return labels that operations define have numbers below a bound.

## Main results

* `Instruction.Encodable.operate_eq_step` — the operation that an instruction becomes does what the
  instruction does.
* `AsmState.reaches_sinkOps` — the exchanges before a call move the address to return to below the
  arguments.
* `AsmState.follows_callOps` — the operations of a call make the call and come back from it.
* `AsmState.follows_lowerCode` — the operations of code do what the code does, among other operations.
* `lowerSection_preserves_run` — a section that can be lowered is, and means the same.
-/

set_option autoImplicit false

namespace WordPlaces

/-! ## Labels -/

/-- The return labels that are defined among operations have numbers below a bound. -/
def LabelsBelow (n : Nat) (ops : List AsmOp) : Prop :=
  ∀ k, AsmOp.label (returnLabel k) ∈ ops → k < n

/-- The bound of labels may be raised. -/
theorem LabelsBelow.mono {n n' : Nat} {ops : List AsmOp} (h : LabelsBelow n ops) (hn : n ≤ n') :
    LabelsBelow n' ops :=
  fun k hk => Nat.lt_of_lt_of_le (h k hk) hn

/-- Two parts with labels below a bound, one after the other. -/
theorem LabelsBelow.append {n : Nat} {ops ops' : List AsmOp} (h : LabelsBelow n ops)
    (h' : LabelsBelow n ops') : LabelsBelow n (ops ++ ops') := by
  intro k hk
  rcases List.mem_append.1 hk with hk | hk
  · exact h k hk
  · exact h' k hk

/-- A place is found where its label is defined first. -/
theorem codeAt?_append {l : Label} {before : List AsmOp} (h : AsmOp.label l ∉ before)
    (code : List AsmOp) :
    codeAt? l (before ++ .label l :: .jumpDest :: code) = some (.jumpDest :: code) := by
  induction before with
  | nil => simp [codeAt?]
  | cons op before ih =>
    rw [List.mem_cons, not_or] at h
    rw [List.cons_append, codeAt?, if_neg (Ne.symm h.1), ih h.2]

/-- The placeholder of an immutable has the value of the immutable. -/
theorem Machine.linked?_placeholderLabel (m : Machine) (name : String) :
    m.linked? (placeholderLabel name) = m.immutables.lookup name := by
  rw [linked?]
  induction m.immutables with
  | nil => rfl
  | cons e rest ih =>
    have hlabel : (placeholderLabel name == placeholderLabel e.1) = (name == e.1) := by
      rw [Bool.eq_iff_iff, beq_iff_eq, beq_iff_eq]
      exact String.append_right_inj _
    rw [List.map_cons, List.lookup_cons, List.lookup_cons, hlabel, ih]

/-! ## Instructions that become one operation -/

section Operate

variable {op : Instruction}

/-- A stack with fewer slots has fewer words. -/
private theorem getElem?_map_value (stack : List Slot) (n : Nat) :
    (stack.map Slot.value)[n]? = stack[n]?.map Slot.value :=
  List.getElem?_map

/-- An instruction that can be lowered and calls no routine becomes one operation, which does to the
machine what the instruction does. -/
theorem Instruction.Encodable.operate_eq_step (h : op.Encodable) (hop : op.routines = [])
    (span : Span) (n : Nat) :
    ∃ a, (lowerInstruction span op).exec n = (.ok [a], n) ∧ a ≠ .jump ∧ (∀ l, a ≠ .label l) ∧
      ∀ (m : Machine) (stack : List Slot),
        (AsmState.operate m a stack).map (fun x => x.2.withStack (x.1.map Slot.value)) =
          ((m.withStack (stack.map Slot.value)).step op).toOption := by
  cases op with
  | call routine inputs outputs => simp [routines] at hop
  | push value =>
    exact ⟨.pushNumber value, rfl, by simp, by simp, fun m stack => rfl⟩
  | pushSymbol symbol =>
    cases symbol with
    | tag name => exact ⟨.pushLabel name, rfl, by simp, by simp, fun m stack => rfl⟩
    | immutable name =>
      refine ⟨.pushPlaceholder (placeholderLabel name), rfl, by simp, by simp, fun m stack => ?_⟩
      have hname : (m.withStack (stack.map Slot.value)).immutables = m.immutables := rfl
      rw [AsmState.operate, m.linked?_placeholderLabel, Machine.step, hname]
      cases m.immutables.lookup name <;> rfl
  | pop =>
    refine ⟨.pop, rfl, by simp, by simp, fun m stack => ?_⟩
    cases stack <;> rfl
  | dup k =>
    obtain ⟨k, rfl⟩ : ∃ j, k = j + 1 := ⟨k - 1, by have := h.1; omega⟩
    have hdup : AsmOp.dup? (k + 1) = .ok (.dup (k + 1)) := if_pos h
    refine ⟨.dup (k + 1), by rw [lowerInstruction, hdup]; rfl, by simp, by simp, fun m stack => ?_⟩
    simp only [AsmState.operate_dup, Machine.step, Machine.withStack_stack, getElem?_map_value]
    cases stack[k]? <;> rfl
  | swap k =>
    obtain ⟨k, rfl⟩ : ∃ j, k = j + 1 := ⟨k - 1, by have := h.1; omega⟩
    have hswap : AsmOp.swap? (k + 1) = .ok (.swap (k + 1)) := if_pos h
    refine ⟨.swap (k + 1), by rw [lowerInstruction, hswap]; rfl, by simp, by simp,
      fun m stack => ?_⟩
    cases stack with
    | nil => rfl
    | cons top below =>
      simp only [AsmState.operate_swap, Machine.step, Machine.withStack_stack, List.map_cons,
        List.getElem?_cons_zero, List.getElem?_cons_succ, getElem?_map_value]
      cases below[k]? with
      | none => rfl
      | some a => simp [Except.toOption, Machine.withStack, List.map_set]
  | unary u =>
    refine ⟨.unary u, rfl, by simp, by simp, fun m stack => ?_⟩
    cases stack <;> rfl
  | binary b =>
    refine ⟨.binary b, rfl, by simp, by simp, fun m stack => ?_⟩
    rcases stack with _ | ⟨_, _ | _⟩ <;> rfl
  | mload =>
    refine ⟨.mload, rfl, by simp, by simp, fun m stack => ?_⟩
    cases stack with
    | nil => rfl
    | cons a stack =>
      rw [List.map_cons, Machine.step_mload, AsmState.operate_mload]
      cases Machine.access a.value 32 <;> rfl
  | mstore =>
    refine ⟨.mstore, rfl, by simp, by simp, fun m stack => ?_⟩
    rcases stack with _ | ⟨a, _ | ⟨b, stack⟩⟩
    · rfl
    · simp only [Machine.step, Machine.pop, List.map_cons, List.map_nil,
        Machine.withStack_stack, bind, Except.bind]
      cases Machine.addressOf a.value <;> rfl
    · rw [List.map_cons, List.map_cons, Machine.step_mstore, AsmState.operate_mstore]
      cases Machine.access a.value 32 <;> rfl
  | mstore8 =>
    refine ⟨.mstore8, rfl, by simp, by simp, fun m stack => ?_⟩
    rcases stack with _ | ⟨a, _ | ⟨b, stack⟩⟩
    · rfl
    · simp only [Machine.step, Machine.pop, List.map_cons, List.map_nil,
        Machine.withStack_stack, bind, Except.bind]
      cases Machine.addressOf a.value <;> rfl
    · rw [List.map_cons, List.map_cons, Machine.step_mstore8, AsmState.operate_mstore8]
      cases Machine.access a.value 1 <;> rfl
  | sload kind =>
    obtain rfl : kind = .persistent := h
    refine ⟨.sload, rfl, by simp, by simp, fun m stack => ?_⟩
    cases stack <;> rfl
  | sstore kind =>
    obtain rfl : kind = .persistent := h
    refine ⟨.sstore, rfl, by simp, by simp, fun m stack => ?_⟩
    rcases stack with _ | ⟨_, _ | _⟩ <;> rfl

end Operate

namespace AsmState

/-! ## Following the machine -/

/-- Execution from a state on comes to what the machine comes to: it reaches the operations `rest` with
the calls `routines` to come, in a state that is read as that of the machine, or it gets stuck where
the machine faults. -/
def Follows (program rest : List AsmOp) (routines : List Routine) (s : AsmState) :
    Except MachineFault Machine → Prop
  | .ok m => ∃ s', Reaches program s s' ∧ s'.code = rest ∧ s'.routines = routines ∧ s'.view = m
  | .error _ => s.run program = none

section Follows

variable {program rest rest' : List AsmOp} {routines routines' : List Routine} {s s' : AsmState}
  {x : Except MachineFault Machine}

/-- What is followed from a state that is reached. -/
theorem Follows.of_reaches (h : Reaches program s s') (hs : s'.Follows program rest routines x) :
    s.Follows program rest routines x := by
  cases x with
  | ok m =>
    obtain ⟨t, hreach, ht⟩ := hs
    exact ⟨t, h.trans hreach, ht⟩
  | error f => exact (run_eq_of_reaches h).trans hs

/-- One part of the code after the other is followed. -/
theorem Follows.bind {f : Machine → Except MachineFault Machine}
    (h : s.Follows program rest routines x)
    (hf : ∀ t : AsmState, x = .ok t.view → t.code = rest → t.routines = routines →
      t.Follows program rest' routines' (f t.view)) :
    s.Follows program rest' routines' (x >>= f) := by
  cases x with
  | ok m =>
    obtain ⟨t, hreach, hcode, hroutines, rfl⟩ := h
    exact (hf t rfl hcode hroutines).of_reaches hreach
  | error f => exact h

/-- The result of a run that follows the machine to the end of the program. -/
theorem Follows.run_eq (h : s.Follows program [] routines x) :
    (s.run program).map view = x.toOption := by
  cases x with
  | ok m =>
    obtain ⟨t, hreach, hcode, -, rfl⟩ := h
    rw [run_eq_of_reaches hreach, run_of_code_eq_nil hcode]
    rfl
  | error f =>
    rw [show s.run program = none from h]
    rfl

end Follows

/-! ## Calls -/

section Call

variable {program : List AsmOp} {m : Machine} {routines : List Routine}

/-- The exchanges before a call move the top below the arguments, which keep their order. -/
theorem reaches_sinkOps (top : Slot) (args below : List Slot) (code : List AsmOp) :
    Reaches program ⟨sinkOps args.length ++ code, top :: (args ++ below), m, routines⟩
      ⟨code, args ++ top :: below, m, routines⟩ := by
  induction args using List.reverseRecOn generalizing top below with
  | nil => exact .refl _
  | append_singleton args a ih =>
    have hswap : operate m (.swap (args.length + 1)) (top :: (args ++ [a] ++ below)) =
        some (a :: (args ++ top :: below), m) := by
      simp [operate_swap, List.set_append_right]
    rw [List.length_append, List.length_singleton, sinkOps, List.cons_append]
    refine (reaches_of_operate (by simp) hswap _).trans ?_
    rw [List.append_assoc, List.singleton_append]
    exact ih a (top :: below)

/-- A call whose arguments are missing is stuck at its first exchange. -/
theorem run_sinkOps_eq_none {top : Slot} {stack : List Slot} {inputs : Nat}
    (h : stack.length < inputs) (code : List AsmOp) :
    (AsmState.mk (sinkOps inputs ++ code) (top :: stack) m routines).run program = none := by
  obtain ⟨count, rfl⟩ : ∃ count, inputs = count + 1 := ⟨inputs - 1, by omega⟩
  refine run_of_operate_eq_none (by simp) ?_ _
  rw [operate_swap, List.getElem?_eq_none (by omega)]
  rfl

variable {n inputs outputs : Nat} {routine : Label} {stack : List Slot}

/-- A call arrives at its jump with the address of the routine on top, the arguments in their order
below it, and below them the address to return to. -/
theorem reaches_jump (h : inputs ≤ stack.length) (code : List AsmOp) :
    Reaches program ⟨callOps n routine inputs ++ code, stack, m, routines⟩
      ⟨.jump :: .label (returnLabel n) :: .jumpDest :: code, .address routine ::
        (stack.take inputs ++ .address (returnLabel n) :: stack.drop inputs), m, routines⟩ := by
  obtain ⟨args, below, rfl, rfl⟩ : ∃ args below, stack = args ++ below ∧ args.length = inputs :=
    ⟨_, _, (List.take_append_drop inputs stack).symm, List.length_take_of_le h⟩
  rw [callOps_append, List.take_left, List.drop_left]
  refine (reaches_of_operate (by simp) rfl _).trans ?_
  refine (reaches_sinkOps _ args below _).trans ?_
  exact reaches_of_operate (by simp) rfl _

/-- A routine that is jumped to returns to where it was called from. -/
theorem reaches_return {args below : List Slot} {earlier : List AsmOp} (code : List AsmOp)
    (hlabel : AsmOp.label (returnLabel n) ∉ earlier)
    (hprogram : program = earlier ++ .label (returnLabel n) :: .jumpDest :: code)
    (hargs : args.length = inputs) (rest : List AsmOp) :
    Reaches program
      ⟨.jump :: rest, .address routine :: (args ++ .address (returnLabel n) :: below), m,
        ⟨routine, inputs, outputs⟩ :: routines⟩
      ⟨code, List.replicate outputs (.word 0) ++ below,
        { m with calls := m.calls ++ [routine] }, routines⟩ := by
  subst hargs
  have hjump : (AsmState.mk (.jump :: rest)
      (.address routine :: (args ++ .address (returnLabel n) :: below)) m
      (⟨routine, args.length, outputs⟩ :: routines)).step program =
      some ⟨.jumpDest :: code, List.replicate outputs (.word 0) ++ below,
        { m with calls := m.calls ++ [routine] }, routines⟩ := by
    have hback : codeAt? (returnLabel n) program = some (.jumpDest :: code) :=
      hprogram ▸ codeAt?_append hlabel code
    simp [step, call, hback, List.drop_append]
  exact (Reaches.of_step hjump).trans (reaches_of_operate (by simp) rfl _)

/-- The operations of a call do what the call does, among operations that do not define its return label
before it. -/
theorem follows_callOps {before after : List AsmOp}
    (hfresh : AsmOp.label (returnLabel n) ∉ before)
    (hprogram : program = before ++ (callOps n routine inputs ++ after)) :
    (AsmState.mk (callOps n routine inputs ++ after) stack m
      (⟨routine, inputs, outputs⟩ :: routines)).Follows program after routines
      ((m.withStack (stack.map Slot.value)).step (.call routine inputs outputs)) := by
  by_cases hlength : inputs ≤ stack.length
  · -- the arguments are there: the call is made and returns
    have hsplit : program = (before ++ .pushLabel (returnLabel n) ::
        (sinkOps inputs ++ [.pushLabel routine, .jump])) ++
          .label (returnLabel n) :: .jumpDest :: after := by
      simp [hprogram, callOps_append]
    have hearlier : AsmOp.label (returnLabel n) ∉ before ++ .pushLabel (returnLabel n) ::
        (sinkOps inputs ++ [.pushLabel routine, .jump]) := by
      simp [hfresh, label_notMem_sinkOps]
    rw [Machine.step_call m routine outputs (by rwa [List.length_map])]
    refine ⟨_, (reaches_jump hlength after).trans (reaches_return after hearlier hsplit
      (List.length_take_of_le hlength) _), rfl, rfl, ?_⟩
    simp [view, Slot.value]
  · -- the machine faults, and the first exchange is stuck
    have hdrop : (m.withStack (stack.map Slot.value)).drop inputs = .error .emptyStack := by
      rw [Machine.drop, if_neg (by simpa using hlength)]
    have hstep : (m.withStack (stack.map Slot.value)).step (.call routine inputs outputs) =
        .error .emptyStack := by
      rw [Machine.step, hdrop]
      rfl
    rw [hstep, callOps_append]
    exact (run_eq_of_reaches (reaches_of_operate (by simp) rfl _)).trans
      (run_sinkOps_eq_none (by omega) _)

end Call

/-! ## Code -/

section Code

variable {span : Span} {program before after : List AsmOp} {n n' : Nat} {ops : List AsmOp}
  {stack : List Slot} {m : Machine} {routines : List Routine}

/-- The operations that an instruction becomes define return labels below the next one only. -/
theorem labelsBelow_of_lowerInstruction {op : Instruction} (hop : op.Encodable)
    (h : (lowerInstruction span op).exec n = (.ok ops, n')) : n ≤ n' ∧ LabelsBelow n' ops := by
  by_cases hroutines : op.routines = []
  · obtain ⟨a, ha, -, hlabel, -⟩ := hop.operate_eq_step hroutines span n
    obtain ⟨hops, rfl⟩ := Prod.mk.inj (ha.symm.trans h)
    obtain rfl := Except.ok.inj hops
    refine ⟨Nat.le_refl _, fun k hk => absurd (List.mem_singleton.1 hk).symm (hlabel _)⟩
  · cases op with
    | call routine inputs outputs =>
      obtain ⟨hops, rfl⟩ :=
        Prod.mk.inj ((exec_lowerInstruction_call span n hop routine outputs).symm.trans h)
      obtain rfl := Except.ok.inj hops
      refine ⟨Nat.le_succ n, fun k hk => ?_⟩
      have hk : AsmOp.label (returnLabel k) = .label (returnLabel n) := by
        simpa [callOps, label_notMem_sinkOps] using hk
      rw [returnLabel_inj.1 (AsmOp.label.inj hk)]
      exact Nat.lt_succ_self n
    | _ => exact absurd rfl hroutines

/-- The operations of an instruction do what the instruction does. -/
theorem follows_lowerInstruction {op : Instruction} (hop : op.Encodable)
    (h : (lowerInstruction span op).exec n = (.ok ops, n')) (hlabels : LabelsBelow n before)
    (hprogram : program = before ++ (ops ++ after)) :
    (AsmState.mk (ops ++ after) stack m (op.routines ++ routines)).Follows program after routines
      ((m.withStack (stack.map Slot.value)).step op) := by
  by_cases hroutines : op.routines = []
  · obtain ⟨a, ha, hjump, -, hstep⟩ := hop.operate_eq_step hroutines span n
    obtain ⟨hops, rfl⟩ := Prod.mk.inj (ha.symm.trans h)
    obtain rfl := Except.ok.inj hops
    have hstep := hstep m stack
    rw [hroutines, List.nil_append]
    cases hm : (m.withStack (stack.map Slot.value)).step op with
    | ok m' =>
      rw [hm] at hstep
      obtain ⟨x, hx, rfl⟩ := Option.map_eq_some_iff.1 hstep
      exact ⟨_, reaches_of_operate hjump hx after, rfl, rfl, rfl⟩
    | error f =>
      rw [hm] at hstep
      exact run_of_operate_eq_none hjump (Option.map_eq_none_iff.1 hstep) after
  · cases op with
    | call routine inputs outputs =>
      obtain ⟨hops, rfl⟩ :=
        Prod.mk.inj ((exec_lowerInstruction_call span n hop routine outputs).symm.trans h)
      obtain rfl := Except.ok.inj hops
      exact follows_callOps (fun hmem => absurd (hlabels n hmem) (Nat.lt_irrefl n)) hprogram
    | _ => exact absurd rfl hroutines

/-- The operations of code do what the code does, among other operations that define none of its labels
before it.

**Proof sketch.**  Induction on the code.  `follows_lowerInstruction` takes the execution over the
operations of the first instruction, after which the labels before the rest are below the next one
(`labelsBelow_of_lowerInstruction`). -/
theorem follows_lowerCode {code : Code} (hcode : ∀ op ∈ code, op.Encodable)
    (h : (lowerCode span code).exec n = (.ok ops, n')) (hlabels : LabelsBelow n before)
    (hprogram : program = before ++ (ops ++ after)) :
    (AsmState.mk (ops ++ after) stack m (code.routines ++ routines)).Follows program after routines
      ((m.withStack (stack.map Slot.value)).run code) := by
  induction code generalizing n ops before stack m with
  | nil =>
    obtain ⟨hops, rfl⟩ := Prod.mk.inj h
    obtain rfl := Except.ok.inj hops
    exact ⟨_, .refl _, rfl, rfl, rfl⟩
  | cons op code ih =>
    have hop := hcode op List.mem_cons_self
    obtain ⟨ops₁, h₁, -⟩ := hop.exec_lowerInstruction span n
    rw [exec_lowerCode_cons h₁] at h
    obtain ⟨hops, hn⟩ := Prod.mk.inj h
    obtain ⟨ops₂, h₂, rfl⟩ := Except.exists_of_map_eq_ok hops
    obtain ⟨hle, hbelow⟩ := labelsBelow_of_lowerInstruction hop h₁
    have hroutines : Code.routines (op :: code) ++ routines =
        op.routines ++ (Code.routines code ++ routines) := by
      rw [Code.routines, List.flatMap_cons, List.append_assoc]
      rfl
    rw [hroutines, Machine.run_cons, List.append_assoc]
    refine Follows.bind (follows_lowerInstruction hop h₁ hlabels
      (by rw [hprogram, List.append_assoc])) ?_
    rintro ⟨code', stack', m', routines'⟩ - rfl rfl
    exact ih (fun op' h' => hcode op' (List.mem_cons_of_mem _ h')) (Prod.ext h₂ hn)
      ((hlabels.mono hle).append hbelow) (by rw [hprogram, List.append_assoc, List.append_assoc])

/-- Where the code before a call comes to, the jump of the call is arrived at: the address of the routine
is on top, the arguments are below it in their order, and below them is the address to return to. -/
theorem reaches_call_of_run {code : Code} (hcode : ∀ op ∈ code, op.Encodable)
    (h : (lowerCode span code).exec n = (.ok ops, n')) {earlier later : Code} {routine : Label}
    {inputs outputs : Nat} (hsplit : code = earlier ++ .call routine inputs outputs :: later)
    {m₁ : Machine} (hrun : (m.withStack (stack.map Slot.value)).run earlier = .ok m₁)
    (hinputs : inputs ≤ m₁.stack.length) :
    ∃ s args back below rest, Reaches ops ⟨ops, stack, m, code.routines⟩ s ∧
      s.code = .jump :: .label back :: .jumpDest :: rest ∧
      s.stack = .address routine :: (args ++ .address back :: below) ∧ args.length = inputs ∧
      s.machine.withStack ((args ++ below).map Slot.value) = m₁ := by
  subst hsplit
  have hearlier : ∀ op ∈ earlier, op.Encodable :=
    fun op hop => hcode op (List.mem_append_left _ hop)
  have hcall : inputs ≤ 16 := hcode (.call routine inputs outputs) (by simp)
  obtain ⟨ops₁, k, h₁, -⟩ := exec_lowerCode_of_encodable span n hearlier
  rw [exec_lowerCode_append h₁, exec_lowerCode_cons (exec_lowerInstruction_call span k hcall _ _)] at h
  obtain ⟨ops₂, hops₂, rfl⟩ := Except.exists_of_map_eq_ok (Prod.mk.inj h).1
  obtain ⟨ops₃, -, rfl⟩ := Except.exists_of_map_eq_ok hops₂
  have hroutines : Code.routines (earlier ++ .call routine inputs outputs :: later) =
      Code.routines earlier ++ (⟨routine, inputs, outputs⟩ :: Code.routines later) := by
    simp [Code.routines, Instruction.routines]
  -- the operations of the code before the call are followed up to those of the call
  have hfollows : (AsmState.mk (ops₁.flatten ++ (callOps k routine inputs ++ ops₃)) stack m
      (Code.routines earlier ++ (⟨routine, inputs, outputs⟩ :: Code.routines later))).Follows
      (ops₁.flatten ++ (callOps k routine inputs ++ ops₃)) (callOps k routine inputs ++ ops₃)
      (⟨routine, inputs, outputs⟩ :: Code.routines later) (.ok m₁) :=
    hrun ▸ follows_lowerCode hearlier h₁ (fun _ hmem => absurd hmem List.not_mem_nil)
      (List.nil_append _).symm
  obtain ⟨⟨-, stack₁, machine₁, -⟩, hreach, rfl, rfl, rfl⟩ := hfollows
  have hlength : inputs ≤ stack₁.length := by simpa [view] using hinputs
  rw [hroutines]
  refine ⟨_, _, _, _, _, hreach.trans (reaches_jump hlength ops₃), rfl, rfl,
    List.length_take_of_le hlength, ?_⟩
  rw [List.take_append_drop]
  rfl

end Code

end AsmState

/-! ## Sections -/

/-- A section whose instructions can be lowered is lowered, to the operations that its instructions become
one after the other: `inputs + 5` operations for a call, and one for every other instruction.  Execution
of the operations from any stack that is read as that of the machine comes to what the machine comes to,
or gets stuck where the machine faults.  Every call that the machine comes to arrives at its jump with
the address of the routine on top, below it the arguments in their order, and below them the address to
return to, where the operations go on.

**Proof sketch.**  `exec_lowerCode_of_encodable` is the shape of the operations,
`AsmState.follows_lowerCode` with no other operations around is what they come to, and
`AsmState.reaches_call_of_run` is where the calls jump. -/
theorem lowerSection_preserves_run (span : Span) (n : Nat) (code : CodeSection)
    (hcode : ∀ op ∈ code.ops.toList, op.Encodable) :
    ∃ chunks n', (lowerSection span code).exec n = (.ok chunks.flatten, n') ∧
      List.Forall₂ (fun op chunk =>
        (∃ k, (lowerInstruction span op).exec k = (.ok chunk, k + op.returnLabels)) ∧
          chunk.length = op.asmSize) code.ops.toList chunks ∧
      ∀ (m : Machine) (stack : List Slot), stack.map Slot.value = m.stack →
        ((AsmState.mk chunks.flatten stack m (Code.routines code.ops.toList)).run chunks.flatten).map
            AsmState.view = (m.run code.ops.toList).toOption ∧
        ∀ (earlier later : Code) (routine : Label) (inputs outputs : Nat) (m₁ : Machine),
          code.ops.toList = earlier ++ .call routine inputs outputs :: later →
          m.run earlier = .ok m₁ → inputs ≤ m₁.stack.length →
          ∃ s args back below rest,
            AsmState.Reaches chunks.flatten
              ⟨chunks.flatten, stack, m, Code.routines code.ops.toList⟩ s ∧
            s.code = .jump :: .label back :: .jumpDest :: rest ∧
            s.stack = .address routine :: (args ++ .address back :: below) ∧
            args.length = inputs ∧ s.machine.withStack ((args ++ below).map Slot.value) = m₁ := by
  obtain ⟨chunks, n', hlower, hchunks⟩ := exec_lowerCode_of_encodable span n hcode
  refine ⟨chunks, n', hlower, hchunks, fun m stack hstack => ⟨?_, ?_⟩⟩
  · have hfollows : (AsmState.mk (chunks.flatten ++ []) stack m
        (Code.routines code.ops.toList ++ [])).Follows chunks.flatten [] []
        ((m.withStack (stack.map Slot.value)).run code.ops.toList) :=
      AsmState.follows_lowerCode hcode hlower (fun _ hmem => absurd hmem List.not_mem_nil) (by simp)
    rw [List.append_nil, List.append_nil, hstack, Machine.withStack_self] at hfollows
    exact hfollows.run_eq
  · intro earlier later routine inputs outputs m₁ hsplit hrun hinputs
    refine AsmState.reaches_call_of_run hcode hlower hsplit ?_ hinputs
    rw [hstack, Machine.withStack_self, hrun]

/-- The call of a routine with two arguments and one output above a word that it leaves alone. -/
theorem lowerSection_preserves_run_call :
    (∀ op ∈ #[Instruction.push 7, .push 1, .push 2, .call "sum" 2 1].toList, op.Encodable) ∧
    ∃ ops n', (lowerSection .dummy ⟨#[.push 7, .push 1, .push 2, .call "sum" 2 1], 2⟩).exec 5 =
        (.ok ops, n') ∧
      ((AsmState.mk ops [] {} [⟨"sum", 2, 1⟩]).run ops).map AsmState.view =
        some { stack := [0, 7], calls := ["sum"] } ∧
      ∃ s back rest, AsmState.Reaches ops ⟨ops, [], {}, [⟨"sum", 2, 1⟩]⟩ s ∧
        s.code = .jump :: .label back :: .jumpDest :: rest ∧
        s.stack.map Slot.value = [Machine.tagWord, 2, 1, Machine.tagWord, 7] := by
  have hcode : ∀ op ∈ #[Instruction.push 7, .push 1, .push 2, .call "sum" 2 1].toList,
      op.Encodable := by
    simp [Instruction.Encodable]
  refine ⟨hcode, ?_⟩
  obtain ⟨chunks, n', hlower, -, hruns⟩ := lowerSection_preserves_run .dummy 5
    ⟨#[.push 7, .push 1, .push 2, .call "sum" 2 1], 2⟩ hcode
  obtain ⟨hrun, hcalls⟩ := hruns {} [] rfl
  obtain ⟨s, args, back, below, rest, hreach, hs, hstack, hargs, hm⟩ :=
    hcalls [.push 7, .push 1, .push 2] [] "sum" 2 1 { stack := [2, 1, 7] } rfl rfl (by decide)
  refine ⟨chunks.flatten, n', hlower, hrun, s, back, rest, hreach, hs, ?_⟩
  have hwords : args.map Slot.value ++ below.map Slot.value = [2, 1] ++ [7] := by
    rw [← List.map_append]
    exact congrArg Machine.stack hm
  obtain ⟨hargs, hbelow⟩ := List.append_inj hwords (by rw [List.length_map, hargs]; rfl)
  rw [hstack, List.map_cons, List.map_append, List.map_cons, hargs, hbelow]
  rfl

end WordPlaces
