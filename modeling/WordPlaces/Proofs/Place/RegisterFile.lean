import Mathlib.Logic.Function.Basic
import WordPlaces.CompileUnit
import WordPlaces.Proofs.Place.LocalVariable

/-!
# Local variables as registers

The local variables of a unit lie in disjoint blocks of the operand stack, below the operands that
code works on.  Within the reach of stack instructions they are a register file: a variable is read as
it was written last, and writing it changes no slot but its own.

## Main definitions

* `slotAt` — a slot of the stack by its height.
* `StackVariable.Covers`, `StackVariable.read`, `StackVariable.write` — the slots of a variable.
* `Scope.stackVariable`, `Scope.Locals` — variables that are bound to disjoint blocks.
* `LocalAccess`, `LocalAccess.emit` — reading and writing a variable, and moving operands.
* `LocalState`, `LocalAccess.apply` — the same on registers and an operand stack.

## Main results

* `LocalAccess.exec_emit_iff` — the reach of an access.
* `LocalAccess.consistent_apply`, `LocalAccess.run_code` — one access changes registers and slots alike.
* `Scope.Locals.bindLocal` — binding a variable above the others.
* `Scope.Locals.register_file` — local variables are a register file with a reach of sixteen slots.
-/

set_option autoImplicit false

namespace WordPlaces

open Machine

/-! ## Slots by height -/

/-- The slot at a height, counted from the bottom of the stack. -/
def slotAt (stack : List Word) (height : Nat) : Option Word := stack.reverse[height]?

/-- The heights of slots on top start where the stack ends. -/
theorem slotAt_append (above stack : List Word) (height : Nat) :
    slotAt (above ++ stack) height =
      if height < stack.length then slotAt stack height else slotAt above (height - stack.length) := by
  rw [slotAt, slotAt, slotAt, List.reverse_append, List.getElem?_append, List.length_reverse]

/-- Slots that are put on top leave those below them at their heights. -/
theorem slotAt_append_of_lt (above : List Word) {stack : List Word} {height : Nat}
    (h : height < stack.length) : slotAt (above ++ stack) height = slotAt stack height := by
  rw [slotAt_append, if_pos h]

namespace StackVariable

variable (v : StackVariable)

/-- The height above the highest slot of the variable. -/
def top : Nat := v.base + v.size

/-- The slot at a height belongs to the variable. -/
def Covers (height : Nat) : Prop := v.base ≤ height ∧ height < v.top

/-- No slot belongs to both variables. -/
def Disjoint (w : StackVariable) : Prop := ∀ height, v.Covers height → ¬w.Covers height

/-- The slots of the variable, its highest one first. -/
def read (stack : List Word) : List Word := ((stack.reverse.drop v.base).take v.size).reverse

/-- The stack with the slots of the variable replaced by a value, its last word first. -/
def write (stack value : List Word) : List Word :=
  (stack.reverse.take v.base ++ (value.reverse ++ stack.reverse.drop v.top)).reverse

variable {v}

/-- A stack on which the variable lies is split into its slots and those above and below. -/
theorem exists_eq_append {stack : List Word} (h : v.top ≤ stack.length) :
    ∃ above old below, stack = above ++ (old ++ below) ∧ old.length = v.size ∧
      below.length = v.base := by
  unfold top at h
  refine ⟨stack.take (stack.length - v.top), (stack.drop (stack.length - v.top)).take v.size,
    stack.drop (stack.length - v.base), ?_, ?_, ?_⟩
  · have hbelow : stack.drop (stack.length - v.base) =
        (stack.drop (stack.length - v.top)).drop v.size := by
      rw [List.drop_drop]
      congr 1
      unfold top
      omega
    rw [hbelow, List.take_append_drop, List.take_append_drop]
  · rw [List.length_take, List.length_drop]
    unfold top
    omega
  · rw [List.length_drop]
    omega

/-- A variable is read where its slots are. -/
theorem read_append {above old below : List Word} (hold : old.length = v.size)
    (hbelow : below.length = v.base) : v.read (above ++ (old ++ below)) = old := by
  simp [read, ← hold, ← hbelow]

/-- Writing a variable replaces its slots. -/
theorem write_append {above old below : List Word} (hold : old.length = v.size)
    (hbelow : below.length = v.base) (value : List Word) :
    v.write (above ++ (old ++ below)) value = above ++ (value ++ below) := by
  have hreverse : (above ++ (old ++ below)).reverse =
      (below.reverse ++ old.reverse) ++ above.reverse := by simp
  have htop : v.top = (below.reverse ++ old.reverse).length := by simp [top, hold, hbelow]
  rw [write, htop, hreverse, List.drop_left, List.append_assoc, List.take_left' (by simpa using hbelow)]
  simp

/-- What is read has as many words as the variable has slots. -/
theorem length_read {stack : List Word} (h : v.top ≤ stack.length) : (v.read stack).length = v.size := by
  obtain ⟨above, old, below, rfl, hold, hbelow⟩ := exists_eq_append h
  rw [read_append hold hbelow, hold]

/-- Writing a variable keeps the height of the stack. -/
theorem length_write {stack value : List Word} (h : v.top ≤ stack.length)
    (hvalue : value.length = v.size) : (v.write stack value).length = stack.length := by
  obtain ⟨above, old, below, rfl, hold, hbelow⟩ := exists_eq_append h
  simp [write_append hold hbelow, hvalue, hold]

/-- A variable is read as it was written. -/
theorem read_write_self {stack value : List Word} (h : v.top ≤ stack.length)
    (hvalue : value.length = v.size) : v.read (v.write stack value) = value := by
  obtain ⟨above, old, below, rfl, hold, hbelow⟩ := exists_eq_append h
  rw [write_append hold hbelow, read_append hvalue hbelow]

/-- Writing a variable changes no slot but its own. -/
theorem slotAt_write {stack value : List Word} (h : v.top ≤ stack.length)
    (hvalue : value.length = v.size) {height : Nat} (hout : ¬v.Covers height) :
    slotAt (v.write stack value) height = slotAt stack height := by
  obtain ⟨above, old, below, rfl, hold, hbelow⟩ := exists_eq_append h
  have hslot : ∀ block : List Word, block.length = v.size →
      slotAt (above ++ (block ++ below)) height =
        if height < v.base then below.reverse[height]? else above.reverse[height - v.top]? := by
    intro block hblock
    unfold Covers top at hout
    rw [slotAt, List.reverse_append, List.reverse_append, List.append_assoc, List.getElem?_append,
      List.getElem?_append, List.length_reverse, List.length_reverse, hblock, hbelow]
    split
    · rfl
    · rw [if_neg (by omega), Nat.sub_sub, top]
  rw [write_append hold hbelow, hslot value hvalue, hslot old hold]

/-- The slots of a variable are those at its heights. -/
theorem read_congr {stack stack' : List Word}
    (h : ∀ height, v.Covers height → slotAt stack height = slotAt stack' height) :
    v.read stack = v.read stack' := by
  rw [read, read]
  congr 1
  apply List.ext_getElem?
  intro k
  by_cases hk : k < v.size
  · rw [List.getElem?_take_of_lt hk, List.getElem?_take_of_lt hk, List.getElem?_drop, List.getElem?_drop]
    exact h (v.base + k) ⟨by omega, by unfold top; omega⟩
  · rw [List.getElem?_take_eq_none (by omega), List.getElem?_take_eq_none (by omega)]

/-- A variable keeps its slots under operands. -/
theorem read_append_of_le (above : List Word) {stack : List Word} (h : v.top ≤ stack.length) :
    v.read (above ++ stack) = v.read stack :=
  read_congr fun _ hcovers => slotAt_append_of_lt above (Nat.lt_of_lt_of_le hcovers.2 h)

end StackVariable

/-! ## The reach of an access -/

namespace StackVariable

variable {sc : Scope} {v : StackVariable} {h : Nat}

/-- The code that copies the slots of a variable from a depth. -/
def copyCode (v : StackVariable) (depth : Nat) : Code := (List.replicate v.size [.dup depth]).flatten

/-- A variable is read from a depth. -/
theorem emitsFrom_retrieve_of_copy {code : Code} {r : Except Failure Unit} (hpos : 1 ≤ v.size)
    (hle : v.top ≤ h) (hcopy : Emits sc (copyToTop (h - v.base) v.size) code r) :
    EmitsFrom sc h v.retrieve code r := by
  unfold top at hle
  have hdepth : h - v.base - 1 + 1 = h - v.base := by omega
  refine (emitsFrom_distanceToTop (by omega)).bind fun h' hh => ?_
  obtain rfl := Option.some.inj hh
  simp only [hdepth]
  rw [if_neg (by omega)]
  exact hcopy h

/-- A variable within the reach of stack instructions is read. -/
theorem emitsFrom_retrieve (hpos : 1 ≤ v.size) (hle : v.top ≤ h) (hreach : h - v.base ≤ stackWindow) :
    EmitsFrom sc h v.retrieve (v.copyCode (h - v.base)) (.ok ()) := by
  refine emitsFrom_retrieve_of_copy hpos hle (.copyToTop ?_ hreach _)
  unfold top at hle
  omega

/-- A variable out of their reach is not. -/
theorem emitsFrom_retrieve_of_lt (hpos : 1 ≤ v.size) (hle : v.top ≤ h)
    (hlt : stackWindow < h - v.base) :
    EmitsFrom sc h v.retrieve [] (.error (.diagnostic (.stackTooDeep (h - v.base) sc.site))) := by
  refine emitsFrom_retrieve_of_copy hpos hle ?_
  unfold copyToTop
  exact .repeatEmit_error (Emits.reachable_of_lt hlt).bind_error (Nat.ne_of_gt hpos)

/-- A value of which a copy is left is written and read back. -/
theorem store_false_eq (v : StackVariable) : v.store false = (do v.store true; v.retrieve) := by
  unfold store
  simp only [bind_assoc]
  congr 1
  funext position
  split
  · rfl
  · split <;> simp

/-- The blocks above, at and below a variable that is written. -/
theorem size_add_distance (hle : v.top + v.size ≤ h) : v.size + (h - v.base - v.size) + v.base = h := by
  unfold top at hle
  omega

/-- The code that writes a variable at a distance from the value. -/
def storeCode (v : StackVariable) (distance : Nat) (move : Bool) : Code :=
  overwriteCode v.size distance ++ if move then [] else v.copyCode distance

/-- The code of an assignment takes the value, or leaves it. -/
theorem heightFrom_storeCode (hle : v.top + v.size ≤ h) (move : Bool) :
    heightFrom h (v.storeCode (h - v.base - v.size) move) = some (if move then h - v.size else h) := by
  have hoverwrite := heightFrom_add v.base (heightFrom_overwriteCode v.size (h - v.base - v.size))
  rw [size_add_distance hle] at hoverwrite
  unfold top at hle
  have hlow : h - v.base - v.size + v.base = h - v.size := by omega
  rw [hlow] at hoverwrite
  rw [storeCode, heightFrom_append, hoverwrite, Option.bind_some]
  cases move with
  | true => rfl
  | false =>
    refine (heightFrom_copyToTop (by omega) v.size).trans ?_
    simp only [Bool.false_eq_true, if_false]
    congr 1
    omega

/-- The slots of a variable are copied as long as the height stays within a counter. -/
theorem exists_extend_copyCode_iff {s : CodeSection} {depth : Nat} (hpos : 1 ≤ v.size)
    (hle : depth ≤ s.height) :
    (∃ s', s.extend (v.copyCode depth) = (s', none)) ↔ s.height + v.size < countLimit := by
  have hheight : heightFrom s.height (v.copyCode depth) = some (s.height + v.size) :=
    heightFrom_copyToTop hle v.size
  constructor
  · rintro ⟨s', hs'⟩
    have hafter := (CodeSection.extend_eq_none hs').1
    rw [hheight] at hafter
    rw [Option.some.inj hafter]
    refine CodeSection.height_lt_of_extend_eq_none ?_ hs'
    obtain ⟨size, hsucc⟩ := Nat.exists_eq_add_one_of_ne_zero (Nat.ne_of_gt hpos)
    rw [copyCode, hsucc]
    exact List.cons_ne_nil _ _
  · intro hlt
    rw [← growth_copyToTop depth v.size] at hlt
    exact ⟨_, CodeSection.extend_of_heightFrom hheight hlt⟩

/-- A variable is written as long as the height before is within a counter. -/
theorem exists_extend_storeCode_iff {s : CodeSection} (hpos : 1 ≤ v.size)
    (hle : v.top + v.size ≤ s.height) (move : Bool) :
    (∃ s', s.extend (v.storeCode (s.height - v.base - v.size) move) = (s', none)) ↔
      s.height < countLimit := by
  constructor
  · rintro ⟨s', hs'⟩
    obtain ⟨size, hsucc⟩ := Nat.exists_eq_add_one_of_ne_zero (Nat.ne_of_gt hpos)
    rw [storeCode, hsucc] at hs'
    have hlt := CodeSection.lt_of_extend_eq_none hs'
    unfold top at hle
    simp only [Instruction.inputs, Instruction.outputs] at hlt
    omega
  · intro hlt
    have hmoved := heightFrom_storeCode hle true
    rw [storeCode, if_pos rfl, if_pos rfl, List.append_nil] at hmoved
    have hoverwrite := CodeSection.extend_of_heightFrom hmoved (by rwa [growth_overwriteCode])
    rw [storeCode, CodeSection.extend_append, hoverwrite]
    cases move with
    | true => exact ⟨_, rfl⟩
    | false =>
      unfold top at hle
      exact (exists_extend_copyCode_iff hpos (by simp only; omega)).2 (by simp only; omega)

/-- A variable within the reach of stack instructions is written. -/
theorem emitsFrom_storeCode (hpos : 1 ≤ v.size) (hle : v.top + v.size ≤ h)
    (hreach : h - v.base - v.size ≤ stackWindow) (move : Bool) :
    EmitsFrom sc h (v.store move) (v.storeCode (h - v.base - v.size) move) (.ok ()) := by
  have hmoved : EmitsFrom sc h (v.store true) (v.storeCode (h - v.base - v.size) true) (.ok ()) := by
    have hpositive : 0 < h - v.base - v.size := by
      unfold top at hle
      omega
    have hstore : EmitsFrom sc (v.size + (h - v.base - v.size) + v.base) (v.store true)
        (overwriteCode v.size (h - v.base - v.size)) (.ok ()) :=
      emitsFrom_store hpositive (.inr hreach)
    rw [size_add_distance hle] at hstore
    rw [storeCode, if_pos rfl, List.append_nil]
    exact hstore
  cases move with
  | true => exact hmoved
  | false =>
    have hcode : v.storeCode (h - v.base - v.size) false =
        v.storeCode (h - v.base - v.size) true ++ v.copyCode (h - v.base - v.size) := by
      simp [storeCode]
    rw [store_false_eq, hcode]
    refine hmoved.bind fun h' hh' => ?_
    rw [heightFrom_storeCode hle] at hh'
    obtain rfl := Option.some.inj hh'
    have hdepth : h - v.base - v.size = h - v.size - v.base := by omega
    rw [if_pos rfl, hdepth]
    exact emitsFrom_retrieve hpos (by omega) (by omega)

/-- A variable out of their reach is not. -/
theorem emitsFrom_store_error (hpos : 1 ≤ v.size) (hle : v.top + v.size ≤ h)
    (hlt : stackWindow < h - v.base - v.size) (move : Bool) :
    EmitsFrom sc h (v.store move) []
      (.error (.diagnostic (.stackTooDeep (h - v.base - v.size) sc.site))) := by
  have hstore : EmitsFrom sc (v.size + (h - v.base - v.size) + v.base) (v.store true) []
      (.error (.diagnostic (.stackTooDeep (h - v.base - v.size) sc.site))) :=
    emitsFrom_store_of_lt (Nat.ne_of_gt hpos) hlt
  rw [size_add_distance hle] at hstore
  cases move with
  | true => exact hstore
  | false =>
    rw [store_false_eq]
    exact hstore.bind_error

end StackVariable

/-! ## Bound variables -/

/-- The slots of a variable that is bound in the scope. -/
def Scope.stackVariable (sc : Scope) (v : Variable) : StackVariable :=
  ⟨v.ty, (sc.locals.lookup v.id).getD 0⟩

/-- The variables are bound to disjoint blocks of slots below height `floor`. -/
structure Scope.Locals (sc : Scope) (vars : List Variable) (floor : Nat) : Prop where
  bound : ∀ v ∈ vars, (sc.locals.lookup v.id).isSome
  one_le_size : ∀ v ∈ vars, 1 ≤ (sc.stackVariable v).size
  top_le : ∀ v ∈ vars, (sc.stackVariable v).top ≤ floor
  disjoint : ∀ v ∈ vars, ∀ w ∈ vars, v ≠ w → (sc.stackVariable v).Disjoint (sc.stackVariable w)

namespace Scope.Locals

variable {sc : Scope} {vars : List Variable} {floor : Nat} {v : Variable}

/-- One of the variables on its own. -/
theorem singleton (h : sc.Locals vars floor) (hv : v ∈ vars) :
    sc.Locals [v] (sc.stackVariable v).top := by
  refine ⟨?_, ?_, ?_, ?_⟩
  · exact List.forall_mem_singleton.2 (h.bound v hv)
  · exact List.forall_mem_singleton.2 (h.one_le_size v hv)
  · exact List.forall_mem_singleton.2 (Nat.le_refl _)
  · intro w hw w' hw' hne
    exact absurd ((List.mem_singleton.1 hw).trans (List.mem_singleton.1 hw').symm) hne

/-- A variable whose slots lie above those of the others. -/
theorem cons (h : sc.Locals vars floor) (hnew : ∀ w ∈ vars, w.id ≠ v.id)
    (hpos : 1 ≤ v.ty.sizeOnStack) {base : Nat} (hle : floor ≤ base) :
    Scope.Locals { sc with locals := (v.id, base) :: sc.locals } (v :: vars)
      (base + v.ty.sizeOnStack) := by
  obtain ⟨scope, hscope⟩ : ∃ scope : Scope,
      scope = { sc with locals := (v.id, base) :: sc.locals } := ⟨_, rfl⟩
  have hself : scope.locals.lookup v.id = some base := by
    rw [hscope]
    exact List.lookup_cons_self
  have hother : ∀ w ∈ vars, scope.locals.lookup w.id = sc.locals.lookup w.id := by
    intro w hw
    rw [hscope, List.lookup_cons, beq_false_of_ne (hnew w hw)]
  have hv : scope.stackVariable v = ⟨v.ty, base⟩ := by
    rw [Scope.stackVariable, hself]
    rfl
  have hw : ∀ w ∈ vars, scope.stackVariable w = sc.stackVariable w := by
    intro w hw
    rw [Scope.stackVariable, hother w hw]
    rfl
  have hapart : ∀ w ∈ vars, (scope.stackVariable w).Disjoint (scope.stackVariable v) := by
    intro w hmem height hcovers hcovers'
    rw [hw w hmem] at hcovers
    rw [hv] at hcovers'
    exact absurd (Nat.lt_of_lt_of_le hcovers.2 (Nat.le_trans (h.top_le w hmem) hle))
      (Nat.not_lt.2 hcovers'.1)
  rw [← hscope]
  refine ⟨?_, ?_, ?_, ?_⟩
  · refine List.forall_mem_cons.2 ⟨by rw [hself]; rfl, fun w hmem => ?_⟩
    rw [hother w hmem]
    exact h.bound w hmem
  · refine List.forall_mem_cons.2 ⟨by rw [hv]; exact hpos, fun w hmem => ?_⟩
    rw [hw w hmem]
    exact h.one_le_size w hmem
  · refine List.forall_mem_cons.2 ⟨by rw [hv]; exact Nat.le_refl _, fun w hmem => ?_⟩
    rw [hw w hmem]
    exact Nat.le_add_right_of_le (Nat.le_trans (h.top_le w hmem) hle)
  · intro w hmem w' hmem' hne
    rcases List.mem_cons.1 hmem with heq | hmem <;> rcases List.mem_cons.1 hmem' with heq' | hmem'
    · exact absurd (heq.trans heq'.symm) hne
    · rw [heq]
      exact fun height hcovers hcovers' => hapart w' hmem' height hcovers' hcovers
    · rw [heq']
      exact hapart w hmem
    · rw [hw w hmem, hw w' hmem']
      exact h.disjoint w hmem w' hmem' hne

/-- Binding a variable to the topmost slots, above those of the others, keeps all of them apart. -/
theorem bindLocal {ctx : UnitContext} (h : ctx.scope.Locals vars floor)
    (hnew : ∀ w ∈ vars, w.id ≠ v.id) (hpos : 1 ≤ v.ty.sizeOnStack)
    (hle : floor + v.ty.sizeOnStack ≤ ctx.output.code.height) :
    ∃ scope, (Compile.bindLocal v.id v.ty.sizeOnStack).run.run ctx = (.ok (), { ctx with scope }) ∧
      scope = { ctx.scope with
        locals := (v.id, ctx.output.code.height - v.ty.sizeOnStack) :: ctx.scope.locals } ∧
      scope.Locals (v :: vars) ctx.output.code.height := by
  have hroom : ¬ctx.output.code.height < v.ty.sizeOnStack := by omega
  have hrun : (Compile.bindLocal v.id v.ty.sizeOnStack).run.run ctx =
      (if ctx.output.code.height < v.ty.sizeOnStack then throw (.fault .bindingBelowBase)
        else Compile.modifyScope fun scope => { scope with
          locals := (v.id, ctx.output.code.height - v.ty.sizeOnStack) :: scope.locals } :
        Compile Unit).run.run ctx := rfl
  have hlocals := h.cons hnew hpos (Nat.le_sub_of_add_le hle)
  rw [Nat.sub_add_cancel (Nat.le_of_add_left_le hle)] at hlocals
  rw [hrun, if_neg hroom]
  exact ⟨_, rfl, rfl, hlocals⟩

end Scope.Locals

/-- A bound variable is found. -/
theorem Emits.stackVariable {sc : Scope} {v : Variable} (h : (sc.locals.lookup v.id).isSome) :
    Emits sc (StackVariable.of v) [] (.ok (sc.stackVariable v)) := by
  obtain ⟨base, hbase⟩ := Option.isSome_iff_exists.1 h
  refine Emits.bind_nil .read ?_
  rw [Scope.stackVariable, hbase]
  exact Emits.bind_nil (.logEvent _) (.pure _)

/-! ## Accesses -/

/-- An access to a local variable, or an operand that is pushed or dropped. -/
inductive LocalAccess where
  | push (word : Word)
  | pop
  | retrieve (v : Variable) (remove : Bool)
  | store (v : Variable) (source : Ty) (move : Bool)

namespace LocalAccess

/-- Emits the access. -/
def emit : LocalAccess → Emit Unit
  | push word => WordPlaces.emit (.push word)
  | pop => WordPlaces.emit .pop
  | retrieve v remove => do (Place.stack (← StackVariable.of v)).retrieve remove
  | store v source move => do (Place.stack (← StackVariable.of v)).store source move

/-- The height of the stack after the access. -/
def heightAfter (h : Nat) : LocalAccess → Nat
  | push _ => h + 1
  | pop => h - 1
  | retrieve v _ => h + v.ty.sizeOnStack
  | store v _ move => if move then h - v.ty.sizeOnStack else h

/-- On a stack of height `h`, no operand is taken from below `floor`, and a value that is written lies
above the variable. -/
def Legal (sc : Scope) (vars : List Variable) (floor h : Nat) : LocalAccess → Prop
  | push _ => True
  | pop => floor < h
  | retrieve v _ => v ∈ vars
  | store v _ move => v ∈ vars ∧ (sc.stackVariable v).top + v.ty.sizeOnStack ≤ h ∧
      (move = true → floor + v.ty.sizeOnStack ≤ h)

/-- The slot at a height belongs to a variable that is written. -/
def Writes (sc : Scope) (height : Nat) : LocalAccess → Prop
  | store v _ _ => (sc.stackVariable v).Covers height
  | _ => False

/-- The code of the access on a stack of height `h`. -/
def code (sc : Scope) (h : Nat) : LocalAccess → Code
  | push word => [.push word]
  | pop => [.pop]
  | retrieve v _ => (sc.stackVariable v).copyCode (h - (sc.stackVariable v).base)
  | store v _ move =>
    (sc.stackVariable v).storeCode (h - (sc.stackVariable v).base - v.ty.sizeOnStack) move

end LocalAccess

/-- Emits accesses in order. -/
def emitLocalAccesses : List LocalAccess → Emit Unit
  | [] => pure ()
  | access :: accesses => do
    access.emit
    emitLocalAccesses accesses

/-- The accesses are legal one after the other, on a stack of height `h` at first. -/
def LegalFrom (sc : Scope) (vars : List Variable) (floor : Nat) : Nat → List LocalAccess → Prop
  | _, [] => True
  | h, access :: accesses =>
    access.Legal sc vars floor h ∧ LegalFrom sc vars floor (access.heightAfter h) accesses

/-! ## Emitting accesses -/

/-- The computation succeeds exactly if stack instructions reach `depth` and the height `peak` can be
counted, and if `depth` is out of their reach it is rejected before anything is emitted. -/
def ReachesExactly (sc : Scope) (out : Output) (m : Emit Unit) (depth peak : Nat) : Prop :=
  ((∃ out', m.exec sc out = (.ok (), out')) ↔ depth ≤ 16 ∧ peak < countLimit) ∧
    (16 < depth → ∃ events, m.exec sc out =
      (.error (.diagnostic (.stackTooDeep depth sc.site)), ⟨out.code, events⟩))

namespace LocalAccess

variable {sc : Scope} {vars : List Variable} {floor h : Nat} {v : Variable}

/-- An access that reads a bound variable emits what reading the variable does. -/
theorem emitsFrom_retrieve {code : Code} {r : Except Failure Unit}
    (hbound : (sc.locals.lookup v.id).isSome) (remove : Bool)
    (hretrieve : EmitsFrom sc h (sc.stackVariable v).retrieve code r) :
    EmitsFrom sc h (retrieve v remove).emit code r := by
  refine (Emits.stackVariable hbound h).bind fun h' hh' => ?_
  obtain rfl := Option.some.inj hh'
  refine (EmitsFrom.logEvent _).bind fun h' hh' => ?_
  obtain rfl := Option.some.inj hh'
  exact hretrieve

/-- An access that writes a bound variable emits what writing the variable does. -/
theorem emitsFrom_store {code : Code} {r : Except Failure Unit}
    (hbound : (sc.locals.lookup v.id).isSome) (source : Ty) {move : Bool}
    (hstore : EmitsFrom sc h ((sc.stackVariable v).store move) code r) :
    EmitsFrom sc h (store v source move).emit code r := by
  refine (Emits.stackVariable hbound h).bind fun h' hh' => ?_
  obtain rfl := Option.some.inj hh'
  refine (EmitsFrom.logEvent _).bind fun h' hh' => ?_
  obtain rfl := Option.some.inj hh'
  exact hstore

/-- How far below the top the slots lie that the access reaches for. -/
def depth (sc : Scope) (h : Nat) : LocalAccess → Nat
  | push _ | pop => 0
  | retrieve v _ => h - (sc.stackVariable v).base
  | store v _ _ => h - (sc.stackVariable v).base - v.ty.sizeOnStack

variable {access : LocalAccess}

/-- An access within the reach of stack instructions is emitted, and one out of their reach is rejected
before anything is emitted. -/
theorem emitsFrom_emit (hvars : sc.Locals vars floor) (hfloor : floor ≤ h)
    (hlegal : access.Legal sc vars floor h) :
    (access.depth sc h ≤ stackWindow → EmitsFrom sc h access.emit (access.code sc h) (.ok ())) ∧
    (stackWindow < access.depth sc h → EmitsFrom sc h access.emit []
      (.error (.diagnostic (.stackTooDeep (access.depth sc h) sc.site)))) := by
  cases access with
  | push word => exact ⟨fun _ => .emit _, fun hlt => absurd hlt (Nat.not_lt_zero _)⟩
  | pop => exact ⟨fun _ => .emit _, fun hlt => absurd hlt (Nat.not_lt_zero _)⟩
  | retrieve v remove =>
    have hle := Nat.le_trans (hvars.top_le v hlegal) hfloor
    have hpos := hvars.one_le_size v hlegal
    exact ⟨fun hreach => emitsFrom_retrieve (hvars.bound v hlegal) remove
        (StackVariable.emitsFrom_retrieve hpos hle hreach),
      fun hlt => emitsFrom_retrieve (hvars.bound v hlegal) remove
        (StackVariable.emitsFrom_retrieve_of_lt hpos hle hlt)⟩
  | store v source move =>
    obtain ⟨hv, hle, -⟩ := hlegal
    have hpos := hvars.one_le_size v hv
    exact ⟨fun hreach => emitsFrom_store (hvars.bound v hv) source
        (StackVariable.emitsFrom_storeCode hpos hle hreach move),
      fun hlt => emitsFrom_store (hvars.bound v hv) source
        (StackVariable.emitsFrom_store_error hpos hle hlt move)⟩

/-- A legal access moves the height as it does in the register file. -/
theorem heightFrom_code (hlegal : access.Legal sc vars floor h) :
    heightFrom h (access.code sc h) = some (access.heightAfter h) := by
  cases access with
  | push word => rfl
  | pop => exact heightFrom_cons_of_le _ (Nat.succ_le_of_lt (Nat.zero_lt_of_lt hlegal))
  | retrieve v remove => exact heightFrom_copyToTop (Nat.sub_le _ _) _
  | store v source move => exact StackVariable.heightFrom_storeCode hlegal.2.1 move

/-- The greatest height of the stack while the access is executed. -/
def peak (h : Nat) : LocalAccess → Nat
  | push _ => h + 1
  | pop => h - 1
  | retrieve v _ => h + v.ty.sizeOnStack
  | store _ _ _ => h

/-- The code of an access is appended as long as the height stays within a counter. -/
theorem exists_extend_code_iff (hvars : sc.Locals vars floor) {s : CodeSection}
    (hlegal : access.Legal sc vars floor s.height) :
    (∃ s', s.extend (access.code sc s.height) = (s', none)) ↔ access.peak s.height < countLimit := by
  cases access with
  | push word =>
    exact CodeSection.exists_extend_singleton_iff (Nat.zero_le _)
  | pop =>
    exact CodeSection.exists_extend_singleton_iff (Nat.succ_le_of_lt (Nat.zero_lt_of_lt hlegal))
  | retrieve v remove =>
    exact StackVariable.exists_extend_copyCode_iff (hvars.one_le_size v hlegal) (Nat.sub_le _ _)
  | store v source move =>
    exact StackVariable.exists_extend_storeCode_iff (hvars.one_le_size v hlegal.1) hlegal.2.1 move

/-- An access is emitted exactly if the slots that it reaches for are among the sixteen topmost ones, and
the height can be counted.  One that is too deep is rejected before anything is emitted. -/
theorem exec_emit_iff (hvars : sc.Locals vars floor) {out : Output} (hfloor : floor ≤ out.code.height)
    (hlegal : access.Legal sc vars floor out.code.height) :
    ReachesExactly sc out access.emit (access.depth sc out.code.height)
      (access.peak out.code.height) := by
  obtain ⟨hemit, herror⟩ := emitsFrom_emit hvars hfloor hlegal
  have hdeep : stackWindow < access.depth sc out.code.height → ∃ events,
      access.emit.exec sc out = (.error (.diagnostic (.stackTooDeep (access.depth sc out.code.height)
        sc.site)), ⟨out.code, events⟩) := fun hlt => (herror hlt).exec_eq rfl
  refine ⟨⟨fun ⟨out', hexec⟩ => ?_, fun ⟨hreach, hlt⟩ => ?_⟩, hdeep⟩
  · have hreach : access.depth sc out.code.height ≤ stackWindow := by
      by_contra hnot
      obtain ⟨events, hfail⟩ := hdeep (Nat.lt_of_not_le hnot)
      rw [hfail] at hexec
      exact absurd (Prod.mk.inj hexec).1 (by simp)
    exact ⟨hreach, (exists_extend_code_iff hvars hlegal).1 ((hemit hreach).exists_exec_eq_ok_iff.1 ⟨_, hexec⟩)⟩
  · exact (hemit hreach).exists_exec_eq_ok_iff.2 ((exists_extend_code_iff hvars hlegal).2 hlt)

/-- The slots of the variables are not taken. -/
theorem floor_le_heightAfter (hlegal : access.Legal sc vars floor h) (hfloor : floor ≤ h) :
    floor ≤ access.heightAfter h := by
  cases access with
  | push word => exact Nat.le_succ_of_le hfloor
  | pop => exact Nat.le_sub_one_of_lt hlegal
  | retrieve v remove => exact Nat.le_add_right_of_le hfloor
  | store v source move =>
    rw [heightAfter]
    split
    · exact Nat.le_sub_of_add_le (hlegal.2.2 ‹_›)
    · exact hfloor

/-- An access that was emitted is within the reach of stack instructions. -/
theorem of_exec_eq_ok (hvars : sc.Locals vars floor) {out out' : Output}
    (hfloor : floor ≤ out.code.height) (hlegal : access.Legal sc vars floor out.code.height)
    (hexec : access.emit.exec sc out = (.ok (), out')) :
    out'.code.ops = out.code.ops ++ (access.code sc out.code.height).toArray ∧
      out'.code.height = access.heightAfter out.code.height := by
  obtain ⟨hemit, herror⟩ := emitsFrom_emit hvars hfloor hlegal
  have hreach : access.depth sc out.code.height ≤ stackWindow := by
    by_contra hnot
    have hfail := ((herror (Nat.lt_of_not_le hnot)).of_exec_eq_ok hexec).1
    contradiction
  obtain ⟨hheight, hops⟩ := CodeSection.extend_eq_none ((hemit hreach).of_exec_eq_ok hexec).2
  rw [heightFrom_code hlegal] at hheight
  exact ⟨hops, (Option.some.inj hheight).symm⟩

end LocalAccess

/-! ## Registers -/

/-- Registers, and the operand stack on which their values are pushed. -/
structure LocalState where
  stack : List Word
  values : Variable → List Word

/-- The slots of the variables hold the values of the registers. -/
structure LocalState.Consistent (s : LocalState) (sc : Scope) (vars : List Variable) (floor : Nat) :
    Prop where
  floor_le : floor ≤ s.stack.length
  read_eq : ∀ v ∈ vars, (sc.stackVariable v).read s.stack = s.values v

namespace LocalAccess

/-- The access if every variable is kept in a register of its own, whose value is also written to its
slots: a variable is read from its register. -/
def apply (sc : Scope) (s : LocalState) : LocalAccess → LocalState
  | push word => { s with stack := word :: s.stack }
  | pop => { s with stack := s.stack.tail }
  | retrieve v _ => { s with stack := s.values v ++ s.stack }
  | store v _ move =>
    let value := s.stack.take v.ty.sizeOnStack
    let stack := (sc.stackVariable v).write (s.stack.drop v.ty.sizeOnStack) value
    ⟨(if move then [] else value) ++ stack, Function.update s.values v value⟩

variable {sc : Scope} {vars : List Variable} {floor : Nat} {s : LocalState} {access : LocalAccess}

/-- The value that is written, and the stack below it on which the variable lies. -/
theorem exists_value {v : Variable} {source : Ty} {move : Bool}
    (hlegal : (store v source move).Legal sc vars floor s.stack.length) :
    ∃ value below, s.stack = value ++ below ∧ value.length = (sc.stackVariable v).size ∧
      (sc.stackVariable v).top ≤ below.length ∧ (move = true → floor ≤ below.length) ∧
      (store v source move).apply sc s =
        ⟨(if move then [] else value) ++ (sc.stackVariable v).write below value,
          Function.update s.values v value⟩ := by
  obtain ⟨-, hle, hmove⟩ := hlegal
  refine ⟨s.stack.take v.ty.sizeOnStack, s.stack.drop v.ty.sizeOnStack,
    (List.take_append_drop _ _).symm, List.length_take_of_le (by omega), ?_, fun h => ?_, rfl⟩
  · rw [List.length_drop]
    omega
  · have := hmove h
    rw [List.length_drop]
    omega

/-- A legal access leaves as many slots in the register file as its code does. -/
theorem length_apply (hs : s.Consistent sc vars floor) (hvars : sc.Locals vars floor)
    (hlegal : access.Legal sc vars floor s.stack.length) :
    (access.apply sc s).stack.length = access.heightAfter s.stack.length := by
  cases access with
  | push word => rfl
  | pop => exact List.length_tail
  | retrieve v remove =>
    have hsize : (s.values v).length = v.ty.sizeOnStack := by
      rw [← hs.read_eq v hlegal]
      exact StackVariable.length_read (Nat.le_trans (hvars.top_le v hlegal) hs.floor_le)
    rw [apply, List.length_append, hsize, heightAfter, Nat.add_comm]
  | store v source move =>
    obtain ⟨value, below, hstack, hvalue, htop, -, happly⟩ := exists_value hlegal
    have hsize : value.length = v.ty.sizeOnStack := hvalue
    rw [happly, List.length_append, StackVariable.length_write htop hvalue, heightAfter, hstack,
      List.length_append, hsize]
    cases move with
    | true => simp
    | false => simp [hsize]

/-- An access changes no slot below the operands but those of a variable that it writes. -/
theorem slotAt_apply (hs : s.Consistent sc vars floor)
    (hlegal : access.Legal sc vars floor s.stack.length) {height : Nat} (hlow : height < floor)
    (hout : ¬access.Writes sc height) :
    slotAt (access.apply sc s).stack height = slotAt s.stack height := by
  have hheight := Nat.lt_of_lt_of_le hlow hs.floor_le
  cases access with
  | push word => exact slotAt_append_of_lt [word] hheight
  | pop =>
    obtain ⟨word, rest, hstack⟩ := List.exists_cons_of_length_pos (Nat.zero_lt_of_lt hheight)
    have hrest : height < rest.length := by
      have hfloor : floor < s.stack.length := hlegal
      rw [hstack, List.length_cons] at hfloor
      omega
    rw [apply, hstack]
    exact (slotAt_append_of_lt [word] hrest).symm
  | retrieve v remove => exact slotAt_append_of_lt _ hheight
  | store v source move =>
    obtain ⟨value, below, hstack, hvalue, htop, hmove, happly⟩ := exists_value hlegal
    have hwrite := StackVariable.slotAt_write htop hvalue hout
    rw [happly, hstack]
    cases move with
    | true =>
      rw [slotAt_append_of_lt value (Nat.lt_of_lt_of_le hlow (hmove rfl))]
      exact hwrite
    | false =>
      simp only [Bool.false_eq_true, if_false]
      rw [slotAt_append, slotAt_append, StackVariable.length_write htop hvalue, hwrite]

/-- An access keeps registers and slots alike. -/
theorem consistent_apply (hvars : sc.Locals vars floor) (hs : s.Consistent sc vars floor)
    (hlegal : access.Legal sc vars floor s.stack.length) :
    (access.apply sc s).Consistent sc vars floor := by
  have hkeep : ∀ v ∈ vars, (∀ height, (sc.stackVariable v).Covers height →
      ¬access.Writes sc height) →
      (sc.stackVariable v).read (access.apply sc s).stack = s.values v := by
    intro v hv hout
    rw [← hs.read_eq v hv]
    exact StackVariable.read_congr fun height hcovers =>
      slotAt_apply hs hlegal (Nat.lt_of_lt_of_le hcovers.2 (hvars.top_le v hv)) (hout height hcovers)
  refine ⟨?_, fun w hw => ?_⟩
  · rw [length_apply hs hvars hlegal]
    exact floor_le_heightAfter hlegal hs.floor_le
  · cases access with
    | push word => exact hkeep w hw fun _ _ h => h
    | pop => exact hkeep w hw fun _ _ h => h
    | retrieve v remove => exact hkeep w hw fun _ _ h => h
    | store v source move =>
      by_cases hwv : w = v
      · subst hwv
        obtain ⟨value, below, -, hvalue, htop, -, happly⟩ := exists_value hlegal
        have hread := StackVariable.read_write_self htop hvalue
        have hkept := StackVariable.read_append_of_le (if move then [] else value)
          (Nat.le_trans htop (Nat.le_of_eq (StackVariable.length_write htop hvalue).symm))
        rw [happly]
        exact hkept.trans (hread.trans (Function.update_self w value s.values).symm)
      · have hvalues : ((store v source move).apply sc s).values w = s.values w :=
          Function.update_of_ne hwv _ _
        rw [hvalues]
        exact hkeep w hw fun height hcovers => hvars.disjoint w hw v hlegal.1 hwv height hcovers

/-- Executing the code of an access does to the stack what the access does on registers.

**Proof sketch.** The stack is split at the variable.  Copying its slots pushes its register, since
slots and registers agree (`run_copyToTop`), and the exchanges replace its slots by the value on top
(`run_overwrite`). -/
theorem run_code (hvars : sc.Locals vars floor) (hs : s.Consistent sc vars floor)
    (hlegal : access.Legal sc vars floor s.stack.length) (m : Machine) (rest : List Word) (code : Code) :
    (m.withStack (s.stack ++ rest)).run (access.code sc s.stack.length ++ code) =
      (m.withStack ((access.apply sc s).stack ++ rest)).run code := by
  cases access with
  | push word => rfl
  | pop =>
    obtain ⟨word, below, hstack⟩ := List.exists_cons_of_length_pos (Nat.zero_lt_of_lt hlegal)
    rw [apply, hstack]
    rfl
  | retrieve v remove =>
    have hread := hs.read_eq v hlegal
    obtain ⟨above, old, below, hstack, hold, hbelow⟩ := StackVariable.exists_eq_append
      (Nat.le_trans (hvars.top_le v hlegal) hs.floor_le)
    rw [hstack, StackVariable.read_append hold hbelow] at hread
    have hdepth : s.stack.length - (sc.stackVariable v).base =
        above.length + (sc.stackVariable v).size := by
      rw [hstack, List.length_append, List.length_append, hold, hbelow]
      omega
    have hcopy := run_copyToTop m (below ++ rest) code above old hold rfl
    rw [LocalAccess.code, hdepth, apply, ← hread, hstack, List.append_assoc, List.append_assoc,
      List.append_assoc, List.append_assoc, List.append_assoc]
    exact hcopy
  | store v source move =>
    obtain ⟨value, lower, hstack, hvalue, htop, -, happly⟩ := exists_value hlegal
    obtain ⟨above, old, below, rfl, hold, hbelow⟩ := StackVariable.exists_eq_append htop
    have hdepth : s.stack.length - (sc.stackVariable v).base - v.ty.sizeOnStack =
        above.length + (sc.stackVariable v).size := by
      have hsize : (sc.stackVariable v).size = v.ty.sizeOnStack := rfl
      rw [hstack, List.length_append, List.length_append, List.length_append, hold, hbelow, hvalue]
      omega
    have hdistance : above.length + (sc.stackVariable v).size = value.length + above.length := by
      rw [hvalue, Nat.add_comm]
    have hwrite := fun code => run_overwrite m value above old (below ++ rest) code
      (hold.trans hvalue.symm) hdistance
    rw [hvalue] at hwrite
    rw [LocalAccess.code, hdepth, happly, hstack, StackVariable.write_append hold hbelow,
      StackVariable.storeCode, List.append_assoc]
    have hstore := hwrite ((if move then [] else
      (sc.stackVariable v).copyCode (above.length + (sc.stackVariable v).size)) ++ code)
    simp only [List.append_assoc] at hstore ⊢
    rw [hstore]
    cases move with
    | true => rfl
    | false =>
      simp only [Bool.false_eq_true, if_false]
      exact run_copyToTop m (below ++ rest) code above value hvalue rfl

end LocalAccess

/-! ## Sequences of accesses -/

/-- Executing accesses that were emitted, legal ones after each other, does to the stack what they do
on registers.

**Proof sketch.** Induction on the accesses.  The invariant is that slots and registers agree; each
access keeps it (`LocalAccess.consistent_apply`). -/
theorem exists_code_of_exec_eq_ok {sc : Scope} {vars : List Variable} {floor : Nat}
    (hvars : sc.Locals vars floor) {accesses : List LocalAccess} {out out' : Output}
    (hfloor : floor ≤ out.code.height)
    (hlegal : LegalFrom sc vars floor out.code.height accesses)
    (hexec : (emitLocalAccesses accesses).exec sc out = (.ok (), out')) :
    ∃ code : Code, out'.code.ops = out.code.ops ++ code.toArray ∧
      ∀ s : LocalState, s.Consistent sc vars floor → s.stack.length = out.code.height →
        (accesses.foldl (LocalAccess.apply sc) s).Consistent sc vars floor ∧
        (accesses.foldl (LocalAccess.apply sc) s).stack.length = out'.code.height ∧
        (∀ height < floor, (∀ access ∈ accesses, ¬access.Writes sc height) →
          slotAt (accesses.foldl (LocalAccess.apply sc) s).stack height = slotAt s.stack height) ∧
        ∀ (m : Machine) (rest : List Word), (m.withStack (s.stack ++ rest)).run code =
          .ok (m.withStack ((accesses.foldl (LocalAccess.apply sc) s).stack ++ rest)) := by
  induction accesses generalizing out with
  | nil =>
    obtain rfl := (Prod.mk.inj hexec).2
    exact ⟨[], by simp, fun s hs hlength => ⟨hs, hlength, fun _ _ _ => rfl, fun _ _ => rfl⟩⟩
  | cons access accesses ih =>
    obtain ⟨hfirst, hrest⟩ := hlegal
    obtain ⟨_, mid, hmid, hexec⟩ := Emit.exec_bind_eq_ok.1 hexec
    obtain ⟨hops, hheight⟩ := LocalAccess.of_exec_eq_ok hvars hfloor hfirst hmid
    rw [← hheight] at hrest
    obtain ⟨code, hops', hrun⟩ := ih
      (Nat.le_trans (LocalAccess.floor_le_heightAfter hfirst hfloor) (Nat.le_of_eq hheight.symm))
      hrest hexec
    refine ⟨access.code sc out.code.height ++ code, by rw [hops', hops]; simp,
      fun s hs hlength => ?_⟩
    rw [← hlength] at hfirst hheight
    obtain ⟨hconsistent, hfinal, hslots, hexecute⟩ := hrun _ (LocalAccess.consistent_apply hvars hs hfirst)
      ((LocalAccess.length_apply hs hvars hfirst).trans hheight.symm)
    refine ⟨hconsistent, hfinal, fun height hlow hout => ?_, fun m rest => ?_⟩
    · have hkept := LocalAccess.slotAt_apply hs hfirst hlow (hout access List.mem_cons_self)
      exact (hslots height hlow fun a ha => hout a (List.mem_cons_of_mem _ ha)).trans hkept
    · rw [← hlength, LocalAccess.run_code hvars hs hfirst]
      exact hexecute m rest

/-- Local variables that are bound to disjoint blocks of slots are a register file with a reach of sixteen
slots.

A variable is read exactly if its lowest slot is among the sixteen topmost ones.  It is written, moving
the value or leaving a copy of it, exactly if its lowest slot lies at most sixteen slots below that of
the value.  Else the access is rejected with that depth, and nothing is emitted.  (The height after an
access also has to stay within a counter.)

Executing accesses that were emitted, interleaved with operands that are pushed and dropped above the
variables, does to the stack what they do on registers: a variable is read as the value that was
written to it last, or as its initial slots.  In the end the slots of every variable are its register,
and no slot below the operands has changed but those of the variables that were written.  Nothing but
the stack changes.

**Proof sketch.** The reach of an access is that of the copies and exchanges it is made of
(`LocalAccess.exec_emit_iff`), whose depth stays the same while the stack shrinks.  For sequences, slots
and registers agree after every access (`exists_code_of_exec_eq_ok`). -/
theorem Scope.Locals.register_file {sc : Scope} {vars : List Variable} {floor : Nat}
    (hvars : sc.Locals vars floor) :
    (∀ v ∈ vars, ∀ (remove : Bool) (out : Output), (sc.stackVariable v).top ≤ out.code.height →
      ReachesExactly sc out (LocalAccess.retrieve v remove).emit
        (out.code.height - (sc.stackVariable v).base) (out.code.height + v.ty.sizeOnStack)) ∧
    (∀ v ∈ vars, ∀ (source : Ty) (move : Bool) (out : Output),
      (sc.stackVariable v).top + v.ty.sizeOnStack ≤ out.code.height →
      ReachesExactly sc out (LocalAccess.store v source move).emit
        (out.code.height - (sc.stackVariable v).base - v.ty.sizeOnStack) out.code.height) ∧
    ∀ (accesses : List LocalAccess) (out out' : Output), floor ≤ out.code.height →
      LegalFrom sc vars floor out.code.height accesses →
      (emitLocalAccesses accesses).exec sc out = (.ok (), out') →
      ∃ code : Code, out'.code.ops = out.code.ops ++ code.toArray ∧
        ∀ (m : Machine) (stack rest : List Word), stack.length = out.code.height →
          ∃ final : LocalState,
            final = accesses.foldl (LocalAccess.apply sc)
              ⟨stack, fun v => (sc.stackVariable v).read stack⟩ ∧
            (m.withStack (stack ++ rest)).run code = .ok (m.withStack (final.stack ++ rest)) ∧
            final.stack.length = out'.code.height ∧
            (∀ v ∈ vars, (sc.stackVariable v).read final.stack = final.values v) ∧
            ∀ height < floor, (∀ access ∈ accesses, ¬access.Writes sc height) →
              slotAt final.stack height = slotAt stack height := by
  refine ⟨fun v hv remove out htop => ?_, fun v hv source move out htop => ?_,
    fun accesses out out' hfloor hlegal hexec => ?_⟩
  · exact LocalAccess.exec_emit_iff (hvars.singleton hv) htop List.mem_cons_self
  · have hle : (sc.stackVariable v).top ≤ out.code.height := Nat.le_of_add_right_le htop
    exact LocalAccess.exec_emit_iff (hvars.singleton hv) hle ⟨List.mem_cons_self, htop, fun _ => htop⟩
  · obtain ⟨code, hops, hrun⟩ := exists_code_of_exec_eq_ok hvars hfloor hlegal hexec
    refine ⟨code, hops, fun m stack rest hlength => ⟨_, rfl, ?_⟩⟩
    obtain ⟨hconsistent, hfinal, hslots, hexecute⟩ := hrun
      ⟨stack, fun v => (sc.stackVariable v).read stack⟩
      ⟨Nat.le_trans hfloor (Nat.le_of_eq hlength.symm), fun _ _ => rfl⟩ hlength
    exact ⟨hexecute m rest, hfinal, hconsistent.read_eq, hslots⟩

/-- A number and a function of two words are written and read, the function with a copy that is dropped
afterwards. -/
theorem Scope.Locals.register_file_interleaved :
    let owner : Variable := ⟨0, "owner", .int 256 false, false, .stack⟩
    let handler : Variable := ⟨1, "handler", .function .external, false, .stack⟩
    let accesses : List LocalAccess := [.push 7, .store owner owner.ty true, .push 8, .push 9,
      .store handler handler.ty false, .pop, .pop, .retrieve owner true, .retrieve handler true]
    ∃ sc : Scope, sc.Locals [handler, owner] 3 ∧ LegalFrom sc [handler, owner] 3 3 accesses ∧
      ∃ code : Code, ∀ (m : Machine) (a b c : Word) (rest : List Word),
        (m.withStack ([c, b, a] ++ rest)).run code =
          .ok (m.withStack ([9, 8, 7, 9, 8, 7] ++ rest)) := by
  intro owner handler accesses
  have hnone : Scope.Locals {} [] 0 := ⟨by simp, by simp, by simp, by simp⟩
  -- one unit, first with the number on its stack and then with both variables
  let first : UnitContext := { output := { code := .ofHeight 1 } }
  have hfirst : first.scope.Locals [] 0 := hnone
  obtain ⟨sc₁, -, hsc₁, howner⟩ := hfirst.bindLocal (v := owner) (by simp) (by decide) (by decide)
  obtain rfl : sc₁ = { locals := [(0, 0)] } := hsc₁
  let second : UnitContext := ⟨{ locals := [(0, 0)] }, { code := .ofHeight 3 }⟩
  have hsecond : second.scope.Locals [owner] 1 := howner
  obtain ⟨sc, -, hsc, hlocals⟩ :=
    hsecond.bindLocal (v := handler) (by simp [owner, handler]) (by decide) (Nat.le_refl 3)
  replace hsc : sc = { locals := [(1, 1), (0, 0)] } := hsc
  have hlegal : LegalFrom sc [handler, owner] 3 3 accesses := by
    rw [hsc]
    simp only [accesses, LegalFrom, LocalAccess.Legal, LocalAccess.heightAfter]
    decide +kernel
  have hemitted : ((emitLocalAccesses accesses).exec sc { code := .ofHeight 3 }).1.toBool = true := by
    rw [hsc]
    decide +kernel
  obtain ⟨out', hexec⟩ := Emit.exists_exec_eq_ok hemitted
  obtain ⟨code, -, hrun⟩ :=
    (Scope.Locals.register_file hlocals).2.2 accesses { code := .ofHeight 3 } out' (Nat.le_refl 3) hlegal
      hexec
  refine ⟨sc, hlocals, hlegal, code, fun m a b c rest => ?_⟩
  obtain ⟨final, hfinal, hexecute, -⟩ := hrun m [c, b, a] rest rfl
  have hstack : final.stack = [9, 8, 7, 9, 8, 7] := by
    rw [hfinal, hsc]
    rfl
  rw [hexecute, hstack]

end WordPlaces
