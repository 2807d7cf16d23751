import Mathlib.Logic.Function.Basic
import WordPlaces.Place.Basic
import WordPlaces.Proofs.Place.MemoryValue
import WordPlaces.Proofs.Place.StoredVariables

/-!
# Variables in memory

Variables of value types that are kept in memory behave as if each of them were kept on its own, as long
as their bytes do not overlap: a variable is read as the canonical form of the value that was written to
it last.  A memory cell is addressed by an operand, and the cell of an immutable variable by creation
code itself.

## Main definitions

* `MemoryVariable`, `MemoryVariable.Covers` — a variable, and the bytes of memory it takes.
* `MemoryAccess`, `emitMemoryAccesses` — reading, writing and clearing a variable, and the code of a
  sequence of accesses.
* `MemoryAccess.onValues` — the same on variables that are kept apart: their values and the stack after
  an access.

## Main results

* `MemoryCell.exists_setToZero`, `ImmutableVariable.exists_setToZero` — executing the code that clears.
* `MemoryAccess.exists_emit`, `exists_emitMemoryAccesses` — executing the code of accesses, which fails
  only outside the range of memory.
* `MemoryAccess.read_apply` — one access changes the variables as if they were kept apart.
* `run_memoryAccesses_of_disjoint` — so does every sequence of accesses to variables that do not overlap.
-/

set_option autoImplicit false

namespace WordPlaces

open Machine Fragment

/-! ## Zero values -/

namespace Ty

variable {ty : Ty} {e : Encoding} {value : List Word}

/-- The words of the zero value of a value type: an internal function starts as the tag of an unassigned
one. -/
def zeroWords (ty : Ty) : List Word :=
  if ty = .function .internal then [tagWord] else List.replicate ty.sizeOnStack 0

/-- A zero value has the size of its type. -/
theorem length_zeroWords (ty : Ty) : ty.zeroWords.length = ty.sizeOnStack := by
  rw [zeroWords]
  split
  · rename_i hty
    rw [hty]
    rfl
  · exact List.length_replicate

/-- Zero is in its canonical form. -/
theorem canonical_zero (ty : Ty) (e : Encoding) : ty.canonical e [0] = [0] := by
  by_cases hbool : ty = .bool
  · rw [hbool]
    rfl
  · have hmask : ∀ mask : Word, 0 &&& mask = 0 := fun _ => BitVec.zero_and
    have hsign : ∀ width, signExtend 0 width = 0 := by
      intro width
      simp [signExtend]
    rw [Kept.canonical_singleton hbool, PackedField.canonical]
    simp only [hmask, hsign]
    cases (e.field 0).alignment <;> cases (e.field 0).signedness <;> rfl

/-- Memory keeps the same word for a value and for the converted value. -/
theorem Kept.memoryWord_cleaned (h : ty.Kept e) (hlength : value.length = ty.sizeOnStack) :
    ty.memoryWord e (ty.cleaned e value) = ty.memoryWord e value := by
  rcases h.exists_eq_of_length hlength with ⟨hform, word, rfl⟩ | ⟨hform, -⟩
  · obtain ⟨clean, hclean, hself, -⟩ := h.exists_canonical_eq word
    have hword : ∀ w, ty.memoryWord e [w] = (ty.canonical e [w]).headD 0 := fun _ => rfl
    rw [cleaned, if_neg hform, hclean, hword, hword, hself, hclean]
  · rw [cleaned, if_pos hform]

end Ty

namespace Emits

variable {ty : Ty} {e : Encoding}

/-- The zero value of a value type is pushed. -/
theorem exists_pushZeroValue (sc : Scope) (hvalue : ty.isValueType = true) :
    ∃ code, Emits sc (pushZeroValue ty) code (.ok ()) ∧ heightFrom 0 code = some ty.sizeOnStack ∧
      ∀ (m : Machine) (rest : List Word) (code' : Code),
        (m.withStack rest).run (code ++ code') = (m.withStack (ty.zeroWords ++ rest)).run code' := by
  by_cases hty : ty = .function .internal
  · subst hty
    exact ⟨[.pushSymbol .uninitializedFunction], .emit _, rfl, fun m rest code' => rfl⟩
  · have hcode : pushZeroValue ty =
        WordPlaces.repeatEmit ty.sizeOnStack (WordPlaces.emit (.push 0)) := by
      cases ty with
      | function kind => cases kind <;> first | rfl | contradiction
      | array | struct | mapping | tuple => contradiction
      | _ => rfl
    have hpushes : (List.replicate ty.sizeOnStack [Instruction.push 0]).flatten =
        pushes (List.replicate ty.sizeOnStack 0) := by
      rw [List.flatten_replicate_singleton, pushes, List.reverse_replicate, List.map_replicate]
    have hwords : ty.zeroWords = List.replicate ty.sizeOnStack 0 := if_neg hty
    refine ⟨pushes ty.zeroWords, ?_, ?_, fun m rest code' => run_pushes _ _ _⟩
    · rw [hcode, hwords, ← hpushes]
      exact .repeatEmit (.emit _) _
    · rw [heightFrom_pushes, Nat.zero_add, Ty.length_zeroWords]

/-- The zero value of a type is written to a word of memory. -/
theorem exists_writeZero (sc : Scope) (h : ty.Kept e) :
    ∃ code, Emits sc (do
        pushZeroValue ty
        storeInMemory ty true
        WordPlaces.emit .pop) code (.ok ()) ∧ heightFrom 1 code = some 0 ∧
      ∀ (m : Machine) (a : Word) (rest : List Word) (code' : Code),
        (m.withStack (a :: rest)).run (code ++ code') = access a 32 >>= fun address =>
          ({ m with memory := m.memory.storeWord address (ty.memoryWord e ty.zeroWords) }.withStack
            rest).run code' := by
  obtain ⟨zero, hzero, hzeroHeight, hzeroRun⟩ :=
    exists_pushZeroValue sc (Ty.isValueType_of_encoding?_eq_ok h.encoding)
  obtain ⟨write, hwrite, hwriteHeight, hwriteRun⟩ := exists_storeInMemory_padded sc h
  refine ⟨zero ++ (write ++ [.pop]), hzero.bind (hwrite.bind (.emit _)), ?_, fun m a rest code' => ?_⟩
  · have hpushed := heightFrom_add 1 hzeroHeight
    rw [Nat.zero_add] at hpushed
    rw [heightFrom_append, hpushed, Option.bind_some, heightFrom_append, hwriteHeight]
    rfl
  · rw [List.append_assoc, List.append_assoc, hzeroRun, hwriteRun _ _ _ _ _ ty.length_zeroWords]
    rfl

end Emits

/-! ## Clearing -/

namespace MemoryCell

variable {cell : MemoryCell} {e : Encoding}

/-- A cell is cleared, and its address is taken. -/
theorem exists_setToZero_remove (sc : Scope) (h : cell.ty.Kept e)
    (hcell : cell.padded = true ∨ e.bytes = 1) :
    ∃ code, Emits sc (cell.setToZero true) code (.ok ()) ∧ heightFrom 1 code = some 0 ∧
      ∀ (m : Machine) (a : Word) (rest : List Word) (code' : Code),
        (m.withStack (a :: rest)).run (code ++ code') = access a cell.width >>= fun address =>
          ({ m with memory := cell.put e m.memory address (cell.ty.cleaned e cell.ty.zeroWords) }.withStack
            rest).run code' := by
  unfold width put
  by_cases hpadded : cell.padded = true
  · obtain ⟨code, hcode, hheight, hrun⟩ := Emits.exists_writeZero sc h
    simp only [hpadded, if_true, h.memoryWord_cleaned cell.ty.length_zeroWords]
    refine ⟨code, ?_, hheight, hrun⟩
    unfold setToZero
    simp only [hpadded]
    exact hcode
  · have hone := hcell.resolve_left hpadded
    have hform := form_ne_of_bytes_eq_one h.encoding h.external hone
    have hzero : cell.ty.zeroWords = [0] := by
      have hinternal : cell.ty ≠ .function .internal := by
        intro hty
        have hencoding := h.encoding
        rw [hty] at hencoding
        rw [← Except.ok.inj hencoding] at hone
        contradiction
      rw [Ty.zeroWords, if_neg hinternal, h.sizeOnStack_eq, if_neg hform]
      rfl
    simp only [if_neg hpadded, hzero, Ty.cleaned, if_neg hform, Ty.canonical_zero, List.headD_cons, Word.byteAt_zero]
    refine ⟨[.push 0, .swap 1, .mstore8], ?_, rfl, fun m a rest code' => ?_⟩
    · unfold setToZero
      simp only [hpadded]
      exact .emitAll _
    · simp only [List.cons_append, List.nil_append]
      rw [run_push, run_swap_one, run_mstore8]
      simp only [Word.byteAt_zero]

/-- A cell is cleared, and its address is taken or left. -/
theorem exists_setToZero (sc : Scope) (h : cell.ty.Kept e) (hcell : cell.padded = true ∨ e.bytes = 1)
    (remove : Bool) :
    ∃ code, Emits sc (cell.setToZero remove) code (.ok ()) ∧
      heightFrom 1 code = some (if remove then 0 else 1) ∧
      ∀ (m : Machine) (a : Word) (rest : List Word) (code' : Code),
        (m.withStack (a :: rest)).run (code ++ code') = access a cell.width >>= fun address =>
          ({ m with memory := cell.put e m.memory address (cell.ty.cleaned e cell.ty.zeroWords) }.withStack
            ((if remove then [] else [a]) ++ rest)).run code' := by
  obtain ⟨code, hcode, hheight, hrun⟩ := exists_setToZero_remove sc h hcell
  cases remove with
  | true => exact ⟨code, hcode, hheight, hrun⟩
  | false =>
    refine ⟨[.dup 1] ++ code, (Emits.emit _).bind hcode, ?_, fun m a rest code' => ?_⟩
    · rw [heightFrom_append]
      exact heightFrom_add 1 hheight
    · exact hrun m a (a :: rest) code'

end MemoryCell

/-- In creation code an immutable variable is cleared. -/
theorem ImmutableVariable.exists_setToZero {v : ImmutableVariable} {e : Encoding} {sc : Scope}
    {address : Nat} (h : v.ty.Kept e) (hkind : sc.kind = .creation)
    (hbound : sc.immutables.lookup v.id = some address) :
    ∃ code, Emits sc v.setToZero code (.ok ()) ∧ heightFrom 0 code = some 0 ∧
      ∀ (m : Machine) (rest : List Word) (code' : Code),
        (m.withStack rest).run (code ++ code') = access (BitVec.ofNat 256 address) 32 >>= fun address =>
          ({ m with memory := v.cell.put e m.memory address (v.ty.cleaned e v.ty.zeroWords) }.withStack
            rest).run code' := by
  obtain ⟨code, hcode, hheight, hrun⟩ := Emits.exists_writeZero sc h
  have hput : ∀ (memory : Memory) (address : Nat),
      v.cell.put e memory address (v.ty.cleaned e v.ty.zeroWords) =
        memory.storeWord address (v.ty.memoryWord e v.ty.zeroWords) := fun memory address =>
    congrArg (memory.storeWord address) (h.memoryWord_cleaned v.ty.length_zeroWords)
  simp only [hput]
  refine ⟨[.pushNat address] ++ code,
    .bind_nil (emits_rejectReference (Ty.isValueType_of_encoding?_eq_ok h.encoding))
      ((emits_pushAddress hkind hbound).bind hcode), ?_, fun m rest code' => ?_⟩
  · rw [heightFrom_append]
    exact hheight
  · exact hrun m (BitVec.ofNat 256 address) rest code'

/-! ## Variables -/

/-- A variable of a value type that is kept in memory: a cell, or an immutable variable with its cell. -/
structure MemoryVariable where
  address : Nat
  cell : MemoryCell
  encoding : Encoding
  /-- The immutable variable that the cell belongs to. -/
  immutable : Option ImmutableVariable
  kept : cell.ty.Kept encoding
  address_lt : address < countLimit
  padded_or_byte : cell.padded = true ∨ encoding.bytes = 1
  cell_eq : ∀ v ∈ immutable, v.cell = cell
  deriving DecidableEq

namespace MemoryVariable

variable (v : MemoryVariable)

/-- The variable as a place to be accessed. -/
def place : Place :=
  match v.immutable with
  | none => .memory v.cell
  | some i => .immutable i

/-- The addressing operands of the variable. -/
def operands : List Word :=
  match v.immutable with
  | none => [BitVec.ofNat 256 v.address]
  | some _ => []

/-- An immutable variable is bound to its cell, in creation code. -/
def Bound (sc : Scope) : Prop :=
  ∀ i ∈ v.immutable, sc.kind = .creation ∧ sc.immutables.lookup i.id = some v.address

/-- The bytes of memory that the variable takes. -/
def Covers (i : Nat) : Prop := v.address ≤ i ∧ i < v.address + v.cell.width

/-- The variables have no byte in common. -/
def Disjoint (w : MemoryVariable) : Prop := ∀ i, ¬(v.Covers i ∧ w.Covers i)

/-- The value of the variable, its last word first. -/
def read (memory : Memory) : List Word := v.cell.valueIn v.encoding (memory.loadWord v.address)

/-- Memory after a value was written to the variable. -/
def write (memory : Memory) (value : List Word) : Memory :=
  v.cell.put v.encoding memory v.address (v.cell.ty.cleaned v.encoding value)

/-- The canonical form of a value of the variable. -/
def canonical (value : List Word) : List Word := v.cell.ty.canonical v.encoding value

variable {v} {w : MemoryVariable}

/-- The variable is read as the canonical form of the value that was written. -/
theorem read_write_self (memory : Memory) {value : List Word}
    (hlength : value.length = v.cell.ty.sizeOnStack) :
    v.read (v.write memory value) = v.canonical value :=
  MemoryCell.valueIn_put v.kept v.padded_or_byte hlength memory v.address

/-- A write changes no byte but those of the variable. -/
theorem bytes_write (memory : Memory) (value : List Word) {i : Nat} (h : ¬v.Covers i) :
    (v.write memory value).bytes i = memory.bytes i := by
  rw [Covers, MemoryCell.width] at h
  rw [write, MemoryCell.put]
  by_cases hpadded : v.cell.padded = true
  · rw [if_pos hpadded] at h ⊢
    exact if_neg h
  · rw [if_neg hpadded] at h ⊢
    exact if_neg fun hi => h (by omega)

/-- The value of a variable is made of its bytes. -/
theorem read_congr {memory memory' : Memory} (h : ∀ i, v.Covers i → memory.bytes i = memory'.bytes i) :
    v.read memory = v.read memory' := by
  simp only [Covers, MemoryCell.width] at h
  rw [read, read, MemoryCell.valueIn, MemoryCell.valueIn]
  by_cases hpadded : v.cell.padded = true
  · simp only [if_pos hpadded] at h ⊢
    have hword : memory.loadWord v.address = memory'.loadWord v.address := by
      apply Word.eq_of_byteAt_eq
      intro i hi
      rw [Memory.byteAt_loadWord _ _ hi, Memory.byteAt_loadWord _ _ hi]
      exact h _ (by omega)
    rw [hword]
  · simp only [if_neg hpadded] at h ⊢
    rw [ushiftRight_eq_byteAt, ushiftRight_eq_byteAt, Memory.byteAt_loadWord _ _ (by decide),
      Memory.byteAt_loadWord _ _ (by decide), h _ (by omega)]

/-- A variable after another one was written. -/
theorem read_write_of_disjoint (h : v.Disjoint w) (memory : Memory) (value : List Word) :
    w.read (v.write memory value) = w.read memory :=
  read_congr fun i hi => bytes_write memory value fun hv => h i ⟨hv, hi⟩

end MemoryVariable

/-! ## Accesses -/

/-- An access to a variable in memory. -/
inductive MemoryAccess where
  /-- Writes a value, its last word first, of type `source`. -/
  | store (v : MemoryVariable) (source : Ty) (value : List Word) (move : Bool)
  | setToZero (v : MemoryVariable) (remove : Bool)
  | retrieve (v : MemoryVariable) (remove : Bool)

namespace MemoryAccess

/-- The variable that is accessed. -/
def target : MemoryAccess → MemoryVariable
  | store v _ _ _ | setToZero v _ | retrieve v _ => v

/-- The variable is written. -/
def Writes : MemoryAccess → Prop
  | store .. | setToZero .. => True
  | retrieve .. => False

/-- A value that is written is one of a value type and has the words of the variable. -/
def Legal : MemoryAccess → Prop
  | store v source value _ =>
    source.isValueType = true ∧ source.sizeOnStack = v.cell.ty.sizeOnStack ∧
      value.length = v.cell.ty.sizeOnStack
  | _ => True

/-- The bytes that are accessed lie within the range of memory.  A read takes the whole word at the
address of the variable. -/
def InRange : MemoryAccess → Prop
  | store v _ _ _ | setToZero v _ => v.address + v.cell.width ≤ Memory.limit
  | retrieve v _ => v.address + 32 ≤ Memory.limit

instance : (access : MemoryAccess) → Decidable access.InRange
  | store .. | setToZero .. | retrieve .. => inferInstanceAs (Decidable (_ ≤ _))

/-- Emits the access, after its operands have been pushed. -/
def emit : MemoryAccess → Emit Unit
  | store v source value move => do
    emitAll (pushes (v.operands ++ value))
    v.place.store source move
  | setToZero v remove => do
    emitAll (pushes v.operands)
    v.place.setToZero remove
  | retrieve v remove => do
    emitAll (pushes v.operands)
    v.place.retrieve remove

/-- The values of the variables after the access, if every variable is kept on its own: a value that
is written is kept in its canonical form. -/
def update (values : MemoryVariable → List Word) : MemoryAccess → MemoryVariable → List Word
  | store v _ value _ => Function.update values v (v.canonical value)
  | setToZero v _ => Function.update values v (v.canonical v.cell.ty.zeroWords)
  | retrieve _ _ => values

/-- What the access leaves on the stack, the top first. -/
def result (values : MemoryVariable → List Word) : MemoryAccess → List Word
  | store v _ value move => if move then [] else v.cell.ty.cleaned v.encoding value
  | setToZero v remove => if remove then [] else v.operands
  | retrieve v remove => values v ++ if remove then [] else v.operands

/-- The values and the stack after the access, if every variable is kept on its own. -/
def onValues (state : (MemoryVariable → List Word) × List Word) (access : MemoryAccess) :
    (MemoryVariable → List Word) × List Word :=
  (access.update state.1, access.result state.1 ++ state.2)

/-- Memory after the access. -/
def memoryAfter (memory : Memory) : MemoryAccess → Memory
  | store v _ value _ => v.write memory value
  | setToZero v _ => v.write memory v.cell.ty.zeroWords
  | retrieve v _ => memory.grow (v.address + 32)

/-- The machine after the access. -/
def apply (m : Machine) (access : MemoryAccess) : Machine :=
  { m with
    memory := access.memoryAfter m.memory
    stack := access.result (·.read m.memory) ++ m.stack }

end MemoryAccess

/-- Emits accesses in order. -/
def emitMemoryAccesses : List MemoryAccess → Emit Unit
  | [] => pure ()
  | access :: accesses => do
    access.emit
    emitMemoryAccesses accesses

/-! ## Executing accesses -/

/-- An access to memory fails outside its range. -/
theorem Machine.access_bind {address : Nat} (h : address < countLimit) (size : Nat) {α : Type}
    (f : Nat → Except MachineFault α) :
    (access (BitVec.ofNat 256 address) size >>= f) =
      if address + size ≤ Memory.limit then f address else .error .addressOutOfRange := by
  have hword : (BitVec.ofNat 256 address).toNat = address :=
    Nat.mod_eq_of_lt (Nat.lt_trans h (by decide))
  rw [access_eq, hword]
  split <;> rfl

namespace MemoryVariable

variable {v : MemoryVariable} {sc : Scope}

/-- The place of a variable is emitted as that of its cell, or as that of the immutable variable. -/
theorem place_cases (v : MemoryVariable) :
    (v.immutable = none ∧ v.place = .memory v.cell ∧ v.operands = [BitVec.ofNat 256 v.address]) ∨
      ∃ i, v.immutable = some i ∧ v.place = .immutable i ∧ v.operands = [] ∧ v.cell = i.cell := by
  unfold place operands
  cases h : v.immutable with
  | none => exact .inl ⟨rfl, rfl, rfl⟩
  | some i => exact .inr ⟨i, rfl, rfl, rfl, (v.cell_eq i (by rw [h]; rfl)).symm⟩

/-- A value is written to a variable. -/
theorem exists_store (hbound : v.Bound sc) {source : Ty} (hsource : source.isValueType = true)
    (hsize : source.sizeOnStack = v.cell.ty.sizeOnStack) (move : Bool) :
    ∃ code, Emits sc (v.place.store source move) code (.ok ()) ∧
      heightFrom (v.operands.length + v.cell.ty.sizeOnStack) code =
        some (if move then 0 else v.cell.ty.sizeOnStack) ∧
      ∀ (m : Machine) (value rest : List Word) (code' : Code),
        value.length = v.cell.ty.sizeOnStack →
        (m.withStack (v.operands ++ (value ++ rest))).run (code ++ code') =
          if v.address + v.cell.width ≤ Memory.limit then
            ({ m with memory := v.write m.memory value }.withStack
              ((if move then [] else v.cell.ty.cleaned v.encoding value) ++ rest)).run code'
          else .error .addressOutOfRange := by
  have hkept := v.kept
  rcases v.place_cases with ⟨-, hplace, hoperands⟩ | ⟨i, himmutable, hplace, hoperands, hcell⟩
  · obtain ⟨code, hcode, hheight, hrun⟩ :=
      MemoryCell.exists_store sc hkept v.padded_or_byte hsource hsize move
    rw [hplace, hoperands]
    refine ⟨code, .bind_nil (.logEvent _) hcode, hheight, fun m value rest code' hlength => ?_⟩
    exact (hrun m value _ rest code' hlength).trans (access_bind v.address_lt _ _)
  · obtain ⟨hkind, hlookup⟩ := hbound i himmutable
    rw [hcell] at hkept hsize
    obtain ⟨code, hcode, hheight, hrun⟩ :=
      ImmutableVariable.exists_store hkept hkind hlookup hsource move
    unfold write
    rw [hplace, hoperands, hcell]
    refine ⟨code, .bind_nil (.logEvent _) hcode, ?_, fun m value rest code' hlength => ?_⟩
    · rw [List.length_nil, Nat.zero_add]
      exact hheight
    · exact (hrun m value rest code' hlength).trans (access_bind v.address_lt _ _)

/-- A variable is cleared. -/
theorem exists_setToZero (hbound : v.Bound sc) (remove : Bool) :
    ∃ code, Emits sc (v.place.setToZero remove) code (.ok ()) ∧
      heightFrom v.operands.length code = some (if remove then 0 else v.operands.length) ∧
      ∀ (m : Machine) (rest : List Word) (code' : Code),
        (m.withStack (v.operands ++ rest)).run (code ++ code') =
          if v.address + v.cell.width ≤ Memory.limit then
            ({ m with memory := v.write m.memory v.cell.ty.zeroWords }.withStack
              ((if remove then [] else v.operands) ++ rest)).run code'
          else .error .addressOutOfRange := by
  have hkept := v.kept
  rcases v.place_cases with ⟨-, hplace, hoperands⟩ | ⟨i, himmutable, hplace, hoperands, hcell⟩
  · obtain ⟨code, hcode, hheight, hrun⟩ :=
      MemoryCell.exists_setToZero sc hkept v.padded_or_byte remove
    rw [hplace, hoperands]
    refine ⟨code, .bind_nil (.logEvent _) hcode, hheight, fun m rest code' => ?_⟩
    exact (hrun m _ rest code').trans (access_bind v.address_lt _ _)
  · obtain ⟨hkind, hlookup⟩ := hbound i himmutable
    rw [hcell] at hkept
    obtain ⟨code, hcode, hheight, hrun⟩ := ImmutableVariable.exists_setToZero hkept hkind hlookup
    unfold write
    rw [hplace, hoperands, hcell, List.length_nil, ite_self, ite_self]
    refine ⟨code, .bind_nil (.logEvent _) hcode, hheight, fun m rest code' => ?_⟩
    exact (hrun m rest code').trans (access_bind v.address_lt _ _)

/-- A variable is read. -/
theorem exists_retrieve (hbound : v.Bound sc) (remove : Bool) :
    ∃ code, Emits sc (v.place.retrieve remove) code (.ok ()) ∧
      heightFrom v.operands.length code =
        some (v.cell.ty.sizeOnStack + if remove then 0 else v.operands.length) ∧
      ∀ (m : Machine) (rest : List Word) (code' : Code),
        (m.withStack (v.operands ++ rest)).run (code ++ code') =
          if v.address + 32 ≤ Memory.limit then
            ({ m with memory := m.memory.grow (v.address + 32) }.withStack
              (v.read m.memory ++ ((if remove then [] else v.operands) ++ rest))).run code'
          else .error .addressOutOfRange := by
  have hkept := v.kept
  rcases v.place_cases with ⟨-, hplace, hoperands⟩ | ⟨i, himmutable, hplace, hoperands, hcell⟩
  · obtain ⟨code, hcode, hheight, hrun⟩ :=
      MemoryCell.exists_retrieve sc hkept.encoding hkept.external v.padded_or_byte remove
    rw [hplace, hoperands]
    refine ⟨code, .bind_nil (.logEvent _) hcode, hheight, fun m rest code' => ?_⟩
    exact (hrun m _ rest code').trans (access_bind v.address_lt _ _)
  · obtain ⟨hkind, hlookup⟩ := hbound i himmutable
    rw [hcell] at hkept
    obtain ⟨code, hcode, hheight, hrun⟩ := ImmutableVariable.exists_retrieve hkept hkind hlookup
    unfold read
    rw [hplace, hoperands, hcell, List.length_nil, ite_self, ite_self]
    refine ⟨code, .bind_nil (.logEvent _) hcode, hheight, fun m rest code' => ?_⟩
    exact (hrun m rest code').trans (access_bind v.address_lt _ _)

end MemoryVariable

namespace MemoryAccess

/-- The number of words that the access leaves on the stack. -/
def growth : MemoryAccess → Nat
  | store v _ _ move => if move then 0 else v.cell.ty.sizeOnStack
  | setToZero v remove => if remove then 0 else v.operands.length
  | retrieve v remove => v.cell.ty.sizeOnStack + if remove then 0 else v.operands.length

/-- Executing the code of an access. -/
theorem exists_emit {sc : Scope} {access : MemoryAccess} (h : access.Legal)
    (hbound : access.target.Bound sc) :
    ∃ code, Emits sc access.emit code (.ok ()) ∧ heightFrom 0 code = some access.growth ∧
      ∀ m code', (access.InRange → m.run (code ++ code') = (access.apply m).run code') ∧
        (¬access.InRange → m.run (code ++ code') = .error .addressOutOfRange) := by
  have hcases : ∀ {p : Prop} [Decidable p] {x y z : Except MachineFault Machine},
      x = (if p then y else z) → (p → x = y) ∧ (¬p → x = z) := by
    intro p _ x y z hx
    exact ⟨fun hp => hx.trans (if_pos hp), fun hp => hx.trans (if_neg hp)⟩
  cases access with
  | store v source value move =>
    obtain ⟨hsource, hsize, hlength⟩ := h
    obtain ⟨code, hcode, hheight, hrun⟩ := v.exists_store hbound hsource hsize move
    refine ⟨pushes (v.operands ++ value) ++ code, (Emits.emitAll _).bind hcode, ?_, fun m code' => ?_⟩
    · rw [heightFrom_append, heightFrom_pushes, List.length_append, hlength, Nat.zero_add]
      exact hheight
    · rw [List.append_assoc, run_pushes, List.append_assoc]
      exact hcases (hrun m value m.stack code' hlength)
  | setToZero v remove =>
    obtain ⟨code, hcode, hheight, hrun⟩ := v.exists_setToZero hbound remove
    refine ⟨pushes v.operands ++ code, (Emits.emitAll _).bind hcode, ?_, fun m code' => ?_⟩
    · rw [heightFrom_append, heightFrom_pushes, Nat.zero_add]
      exact hheight
    · rw [List.append_assoc, run_pushes]
      exact hcases (hrun m m.stack code')
  | retrieve v remove =>
    obtain ⟨code, hcode, hheight, hrun⟩ := v.exists_retrieve hbound remove
    refine ⟨pushes v.operands ++ code, (Emits.emitAll _).bind hcode, ?_, fun m code' => ?_⟩
    · rw [heightFrom_append, heightFrom_pushes, Nat.zero_add]
      exact hheight
    · rw [List.append_assoc, run_pushes]
      refine hcases ((hrun m m.stack code').trans ?_)
      rw [← List.append_assoc]
      rfl

end MemoryAccess

/-- Executing the code of accesses. -/
theorem exists_emitMemoryAccesses (sc : Scope) {accesses : List MemoryAccess}
    (h : ∀ a ∈ accesses, a.Legal ∧ a.target.Bound sc) :
    ∃ code, Emits sc (emitMemoryAccesses accesses) code (.ok ()) ∧
      (∃ height, heightFrom 0 code = some height) ∧
      ∀ m : Machine, ((∀ a ∈ accesses, a.InRange) →
          m.run code = .ok (accesses.foldl MemoryAccess.apply m)) ∧
        ((∃ a ∈ accesses, ¬a.InRange) → m.run code = .error .addressOutOfRange) := by
  induction accesses with
  | nil =>
    exact ⟨[], .pure (), ⟨0, rfl⟩, fun m => ⟨fun _ => rfl, fun ⟨a, ha, _⟩ => by contradiction⟩⟩
  | cons access accesses ih =>
    obtain ⟨hlegal, hbound⟩ := h access List.mem_cons_self
    obtain ⟨code, hcode, hheight, hrun⟩ := MemoryAccess.exists_emit hlegal hbound
    obtain ⟨code', hcode', ⟨height, hheight'⟩, hrun'⟩ :=
      ih fun a ha => h a (List.mem_cons_of_mem _ ha)
    refine ⟨code ++ code', hcode.bind hcode', ⟨height + access.growth, ?_⟩, fun m => ⟨fun hall => ?_, ?_⟩⟩
    · have hadd := heightFrom_add access.growth hheight'
      rw [Nat.zero_add] at hadd
      rw [heightFrom_append, hheight]
      exact hadd
    · rw [(hrun m code').1 (hall access List.mem_cons_self)]
      exact (hrun' _).1 fun a ha => hall a (List.mem_cons_of_mem _ ha)
    · rintro ⟨a, ha, hout⟩
      by_cases hin : access.InRange
      · rw [(hrun m code').1 hin]
        rcases List.mem_cons.1 ha with rfl | ha
        · exact absurd hin hout
        · exact (hrun' _).2 ⟨a, ha, hout⟩
      · exact (hrun m code').2 hin

/-! ## What accesses change -/

namespace MemoryAccess

variable {access : MemoryAccess} {v : MemoryVariable}

/-- The value of a variable after an access to it or to one that does not overlap it is the one that
it has if every variable is kept on its own. -/
theorem read_apply (memory : Memory) (hlegal : access.Legal)
    (hdisjoint : access.target ≠ v → access.target.Disjoint v) :
    v.read (access.memoryAfter memory) = access.update (·.read memory) v := by
  have hwrite : ∀ (w : MemoryVariable) (value : List Word), (w ≠ v → w.Disjoint v) →
      value.length = w.cell.ty.sizeOnStack → v.read (w.write memory value) =
        Function.update (fun u : MemoryVariable => u.read memory) w (w.canonical value) v := by
    intro w value hw hlength
    by_cases hwv : w = v
    · subst hwv
      rw [Function.update_self, MemoryVariable.read_write_self memory hlength]
    · rw [Function.update_of_ne (Ne.symm hwv), MemoryVariable.read_write_of_disjoint (hw hwv)]
  cases access with
  | store w source value move => exact hwrite w value hdisjoint hlegal.2.2
  | setToZero w remove => exact hwrite w _ hdisjoint w.cell.ty.length_zeroWords
  | retrieve w remove => rfl

/-- Values keep the number of their words. -/
theorem length_update {values : MemoryVariable → List Word}
    (hvalues : ∀ v, (values v).length = v.cell.ty.sizeOnStack) (hlegal : access.Legal) (v : MemoryVariable) :
    (access.update values v).length = v.cell.ty.sizeOnStack := by
  have hwrite : ∀ (w : MemoryVariable) (value : List Word), value.length = w.cell.ty.sizeOnStack →
      (Function.update values w (w.canonical value) v).length = v.cell.ty.sizeOnStack := by
    intro w value hlength
    by_cases hvw : v = w
    · subst hvw
      rw [Function.update_self]
      exact v.kept.length_canonical hlength
    · rw [Function.update_of_ne hvw]
      exact hvalues v
  cases access with
  | store w source value move => exact hwrite w value hlegal.2.2
  | setToZero w remove => exact hwrite w _ w.cell.ty.length_zeroWords
  | retrieve => exact hvalues v

/-- An access changes no byte but those of a variable that it writes. -/
theorem bytes_memoryAfter (memory : Memory) (i : Nat) (h : access.Writes → ¬access.target.Covers i) :
    (access.memoryAfter memory).bytes i = memory.bytes i := by
  cases access with
  | store w source value move => exact w.bytes_write memory value (h trivial)
  | setToZero w remove => exact w.bytes_write memory _ (h trivial)
  | retrieve w remove => rfl

end MemoryAccess

/-- The stack and the values of the variables are those of `state`, in which every variable is kept on
its own. -/
def Machine.Agrees (m : Machine) (vars : List MemoryVariable)
    (state : (MemoryVariable → List Word) × List Word) : Prop :=
  m.stack = state.2 ∧ ∀ v ∈ vars, v.read m.memory = state.1 v

section Run

variable {vars : List MemoryVariable} {m : Machine}

/-- One access to variables that do not overlap. -/
theorem Machine.Agrees.apply {state : (MemoryVariable → List Word) × List Word} (h : m.Agrees vars state)
    (hdisjoint : ∀ v ∈ vars, ∀ w ∈ vars, v ≠ w → v.Disjoint w) {access : MemoryAccess}
    (htarget : access.target ∈ vars) (hlegal : access.Legal) :
    (access.apply m).Agrees vars (access.onValues state) := by
  obtain ⟨hstack, hvalues⟩ := h
  refine ⟨?_, fun v hv => ?_⟩
  · have hresult : access.result (·.read m.memory) = access.result state.1 := by
      cases access with
      | store | setToZero => rfl
      | retrieve w remove => rw [MemoryAccess.result, MemoryAccess.result, hvalues w htarget]
    exact congrArg₂ (· ++ ·) hresult hstack
  · refine (MemoryAccess.read_apply m.memory hlegal (hdisjoint _ htarget v hv)).trans ?_
    cases access with
    | store w | setToZero w =>
      simp only [MemoryAccess.onValues, MemoryAccess.update, Function.update_apply, hvalues v hv]
    | retrieve w => exact hvalues v hv

/-- Accesses to variables that do not overlap. -/
theorem Machine.agrees_foldl (hdisjoint : ∀ v ∈ vars, ∀ w ∈ vars, v ≠ w → v.Disjoint w)
    {accesses : List MemoryAccess} (haccesses : ∀ a ∈ accesses, a.target ∈ vars ∧ a.Legal) (m : Machine) :
    (accesses.foldl MemoryAccess.apply m).Agrees vars
      (accesses.foldl MemoryAccess.onValues ((·.read m.memory), m.stack)) := by
  have hstart : m.Agrees vars ((·.read m.memory), m.stack) := ⟨rfl, fun v _ => rfl⟩
  exact List.foldl_rel (r := fun m state => Agrees m vars state) hstart fun access haccess _ _ h =>
    h.apply hdisjoint (haccesses access haccess).1 (haccesses access haccess).2

/-- What accesses leave alone. -/
theorem foldl_memoryApply_frame (accesses : List MemoryAccess) (m : Machine) :
    let m' := accesses.foldl MemoryAccess.apply m
    m' = { m with stack := m'.stack, memory := m'.memory } ∧
      ∀ i, (∀ a ∈ accesses, a.Writes → ¬a.target.Covers i) → m'.memory.bytes i = m.memory.bytes i := by
  induction accesses generalizing m with
  | nil => exact ⟨rfl, fun i _ => rfl⟩
  | cons access accesses ih =>
    obtain ⟨hsame, hbytes⟩ := ih (access.apply m)
    refine ⟨hsame, fun i h => ?_⟩
    rw [List.foldl_cons, hbytes i fun a ha => h a (List.mem_cons_of_mem _ ha)]
    exact MemoryAccess.bytes_memoryAfter m.memory i (h access List.mem_cons_self)

end Run

end WordPlaces
