import WordPlaces.Proofs.Place.StorageValue
import WordPlaces.Proofs.Place.StructCode
import WordPlaces.Proofs.Place.StructCopy

/-!
# Assigning a struct member by member

Executing the code of an assignment to a struct in storage copies the members one after the other.  What
was read from a member of the source is written to the target in one way, wherever the source is.

## Main definitions

* `CopyStep` — what copying one item between two structs makes of the machine.
* `Copies` — a computation whose code copies items one after the other.

## Main results

* `Copies.bind`, `Copies.forM` — items are copied in the order of the code.
* `StorageItem.exists_writeMember_value`, `StorageItem.exists_writeMember_struct` — what was read is
  written to the target.
* `StorageItem.exists_storeStruct_of_copies` — a struct is copied as its members are.
-/

set_option autoImplicit false

namespace WordPlaces

open Machine

/-! ## Copying -/

/-- What copying one item makes of the machine, for the references of the source and the target. -/
abbrev CopyStep (α : Type) := Word → Word → Machine → α → Except MachineFault Machine

/-- A step that does not write memory. -/
def CopyStep.KeepsMemory {α : Type} (step : CopyStep α) : Prop :=
  ∀ source target m a m', step source target m a = .ok m' → m'.memory.bytes = m.memory.bytes

/-- The computation emits code that copies items between the structs whose references lie on the stack,
the target on top, and leaves the stack as it was.  The items can depend on the words in memory and on
the reference of the source. -/
def Copies {α : Type} (sc : Scope) (step : CopyStep α) (c : Emit Unit)
    (items : (Nat → Word) → Word → List α) : Prop :=
  ∃ code, Emits sc c code (.ok ()) ∧ heightFrom 2 code = some 2 ∧
    ∀ (m : Machine) (source target : Word) (rest : List Word) (code' : Code),
      (m.withStack (target :: source :: rest)).run (code ++ code') =
        (items m.memory.loadWord source).foldlM (step source target) m >>= fun m' =>
          (m'.withStack (target :: source :: rest)).run code'

/-- Memory with the same bytes has the same words. -/
theorem Memory.loadWord_congr {memory memory' : Memory} (h : memory'.bytes = memory.bytes) :
    memory'.loadWord = memory.loadWord := by
  funext address
  rw [loadWord, loadWord, h]

/-- Steps that do not write memory do not do so one after the other. -/
theorem CopyStep.KeepsMemory.foldlM {α : Type} {step : CopyStep α} (h : step.KeepsMemory)
    {source target : Word} {items : List α} {m m' : Machine}
    (hm : items.foldlM (step source target) m = .ok m') : m'.memory.bytes = m.memory.bytes := by
  induction items generalizing m with
  | nil =>
    obtain rfl := Except.ok.inj hm
    rfl
  | cons a items ih =>
    obtain ⟨m₁, hstep, hm⟩ := Except.exists_of_bind_eq_ok hm
    exact (ih hm).trans (h _ _ _ _ _ hstep)

namespace Copies

variable {α : Type} {sc : Scope} {step : CopyStep α}

/-- Nothing is copied where nothing is emitted. -/
theorem nil : Copies sc step (pure ()) fun _ _ => [] := ⟨[], .pure (), rfl, fun _ _ _ _ _ => rfl⟩

/-- Two computations that copy items, one after the other. -/
theorem bind (hstep : step.KeepsMemory) {c c' : Emit Unit} {items items' : (Nat → Word) → Word → List α}
    (h : Copies sc step c items) (h' : Copies sc step c' items') :
    Copies sc step (c >>= fun _ => c') fun load source => items load source ++ items' load source := by
  obtain ⟨code, hcode, hheight, hrun⟩ := h
  obtain ⟨code', hcode', hheight', hrun'⟩ := h'
  refine ⟨code ++ code', hcode.bind hcode', ?_, fun m source target rest code'' => ?_⟩
  · rw [heightFrom_append, hheight]
    exact hheight'
  · rw [List.append_assoc, hrun, List.foldlM_append, bind_assoc]
    cases hm : (items m.memory.loadWord source).foldlM (step source target) m with
    | error f => rfl
    | ok m₁ =>
      -- the items of the second part are those of the memory at the start
      rw [← Memory.loadWord_congr (hstep.foldlM hm)]
      exact hrun' m₁ source target rest code''

/-- A computation for each member of a list. -/
theorem forM (hstep : step.KeepsMemory) {β : Type} {bs : List β} {c : β → Emit Unit}
    {items : β → (Nat → Word) → Word → List α} (h : ∀ b ∈ bs, Copies sc step (c b) (items b)) :
    Copies sc step (bs.forM c) fun load source => bs.flatMap fun b => items b load source := by
  induction bs with
  | nil => exact nil
  | cons b bs ih =>
    exact (h b List.mem_cons_self).bind hstep (ih fun b' hb' => h b' (List.mem_cons_of_mem _ hb'))

end Copies

namespace StorageItem

open StructTable

variable {sc : Scope}

/-! ## Writing to the target -/

/-- The operands of a member of the target, whose first slot has been copied to the top. -/
theorem run_targetOperands (m : Machine) (f : Field) (target : Word) (rest : List Word)
    (code : Code) :
    (m.withStack (target :: rest)).run
        ([.push f.slotWord, .add, .pushNat f.storage.byte] ++ code) =
      (m.withStack (BitVec.ofNat 256 f.storage.byte :: (target + f.slotWord) :: rest)).run code := by
  rw [BitVec.add_comm target]
  rfl

/-- A value that was read is written to the leaf of the target. -/
theorem exists_writeMember_value (sc : Scope) {f : Field} {e : Encoding}
    (source location : DataLocation) (hf : f.ty.Writable e) (hfits : f.storage.byte + e.bytes ≤ 32) :
    ∃ code, Emits sc (writeMember source location f) code (.ok ()) ∧
      heightFrom (f.ty.sizeOnStack + 1) code = some 1 ∧
      ∀ (m : Machine) (value : List Word) (target : Word) (rest : List Word) (code' : Code),
        value.length = f.ty.sizeOnStack →
        (m.withStack (value ++ target :: rest)).run (code ++ code') =
          ((m.writeLeaf target ⟨f.ty, f.storage⟩ (f.ty.packed e value)).withStack
            (target :: rest)).run code' := by
  have hvalue := Ty.isValueType_of_encoding?_eq_ok hf.encoding
  have hitem : (⟨f.ty, .persistent⟩ : StorageItem).ty.Writable e := hf
  obtain ⟨write, hwrite, hheight, hrun⟩ := exists_storeValue sc hitem hvalue true
  have hsize : 1 + f.ty.sizeOnStack ≤ stackWindow := by
    rw [hf.sizeOnStack_eq]
    split <;> decide
  have hne : ∀ d declared, f.ty ≠ .struct d declared := by
    intro d declared hty
    rw [hty] at hvalue
    contradiction
  rw [← storeFlat_eq_storeValue hvalue] at hwrite
  have hemits : Emits sc (writeMember source location f) ([.dup (1 + f.ty.sizeOnStack)] ++
      ([.push f.slotWord, .add, .pushNat f.storage.byte] ++ write)) (.ok ()) := by
    rw [writeMember_of_ne_struct hne, Ty.located_of_isValueType hvalue,
      Ty.located_of_isValueType hvalue]
    exact (Emits.dupSlot (by omega) hsize).bind ((Emits.emitAll _).bind hwrite)
  refine ⟨_, hemits, ?_, fun m value target rest code' hlength => ?_⟩
  · have hdup : heightFrom (f.ty.sizeOnStack + 1) [.dup (1 + f.ty.sizeOnStack)] =
        some (f.ty.sizeOnStack + 1 + 1) :=
      heightFrom_copyToTop (by omega) 1
    have htarget : heightFrom (f.ty.sizeOnStack + 2)
        [.push f.slotWord, .add, .pushNat f.storage.byte] = some (f.ty.sizeOnStack + 2 + 1) := rfl
    rw [heightFrom_append, hdup, Option.bind_some, heightFrom_append, htarget, Option.bind_some]
    exact heightFrom_add 1 hheight
  · have hdup : ∀ code, (m.withStack (value ++ target :: rest)).run
        (.dup (1 + f.ty.sizeOnStack) :: code) =
          (m.withStack (target :: (value ++ target :: rest))).run code := by
      intro code
      rw [← hlength, Nat.add_comm]
      exact run_dup_append _ _ _ _ _
    rw [List.append_assoc, List.singleton_append, hdup, List.append_assoc, run_targetOperands,
      hrun _ _ _ _ _ _ hlength hfits, writeLeaf, ← Ty.bytes_of_encoding?_eq_ok hf.encoding]
    rfl

/-- A reference that was read is the source of a nested struct of the target. -/
theorem exists_writeMember_struct {f : Field} {d : StructId} {declared source location : DataLocation}
    {code : Code} (hf : f.ty = .struct d declared)
    (hcode : Emits sc (storeStruct d location (.struct d source) true) code (.ok ()))
    (hheight : heightFrom 3 code = some 0) :
    ∃ code', Emits sc (writeMember source location f) code' (.ok ()) ∧
      heightFrom 2 code' = some 1 ∧
      ∀ (m : Machine) (nested target : Word) (rest : List Word) (code'' : Code),
        (m.withStack (nested :: target :: rest)).run (code' ++ code'') =
          (m.withStack (BitVec.ofNat 256 f.storage.byte :: (target + f.slotWord) :: nested ::
            target :: rest)).run (code ++ code'') := by
  have hemits : Emits sc (writeMember source location f) ([.dup 2] ++
      ([.push f.slotWord, .add, .pushNat f.storage.byte] ++ code)) (.ok ()) := by
    have hdup : Emits sc (dupSlot 2) [.dup 2] (.ok ()) := .dupSlot (by decide) (by decide)
    rw [writeMember_of_struct hf]
    exact hdup.bind ((Emits.emitAll _).bind hcode)
  have hadd := heightFrom_add 1 hheight
  refine ⟨_, hemits, ?_, fun m nested target rest code'' => ?_⟩
  · exact hadd
  · rw [List.append_assoc, List.singleton_append, run_dup_two, List.append_assoc,
      run_targetOperands]

/-! ## Members -/

/-- The slot of a reference in storage is what is read. -/
theorem emits_retrieveMember_storage {f : Field} (hvalue : f.ty.isValueType = false)
    (memoryOffset : Nat) :
    Emits sc (retrieveMember .storage f memoryOffset) (memberOperands f ++ [.pop]) (.ok ()) := by
  have hread : Emits sc ((⟨f.ty.located .storage, .persistent⟩ : StorageItem).retrieve true) [.pop]
      (.ok ()) := by
    unfold retrieve
    rw [Ty.isValueType_located, hvalue]
    exact Emits.bind_nil (.pure ()) (.emit _)
  exact (Emits.emitAll _).bind hread

/-- The pointer of a reference in memory is what is read. -/
theorem emits_retrieveMember_memory {f : Field} (hvalue : f.ty.isValueType = false)
    (memoryOffset : Nat) :
    Emits sc (retrieveMember .memory f memoryOffset)
      ([.pushNat memoryOffset, .dup 3, .add] ++ [.mload]) (.ok ()) := by
  have hread : Emits sc ((⟨f.ty.located .memory, true⟩ : MemoryCell).retrieve true) [.mload]
      (.ok ()) := by
    unfold MemoryCell.retrieve
    rw [Ty.isValueType_located, hvalue]
    exact .emit _
  exact (Emits.emitAll _).bind hread

/-- A member is read, and what was read is written. -/
theorem copies_of_retrieve {α : Type} {step : CopyStep α} {f : Field} {memoryOffset size : Nat}
    {source location : DataLocation} {read write : Code} {items : (Nat → Word) → Word → List α}
    (h : f.memoryOffset = some memoryOffset)
    (hread : Emits sc (retrieveMember source f memoryOffset) read (.ok ()))
    (hreadHeight : heightFrom 2 read = some (size + 2))
    (hwrite : Emits sc (writeMember source location f) write (.ok ()))
    (hwriteHeight : heightFrom (size + 1) write = some 1)
    (hrun : ∀ (m : Machine) (ref target : Word) (rest : List Word) (code' : Code),
      (m.withStack (target :: ref :: rest)).run (read ++ (write ++ code')) =
        (items m.memory.loadWord ref).foldlM (step ref target) m >>= fun m' =>
          (m'.withStack (target :: ref :: rest)).run code') :
    Copies sc step (copyMember source location f) items := by
  refine ⟨read ++ write, ?_, ?_, fun m ref target rest code' => ?_⟩
  · rw [copyMember, h]
    exact hread.bind hwrite
  · rw [heightFrom_append, hreadHeight, Option.bind_some]
    exact heightFrom_add 1 hwriteHeight
  · rw [List.append_assoc]
    exact hrun m ref target rest code'

/-- A mapping is left alone. -/
theorem copies_mapping {α : Type} {step : CopyStep α} {f : Field} (source location : DataLocation)
    (h : f.memoryOffset = none) : Copies sc step (copyMember source location f) fun _ _ => [] := by
  rw [copyMember, h]
  exact .nil

/-! ## Structs -/

/-- Copying a struct copies its members in order. -/
theorem exists_storeStruct_of_copies {α : Type} {step : CopyStep α} (hstep : step.KeepsMemory)
    {d : StructId} {source : DataLocation} (hsource : source ≠ .calldata) (location : DataLocation)
    {items : Field → (Nat → Word) → Word → List α}
    (hmembers : ∀ f ∈ sc.structs.fields d,
      Copies sc step (copyMember source location f) (items f)) (move : Bool) :
    ∃ code, Emits sc (storeStruct d location (.struct d source) move) code (.ok ()) ∧
      heightFrom 3 code = some (if move then 0 else 1) ∧
      ∀ (m : Machine) (offset ref target : Word) (rest : List Word) (code' : Code),
        (m.withStack (offset :: target :: ref :: rest)).run (code ++ code') =
          ((sc.structs.fields d).flatMap fun f => items f m.memory.loadWord ref).foldlM
              (step ref target) m >>= fun m' =>
            (m'.withStack ((if move then [] else [target]) ++ rest)).run code' := by
  obtain ⟨code, hcode, hheight, hrun⟩ := Copies.forM hstep hmembers
  have hend : Emits sc (if move then popSlots 2 else emitAll [.swap 1, .pop])
      (if move then [.pop, .pop] else [.swap 1, .pop]) (.ok ()) := by
    split
    · exact .popSlots 2
    · exact .emitAll _
  refine ⟨[.pop] ++ (code ++ if move then [.pop, .pop] else [.swap 1, .pop]), ?_, ?_, ?_⟩
  · rw [storeStruct_eq d location hsource]
    exact (Emits.emit _).bind (Emits.bind_nil .read (hcode.bind hend))
  · change heightFrom 2 (code ++ _) = _
    rw [heightFrom_append, hheight]
    cases move <;> rfl
  · intro m offset ref target rest code'
    rw [List.append_assoc, List.singleton_append, run_pop, List.append_assoc, hrun]
    cases move <;> rfl

end StorageItem

end WordPlaces
