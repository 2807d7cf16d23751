import WordPlaces.Proofs.Emit.Reach
import WordPlaces.Proofs.Place.StackContract

/-!
# The code of places reaches its slots

The code of a place that is not on the stack reaches at most sixteen slots down, whatever its type: values
have one or two slots, and structs are copied with both references right below the value of one member.
Only a member that is a tuple can be wider.  Local variables and the components of a tuple are reached
with checked instructions.

## Main definitions

* `StructTable.HasNarrowTuples` — a struct all of whose members leave the slot below them within reach.
* `Place.IsOffStack` — the places with operands of their own.
* `Place.HasNarrowMembers` — a struct in storage that can be copied member by member.

## Main results

* `Place.confined_retrieve`, `Place.confined_store`, `Place.confined_setToZero` — the three accesses of all
  places.
-/

set_option autoImplicit false

namespace WordPlaces

open Fragment StructTable Instruction

variable {strict : Prop} {sc : Scope}

/-- All values but tuples take at most two slots. -/
theorem Ty.sizeOnStack_le_two {ty : Ty} (h : ∀ components, ty ≠ .tuple components) :
    ty.sizeOnStack ≤ 2 := by
  cases ty with
  | function kind => cases kind <;> decide
  | array element length location => cases length <;> cases location <;> simp [sizeOnStack]
  | tuple components => exact absurd rfl (h components)
  | _ => simp [sizeOnStack]

/-- A value type takes at most two slots. -/
theorem Ty.sizeOnStack_le_two_of_isValueType {ty : Ty} (h : ty.isValueType = true) :
    ty.sizeOnStack ≤ 2 :=
  sizeOnStack_le_two fun _ hty => by rw [hty] at h; contradiction

/-- No member of the struct, those of nested structs included, is a tuple that is too wide for the slot
below it to be reached. -/
def StructTable.HasNarrowTuples (structs : StructTable) (d : StructId) : Prop :=
  ∀ leaf ∈ structs.leaves d, ∀ components, leaf.ty = .tuple components → leaf.ty.sizeOnStack < stackWindow

/-! ## Memory -/

namespace MemoryCell

variable {cell : MemoryCell} {source : Ty}

/-- An address is kept by copying it. -/
theorem confined_keep {P : Instruction → Prop} (hdup : P (.dup 1)) (remove : Bool) {c : Emit Unit}
    (hc : Confined strict sc P c) :
    Confined strict sc P (do
      if !remove then emit (.dup 1)
      c) := by
  cases remove with
  | true => exact hc
  | false => exact (Confined.emit hdup).bind fun _ => hc

/-- Memory is read with instructions that only read. -/
theorem confined_retrieve (remove : Bool) : Confined strict sc IsRead (cell.retrieve remove) := by
  refine confined_keep ⟨Nat.le_refl 1, by decide⟩ remove ?_
  split
  · exact confined_loadFromMemory _ _
  · exact .emit trivial

/-- A write to memory exchanges neighbouring slots only. -/
theorem confined_write : Confined strict sc Lowers cell.write := by
  unfold write
  split
  · exact (confined_storeInMemory _ _).bind fun _ => .emit trivial
  · split
    · exact .fault _
    · have hend : Confined strict sc Lowers (emitAll [.swap 1, .mstore8]) :=
        .emitAll (by simp [Lowers, stackWindow])
      refine (Confined.orFault _).bind fun e => ?_
      split
      · exact (Confined.emitAll (by simp [Lowers])).bind fun _ => hend
      · exact hend

/-- A pointer is copied from the second slot, if it is to be kept. -/
theorem confined_storeReference (move : Bool) :
    Confined strict sc Lowers (cell.storeReference source move) := by
  unfold storeReference
  split
  · exact .reject fun _ _ => rfl
  · split
    · exact .fault _
    · cases move with
      | true => exact .emit trivial
      | false =>
        exact (Confined.emitAll (by simp [Lowers, stackWindow])).bind fun _ => .emit trivial

/-- The blocks that are exchanged by a write have at most three slots together. -/
theorem confined_store (move : Bool) : Confined strict sc Lowers (cell.store source move) := by
  unfold store
  split
  · exact confined_storeReference move
  · split
    · exact .fault _
    · rename_i hcell hsource
      have hcell : cell.ty.isValueType = true := by simpa using hcell
      have hsource : source.isValueType = true := by simpa using hsource
      have hsize := Ty.sizeOnStack_le_two_of_isValueType hcell
      have hsourceSize := Ty.sizeOnStack_le_two_of_isValueType hsource
      have hmove : ∀ {depth size}, depth + size ≤ 3 → Confined strict sc Lowers (moveInto depth size) :=
        fun hle => (confined_moveInto fun _ => Nat.le_trans hle (by decide)).mono fun _ => IsRead.lowers
      have hcopy : Confined strict sc Lowers (copyToTop (1 + cell.ty.sizeOnStack) cell.ty.sizeOnStack) :=
        (confined_copyToTop (fun _ => Nat.le_trans (by omega : _ ≤ 3) (by decide)) _).mono
          fun _ => IsRead.lowers
      refine (hmove (by omega)).bind fun _ =>
        ((confined_convertType hcell _ _ _).mono fun _ => IsRead.lowers).bind fun _ => ?_
      cases move with
      | true => exact confined_write
      | false => exact (hmove (by omega)).bind fun _ => hcopy.bind fun _ => confined_write

/-- Memory is cleared with the zero value of its type on top. -/
theorem confined_setToZero (remove : Bool) : Confined strict sc Lowers (cell.setToZero remove) := by
  refine confined_keep ⟨Nat.le_refl 1, by decide⟩ remove ?_
  split
  · exact (confined_pushZeroValue _).bind fun _ => (confined_storeInMemory _ _).bind fun _ => .emit trivial
  · exact .emitAll (by simp [Lowers, stackWindow])

end MemoryCell

/-! ## Immutables and bytes -/

namespace ImmutableVariable

variable {v : ImmutableVariable} {source : Ty}

/-- A reference is refused, but not for a slot that is out of reach. -/
theorem confined_rejectReference {P : Instruction → Prop} (v : ImmutableVariable) {c : Emit Unit}
    (hc : v.ty.isValueType = true → Confined strict sc P c) :
    Confined strict sc P (do v.rejectReference; c) := by
  unfold rejectReference
  split
  · exact (Confined.pure ()).bind fun _ => hc ‹_›
  · exact ⟨.of_code_eq fun _ => rfl, fun _ _ _ _ hexec => by cases hexec; rfl⟩

/-- The address of an immutable is a constant. -/
theorem confined_pushAddress (v : ImmutableVariable) : Confined strict sc IsRead v.pushAddress := by
  refine .bind_read ?_
  split
  · exact .fault _
  · refine .bind_read ?_
    split
    · exact .fault _
    · exact .emit trivial

/-- An immutable is read with instructions that only read, placeholders included. -/
theorem confined_retrieve : Confined strict sc IsRead v.retrieve := by
  refine confined_rejectReference v fun _ => .bind_read ?_
  split
  · exact (confined_pushAddress v).bind fun _ => confined_loadFromMemory _ _
  · refine .emitAll fun op hop => ?_
    obtain ⟨name, -, rfl⟩ := List.mem_map.1 hop
    trivial

/-- The one or two slots of a value lie right below the address of the immutable. -/
theorem confined_store (move : Bool) : Confined strict sc Lowers (v.store source move) := by
  refine confined_rejectReference v fun hvalue => ?_
  have hsize := Ty.sizeOnStack_le_two_of_isValueType hvalue
  split
  · exact .fault _
  · have hend : Confined strict sc Lowers (do storeInMemory v.ty true; emit .pop) :=
      (confined_storeInMemory _ _).bind fun _ => .emit trivial
    have hblock : Confined strict sc IsRead
        (if move then moveInto v.ty.sizeOnStack 1 else copyToTop (v.ty.sizeOnStack + 1) v.ty.sizeOnStack) := by
      split
      · exact confined_moveInto fun _ => Nat.le_trans (by omega : _ ≤ 3) (by decide)
      · exact confined_copyToTop (fun _ => Nat.le_trans (by omega : _ ≤ 3) (by decide)) _
    refine ((confined_convertType hvalue _ _ _).mono fun _ => IsRead.lowers).bind fun _ =>
      ((confined_pushAddress v).mono fun _ => IsRead.lowers).bind fun _ => ?_
    have hrest := (hblock.mono fun _ => IsRead.lowers).bind fun _ => hend
    cases move with
    | true => exact hrest
    | false => exact hrest

/-- An immutable is cleared with the zero value of its type on top. -/
theorem confined_setToZero : Confined strict sc Lowers v.setToZero :=
  confined_rejectReference v fun _ => ((confined_pushAddress v).mono fun _ => IsRead.lowers).bind fun _ =>
    (confined_pushZeroValue _).bind fun _ => (confined_storeInMemory _ _).bind fun _ => .emit trivial

end ImmutableVariable

namespace ByteElement

/-- A byte is read with fixed instructions that only read. -/
theorem confined_retrieve (remove : Bool) : Confined strict sc IsRead (retrieve remove) := by
  cases remove <;> exact .emitAll (by simp [IsRead, stackWindow])

/-- A byte is written with fixed instructions. -/
theorem confined_store (move : Bool) : Confined strict sc Lowers (store move) := by
  cases move <;> exact .emitAll (by
    simp [Lowers, indexToMultiplier, offsetToMultiplier, clearBytes, stackWindow])

/-- A byte is cleared with fixed instructions. -/
theorem confined_setToZero (remove : Bool) : Confined strict sc Lowers (setToZero remove) := by
  cases remove with
  | true =>
    exact .emitAll (by simp [Lowers, indexToMultiplier, offsetToMultiplier, clearBytes, stackWindow])
  | false => exact .fault _

end ByteElement

/-! ## Storage -/

namespace StorageItem

variable {item : StorageItem} {source : Ty}

/-- What comes after the check for references in transient storage is about persistent storage. -/
theorem confined_rejectTransientReference {P : Instruction → Prop} (item : StorageItem) {c : Emit Unit}
    (hc : item.kind = .persistent → Confined strict sc P c) :
    Confined strict sc P (do item.rejectTransientReference; c) := by
  unfold rejectTransientReference
  cases hkind : item.kind with
  | persistent => exact (Confined.pure ()).bind fun _ => hc hkind
  | transient => exact ⟨.of_code_eq fun _ => rfl, fun _ _ _ _ hexec => by cases hexec; rfl⟩

/-- The slot and the byte offset are kept by copying both. -/
theorem confined_keep {P : Instruction → Prop} (hP : ∀ op, IsRead op → P op) (remove : Bool) {c : Emit Unit}
    (hc : Confined strict sc P c) :
    Confined strict sc P (do
      if !remove then copyToTop 2 2
      c) := by
  cases remove with
  | true => exact hc
  | false => exact ((confined_copyToTop (fun _ => by decide) 2).mono hP).bind fun _ => hc

/-- Storage is read with instructions that only read. -/
theorem confined_retrieve (remove : Bool) : Confined strict sc IsRead (item.retrieve remove) := by
  unfold retrieve
  split
  · refine confined_rejectTransientReference item fun _ => .emit ?_
    cases remove with
    | true => trivial
    | false => exact ⟨by decide, by decide⟩
  · refine confined_keep (fun _ => id) remove ((Confined.orFault _).bind fun e => ?_)
    split
    · exact .emitAll (by simp [IsRead])
    · refine (Confined.emitAll ?_).bind fun _ => confined_unpackValue e
      simp [IsRead, offsetToMultiplier, stackWindow]

/-- A value of one or two slots lies below three words at most while it is packed. -/
theorem confined_storeValue (move : Bool) : Confined strict sc Lowers (item.storeValue source move) := by
  refine Confined.bind_orFault fun e he => ?_
  have hvalue := Ty.isValueType_of_encoding?_eq_ok he
  have hsize := Ty.sizeOnStack_le_two_of_isValueType hvalue
  have hread : ∀ {c : Emit Unit}, Confined strict sc IsRead c → Confined strict sc Lowers c :=
    fun hc => hc.mono fun _ => IsRead.lowers
  split
  · have hwrite : Confined strict sc Lowers (do
        emit (.swap 1)
        convertType source item.ty true false
        emitAll [.swap 1, .sstore item.kind]) :=
      (Confined.emit ⟨Nat.le_refl 1, by decide⟩).bind fun _ =>
        (hread (confined_convertType hvalue _ _ _)).bind fun _ =>
          .emitAll (by simp [Lowers, stackWindow])
    refine (Confined.emit trivial).bind fun _ => ?_
    cases move with
    | true => exact hwrite
    | false => exact (Confined.emitAll (by simp [Lowers, stackWindow])).bind fun _ => hwrite
  · have hcopy : Confined strict sc IsRead (copyToTop (3 + item.ty.sizeOnStack) item.ty.sizeOnStack) :=
      confined_copyToTop (fun _ => Nat.le_trans (by omega : _ ≤ 5) (by decide)) _
    have hcleared : Confined strict sc Lowers (emitAll (offsetToMultiplier ++
        [.dup 2, .sload item.kind, .dup 2] ++ clearBytes e.bytes ++ [.swap 1])) :=
      .emitAll (by simp [Lowers, offsetToMultiplier, clearBytes, stackWindow])
    refine hcleared.bind fun _ => (hread hcopy).bind fun _ =>
      (hread (confined_packValue _ _)).bind fun _ =>
        (Confined.emitAll (by simp [Lowers, stackWindow])).bind fun _ => ?_
    cases move with
    | true => exact hread (confined_popSlots _)
    | false => exact .pure ()

/-- The routine that copies an array takes its slot and the one or two slots of the source. -/
theorem confined_storeArray (move : Bool) : Confined strict sc Lowers (item.storeArray source move) := by
  unfold storeArray
  split
  · rename_i harray
    have hsize : source.sizeOnStack ≤ 2 :=
      Ty.sizeOnStack_le_two fun _ hty => by rw [hty] at harray; contradiction
    refine (Confined.emit trivial).bind fun _ =>
      (confined_callRoutine _ _ (Nat.succ_le_succ hsize) _).bind fun _ => ?_
    cases move with
    | true => exact .emit trivial
    | false => exact .pure ()
  · exact .fault _

/-- Every type but structs is written with slots within reach. -/
theorem confined_storeFlat (move : Bool) : Confined strict sc Lowers (item.storeFlat source move) := by
  unfold storeFlat
  split
  · exact confined_storeValue move
  · split
    · exact confined_storeArray move
    · exact (Confined.displayTy _).bind fun _ => .fault _

/-- A member is read with the reference to its struct in one of the three topmost slots. -/
theorem confined_retrieveMember (location : DataLocation) (f : Field) (memoryOffset : Nat) :
    Confined strict sc IsRead (retrieveMember location f memoryOffset) := by
  unfold retrieveMember
  split
  · exact (Confined.emitAll (by simp [IsRead, memberOperands, stackWindow])).bind fun _ =>
      confined_retrieve true
  · exact (Confined.emitAll (by simp [IsRead, stackWindow])).bind fun _ =>
      MemoryCell.confined_retrieve true

/-- What was read from a member is written, if its slots are within reach. -/
theorem confined_writeMember {f : Field} {source location : DataLocation}
    (hsize : strict → ∀ components, f.ty = .tuple components → f.ty.sizeOnStack < stackWindow)
    (hstruct : ∀ d declared, f.ty = .struct d declared →
      Confined strict sc Lowers (storeStruct d location (.struct d source) true)) :
    Confined strict sc Lowers (writeMember source location f) := by
  have hdepth : strict → 1 + (f.ty.located source).sizeOnStack ≤ stackWindow := by
    intro hs
    by_cases htuple : ∃ components, f.ty = .tuple components
    · obtain ⟨components, hty⟩ := htuple
      have hlt := hsize hs components hty
      rw [hty] at hlt ⊢
      rw [Nat.add_comm]
      exact hlt
    · have hle : (f.ty.located source).sizeOnStack ≤ 2 := by
        refine Ty.sizeOnStack_le_two fun components h => htuple ?_
        cases hty : f.ty <;> rw [hty] at h <;> first | contradiction | exact ⟨_, rfl⟩
      exact Nat.le_trans (by omega : _ ≤ 3) (by decide)
  have hoperands : Confined strict sc Lowers (emitAll [.push f.slotWord, .add, .pushNat f.storage.byte]) :=
    .emitAll (by simp [Lowers])
  unfold writeMember
  refine ((confined_dupSlot hdepth).mono fun _ => IsRead.lowers).bind fun _ => hoperands.bind fun _ => ?_
  split
  · exact hstruct _ _ ‹_›
  · exact confined_storeFlat true

/-- A struct is copied member by member, whatever structs are nested in it.  The members of one in call
data are left to a routine.

**Proof sketch.** Induction on the number of the struct: the slots of both structs lie below the value of
one member, which is out of reach only if the member is a wide tuple. -/
theorem confined_storeStruct {d : StructId} {source : Ty}
    (hsize : strict → ∀ sourceLocation ≠ .calldata, source = .struct d sourceLocation →
      sc.structs.HasNarrowTuples d)
    (location : DataLocation) (move : Bool) :
    Confined strict sc Lowers (storeStruct d location source move) := by
  induction d using Nat.strongRecOn generalizing source move with
  | ind d ih =>
    have hend : Confined strict sc Lowers (if move then popSlots 2 else emitAll [.swap 1, .pop]) := by
      cases move with
      | true => exact (confined_popSlots 2).mono fun _ => IsRead.lowers
      | false => exact .emitAll (by simp [Lowers, stackWindow])
    cases hlocation : storeStruct.sourceLocation? d source with
    | none =>
      rw [storeStruct, hlocation]
      exact (Confined.emit trivial).bind fun _ => .bind_read
        ((Confined.displayTy _).bind fun _ => (Confined.displayTy _).bind fun _ =>
          (Confined.fault _).bind fun _ => hend)
    | some sourceLocation =>
      obtain rfl := sourceLocation?_eq_some.1 hlocation
      by_cases hne : sourceLocation = .calldata
      · subst hne
        rw [storeStruct, hlocation]
        exact (Confined.emit trivial).bind fun _ => .bind_read
          ((Confined.emitAll (by simp [Lowers, stackWindow])).bind fun _ =>
            (confined_callRoutine _ _ (by decide) _).bind fun _ => hend)
      · have hmembers : ∀ f ∈ sc.structs.fields d,
            Confined strict sc Lowers (copyMember sourceLocation location f) := by
          intro f hf
          have hleaves := fun hs => hsize hs sourceLocation hne rfl
          unfold copyMember
          split
          · exact .pure ()
          · refine ((confined_retrieveMember _ f _).mono fun _ => IsRead.lowers).bind fun _ =>
              confined_writeMember (fun hs components hty => ?_) fun d' declared hty => ?_
            · have hmem := mem_leaves_of_ne_struct hf fun d' declared h => by rw [hty] at h; contradiction
              exact hleaves hs _ hmem components hty
            · exact ih d' (lt_of_mem_fields hf hty)
                (fun hs _ _ _ leaf hmem =>
                  hleaves hs (leaf.shift f.storage.slot) (shift_mem_leaves hf hty hmem)) true
        rw [storeStruct_eq d location hne]
        exact (Confined.emit trivial).bind fun _ => .bind_read
          ((Confined.forM hmembers).bind fun _ => hend)

/-- A struct is the only type in storage of which a member can be out of reach. -/
theorem confined_store (move : Bool)
    (hsize : strict → item.kind = .persistent → ∀ d location, item.ty = .struct d location →
      ∀ sourceLocation ≠ .calldata, source = .struct d sourceLocation → sc.structs.HasNarrowTuples d) :
    Confined strict sc Lowers (item.store source move) := by
  unfold store
  cases hvalue : item.ty.isValueType with
  | true =>
    simp only [Bool.not_true, Bool.false_eq_true, if_false]
    split
    · rename_i d location hty
      rw [hty] at hvalue
      contradiction
    · exact confined_storeFlat move
  | false =>
    simp only [Bool.not_false, if_true]
    refine confined_rejectTransientReference item fun hkind => ?_
    split
    · exact confined_storeStruct (fun hs => hsize hs hkind _ _ ‹_›) _ move
    · exact confined_storeFlat move

/-- A value in storage is cleared with fixed instructions. -/
theorem confined_clearValue : Confined strict sc Lowers item.clearValue := by
  refine (Confined.orFault _).bind fun e => ?_
  split
  · exact .emitAll (by simp [Lowers, stackWindow])
  · exact .emitAll (by simp [Lowers, offsetToMultiplier, clearBytes, stackWindow])

/-- Every type but structs is cleared with slots within reach. -/
theorem confined_clearFlat (remove : Bool) : Confined strict sc Lowers (item.clearFlat remove) := by
  unfold clearFlat
  split
  · exact (Confined.displayTy _).bind fun _ => .fault _
  · split
    · exact (Confined.displayTy _).bind fun _ => .fault _
    · split
      · exact confined_rejectTransientReference item fun _ =>
          confined_keep (fun _ => IsRead.lowers) remove (confined_callRoutine _ _ (by decide) _)
      · exact confined_keep (fun _ => IsRead.lowers) remove confined_clearValue

/-- A struct is cleared member by member, with its slot in the third slot from the top. -/
theorem confined_clearStruct (d : StructId) (location : DataLocation) (remove : Bool) :
    Confined strict sc Lowers (clearStruct d location remove) := by
  induction d using Nat.strongRecOn generalizing remove with
  | ind d ih =>
    rw [clearStruct]
    refine .bind_read ((Confined.forM fun field _ => ?_).bind fun _ => ?_)
    · obtain ⟨f, hf⟩ := field
      simp only
      split
      · exact .pure ()
      · refine (Confined.emitAll (by simp [Lowers, memberOperands, stackWindow])).bind fun _ => ?_
        split
        · rename_i d' declared hty
          exact ih d' (lt_of_mem_fields hf hty) true
        · exact confined_clearFlat true
    · cases remove with
      | true => exact (confined_popSlots 2).mono fun _ => IsRead.lowers
      | false => exact .pure ()

/-- Storage is cleared with slots within reach, whatever its type. -/
theorem confined_setToZero (remove : Bool) : Confined strict sc Lowers (item.setToZero remove) := by
  unfold setToZero
  split
  · exact confined_rejectTransientReference item fun _ => confined_clearStruct _ _ remove
  · exact confined_clearFlat remove

end StorageItem

/-! ## Local variables -/

namespace StackVariable

variable {v : StackVariable}

/-- The search for a local variable emits nothing. -/
theorem confined_distanceToTop (base : Nat) : Confined strict sc IsRead (distanceToTop base) := by
  refine Confined.stackHeight.bind fun height => ?_
  split
  · exact .fault _
  · exact .pure _

/-- A local variable may be out of reach. -/
theorem confined_retrieve (hs : ¬strict) : Confined strict sc IsRead v.retrieve := by
  refine (confined_distanceToTop _).bind fun distance => ?_
  simp only
  split
  · exact .fault _
  · exact confined_copyToTop (fun h => absurd h hs) _

/-- A local variable is written by exchanges whose depths are checked. -/
theorem confined_store (hs : ¬strict) (move : Bool) : Confined strict sc IsRead (v.store move) := by
  have hend : Confined strict sc IsRead (if !move then v.retrieve else pure ()) := by
    split
    · exact confined_retrieve hs
    · exact .pure ()
  refine (confined_distanceToTop _).bind fun distance => ?_
  simp only
  split
  · exact .fault _
  · split
    · have hslot : Confined strict sc IsRead (do
          swapSlot (distance + 1 - v.size)
          emit .pop) := (confined_swapSlot fun h => absurd h hs).bind fun _ => .emit trivial
      exact (hslot.repeatEmit _).bind fun _ => hend
    · exact hend

/-- The zero value of a local variable is written by exchanges whose depths are checked. -/
theorem confined_setToZero (hs : ¬strict) : Confined strict sc Lowers v.setToZero :=
  (confined_pushZeroValue _).bind fun _ => (confined_store hs true).mono fun _ => IsRead.lowers

end StackVariable

/-! ## Places -/

namespace Place

/-- The place is none on the stack. -/
def IsOffStack : Place → Prop
  | .stack _ | .tuple _ => False
  | _ => True

/-- If the place is a struct in persistent storage that is assigned from the same struct in storage or
memory, none of its members, those of nested structs included, is a tuple that is too wide for the value
below it to be reached. -/
def HasNarrowMembers (structs : StructTable) (place : Place) (source : Ty) : Prop :=
  ∀ d location, place = .storage ⟨.struct d location, .persistent⟩ → ∀ sourceLocation ≠ .calldata,
    source = .struct d sourceLocation → structs.HasNarrowTuples d

/-- A read emits instructions that only read; a local variable may be out of reach. -/
theorem confined_retrieve (place : Place) (hplace : strict → place.IsOffStack) (remove : Bool) :
    Confined strict sc IsRead (place.retrieve remove) := by
  refine (Confined.logEvent _).bind fun _ => ?_
  cases place with
  | stack v => exact StackVariable.confined_retrieve hplace
  | memory cell => exact MemoryCell.confined_retrieve remove
  | storage item => exact StorageItem.confined_retrieve remove
  | immutable v => exact ImmutableVariable.confined_retrieve
  | byteElement => exact ByteElement.confined_retrieve remove
  | tuple components => exact .fault _

/-- Clearing emits instructions that can be lowered; a local variable may be out of reach. -/
theorem confined_setToZero (place : Place) (hplace : strict → place.IsOffStack) (remove : Bool) :
    Confined strict sc Lowers (place.setToZero remove) := by
  refine (Confined.logEvent _).bind fun _ => ?_
  cases place with
  | stack v => exact StackVariable.confined_setToZero hplace
  | memory cell => exact MemoryCell.confined_setToZero remove
  | storage item => exact StorageItem.confined_setToZero remove
  | immutable v => exact ImmutableVariable.confined_setToZero
  | byteElement => exact ByteElement.confined_setToZero remove
  | tuple components => exact .fault _

mutual

/-- A write emits instructions that can be lowered; the places among the components of a tuple, and those
on the stack, may be out of reach. -/
theorem confined_store (place : Place) (hplace : strict → place.IsOffStack) (source : Ty) (move : Bool)
    (hnarrow : strict → place.HasNarrowMembers sc.structs source) :
    Confined strict sc Lowers (place.store source move) := by
  cases place with
  | stack v =>
    exact (Confined.logEvent _).bind fun _ =>
      (StackVariable.confined_store hplace move).mono fun _ => IsRead.lowers
  | memory cell => exact (Confined.logEvent _).bind fun _ => MemoryCell.confined_store move
  | storage item =>
    exact (Confined.logEvent _).bind fun _ =>
      StorageItem.confined_store move fun hs hkind d location hty => by
        obtain ⟨ty, kind⟩ := item
        obtain ⟨rfl, rfl⟩ : kind = .persistent ∧ ty = .struct d location := ⟨hkind, hty⟩
        exact hnarrow hs d location rfl
  | immutable v => exact (Confined.logEvent _).bind fun _ => ImmutableVariable.confined_store move
  | byteElement => exact (Confined.logEvent _).bind fun _ => ByteElement.confined_store move
  | tuple components =>
    cases source with
    | tuple types =>
      rw [store]
      refine (Confined.logEvent _).bind fun _ => ?_
      split
      · exact (confined_storeComponents components hplace _ _).bind fun _ =>
          (confined_popSlots _).mono fun _ => IsRead.lowers
      · exact .fault _
    | _ =>
      exact (Confined.logEvent _).bind fun _ => (Confined.displayTy _).bind fun _ => .fault _

/-- The stores of the components of a tuple emit instructions that can be lowered. -/
theorem confined_storeComponents (components : List (Option Place)) (hs : ¬strict) (top : Int)
    (types : List Ty) : Confined strict sc Lowers (store.storeComponents top components types) := by
  match components, types with
  | [], _ | _ :: _, [] =>
    rw [store.storeComponents]
    · exact .pure _
    · simp
  | none :: components, ty :: types =>
    rw [store.storeComponents]
    exact (confined_storeComponents components hs top types).bind fun _ => .pure _
  | some place :: components, ty :: types =>
    have hread : ∀ {c : Emit Unit}, Confined strict sc IsRead c → Confined strict sc Lowers c :=
      fun hc => hc.mono fun _ => IsRead.lowers
    rw [store.storeComponents]
    refine (confined_storeComponents components hs top types).bind fun _ =>
      Confined.stackHeight.bind fun _ => ?_
    refine (hread (confined_copyToTop (fun h => absurd h hs) _)).bind fun _ =>
      (hread (confined_moveInto fun h => absurd h hs)).bind fun _ =>
        (confined_store place (fun h => absurd h hs) ty true fun h => absurd h hs).bind fun _ =>
          Confined.stackHeight.bind fun _ => .orFault _

end

end Place

end WordPlaces
