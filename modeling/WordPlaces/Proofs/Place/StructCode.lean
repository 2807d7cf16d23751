import WordPlaces.Place.StorageItem

/-!
# The code of a struct assignment

The code of an assignment to a struct in storage goes through the members while the references of both
structs stay on the stack.  A member is read from the source, and what was read is written to the
target.

## Main definitions

* `StorageItem.copyMember`, `StorageItem.writeMember` — the code of one member, and the part of it
  that writes what was read.

## Main results

* `StorageItem.storeStruct_eq` — a struct is copied member by member.
* `StorageItem.writeMember_of_struct`, `StorageItem.writeMember_of_ne_struct` — a member that is a
  struct is copied as one, and every other member is written as a whole.
-/

set_option autoImplicit false

namespace WordPlaces

namespace StorageItem

open StructTable

/-- `source_ref target_ref value.. → source_ref target_ref`, writing what was read from a member of the
source to the target. -/
def writeMember (source location : DataLocation) (f : Field) : Emit Unit := do
  dupSlot (1 + (f.ty.located source).sizeOnStack)
  emitAll [.push f.slotWord, .add, .pushNat f.storage.byte]
  match f.ty with
  | .struct d _ => storeStruct d location (.struct d source) true
  | ty => storeFlat ⟨ty.located location, .persistent⟩ (ty.located source) true

/-- The code that copies one member to a struct in storage. -/
def copyMember (source location : DataLocation) (f : Field) : Emit Unit :=
  match f.memoryOffset with
  | none => pure ()
  | some memoryOffset => do
    retrieveMember source f memoryOffset
    writeMember source location f

/-- A nested struct is written as a struct of its own. -/
theorem writeMember_of_struct {f : Field} {d : StructId} {declared : DataLocation}
    (hf : f.ty = .struct d declared) (source location : DataLocation) :
    writeMember source location f = (do
      dupSlot 2
      emitAll [.push f.slotWord, .add, .pushNat f.storage.byte]
      storeStruct d location (.struct d source) true) := by
  unfold writeMember
  simp only [hf]
  rfl

/-- Every other member is written in place. -/
theorem writeMember_of_ne_struct {f : Field} (hf : ∀ d declared, f.ty ≠ .struct d declared)
    (source location : DataLocation) :
    writeMember source location f = (do
      dupSlot (1 + (f.ty.located source).sizeOnStack)
      emitAll [.push f.slotWord, .add, .pushNat f.storage.byte]
      storeFlat ⟨f.ty.located location, .persistent⟩ (f.ty.located source) true) := by
  unfold writeMember
  split
  · rename_i d declared hty
    exact absurd hty (hf d declared)
  · rfl

/-- A computation for each element does not depend on where the element comes from. -/
theorem forM_attach {α : Type} (as : List α) (f : α → Emit Unit) :
    (as.attach.forM fun a => f a.1) = as.forM f := by
  have hmap := List.forM_map (l := as.attach) (g := Subtype.val) (f := f)
  rw [List.attach_map_subtype_val] at hmap
  exact hmap.symm

/-- The source of a copy is the same struct, in the location that is found. -/
theorem sourceLocation?_eq_some {d : StructId} {source : Ty} {location : DataLocation} :
    storeStruct.sourceLocation? d source = some location ↔ source = .struct d location := by
  cases source with
  | struct d' location' =>
    rw [storeStruct.sourceLocation?, Ty.struct.injEq]
    split <;> simp_all
  | _ => simp [storeStruct.sourceLocation?]

/-- A struct in storage or memory is copied member by member. -/
theorem storeStruct_eq (d : StructId) (location : DataLocation) {source : DataLocation}
    (hsource : source ≠ .calldata) (move : Bool) :
    storeStruct d location (.struct d source) move = (do
      emit .pop
      let structs := (← read).structs
      (structs.fields d).forM (copyMember source location)
      if move then popSlots 2 else emitAll [.swap 1, .pop]) := by
  rw [storeStruct, sourceLocation?_eq_some.2 rfl]
  refine bind_congr fun _ => bind_congr fun sc => ?_
  cases source with
  | calldata => contradiction
  | storage | memory =>
    simp only
    rw [← forM_attach (sc.structs.fields d)]
    congr 2
    funext x
    unfold copyMember writeMember
    cases hm : x.1.memoryOffset with
    | none => rfl
    | some memoryOffset =>
      refine bind_congr fun _ => bind_congr fun _ => bind_congr fun _ => ?_
      split <;> rename_i hty <;> simp only [hty]

end StorageItem

end WordPlaces
