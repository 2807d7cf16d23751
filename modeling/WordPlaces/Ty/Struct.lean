import WordPlaces.Word
import WordPlaces.Ty.Encoding
import WordPlaces.Ty.Layout

/-!
# Struct declarations

A struct is declared with members that nest structs declared earlier only, and its storage
layout is computed once, when it is declared.

## Main definitions

* `Member`, `StructDecl` — a declaration with the places of its members.
* `StructTable` — the declarations in order; the number of a declaration is its position.
* `StructTable.storageSize` — the slots and bytes a value takes in storage.
* `StructTable.declare` — adds a declaration.
* `StructTable.fields` — the members of a declaration with their places in storage and memory.
* `StructTable.membersOf` — the members of a struct type, seen through its data location.

## Main results

* `StructTable.lt_of_mem_fields` — a struct nests only structs declared before it, so that
  work on nested structs ends.
-/

set_option autoImplicit false

namespace WordPlaces

/-- A declared member. -/
structure Member where
  name : String
  /-- The declared type; references are declared with storage location. -/
  ty : Ty
  deriving Repr, DecidableEq, Inhabited

/-- A struct declaration. -/
structure StructDecl where
  name : String
  members : List Member
  /-- The places of the members, relative to the first slot of the struct. -/
  layout : Layout
  deriving Repr, DecidableEq, Inhabited

/-- The struct declarations, in order. -/
structure StructTable where
  decls : Array StructDecl := #[]
  /-- Members nest earlier declarations only. -/
  ordered : ∀ (d : Nat) (h : d < decls.size), ∀ m ∈ decls[d].members,
    m.ty.nestsBelow d = true := by exact fun d h => absurd h (Nat.not_lt_zero d)
  deriving Repr

namespace StructTable

instance : Inhabited StructTable := ⟨{}⟩

/-- The declaration with the given number; an undeclared struct is empty. -/
def decl (structs : StructTable) (d : StructId) : StructDecl := structs.decls[d]?.getD default

/-! ## Sizes -/

/-- The slots a static array of `length` elements takes: elements of less than a word share
slots, as many to a slot as fit. -/
def arraySlots (element : StorageSize) (length : Nat) : Except Fault Nat :=
  if element.slots = 1 ∧ element.bytes < 32 then
    if element.bytes = 0 then .error .zeroWidth
    else
      let perSlot := 32 / element.bytes
      .ok ((length + perSlot - 1) / perSlot)
  else checkedCount (length * element.slots)

/-- The storage slots a value takes. -/
def storageSlots (structs : StructTable) : Ty → Except Fault Nat
  | .array element (some length) _ => do
    arraySlots ⟨← structs.storageSlots element, element.storageBytes⟩ length
  | .struct d _ => .ok (structs.decl d).layout.slots
  | _ => .ok 1

/-- The room a value takes in storage. -/
def storageSize (structs : StructTable) (ty : Ty) : Except Fault StorageSize :=
  (structs.storageSlots ty).map (⟨·, ty.storageBytes⟩)

/-! ## Declaring -/

/-- Adds a declaration after the ones there are.  It is refused if a member nests a struct that
is not among them, or if the members cannot be laid out. -/
def declare (structs : StructTable) (name : String) (members : List Member) :
    Except Fault StructTable :=
  if h : ∀ m ∈ members, m.ty.nestsBelow structs.decls.size = true then do
    let layout ← layoutOf (← members.mapM fun m => structs.storageSize m.ty)
    return {
      decls := structs.decls.push ⟨name, members, layout⟩
      ordered := by
        intro d hd m hm
        rw [Array.getElem_push] at hm
        split at hm
        · exact structs.ordered d _ m hm
        · rw [Array.size_push] at hd
          exact (show d = structs.decls.size by omega) ▸ h m hm }
  else .error .undeclaredStruct

/-! ## Members -/

/-- A member with its places.  `ty` is a declared type in a declaration's fields, and the type
relocated to the struct's own data location in the members of a struct type. -/
structure Field where
  name : String
  ty : Ty
  storage : StorageOffset
  /-- The byte offset in memory, where mappings have no place. -/
  memoryOffset : Option Nat
  deriving Repr, DecidableEq, Inhabited

namespace Field

/-- The slot of the member, relative to the first slot of the struct, as a word. -/
def slotWord (f : Field) : Word := BitVec.ofNat 256 f.storage.slot

end Field

/-- Members with their storage places, each other than a mapping taking the next word of memory
from `offset` on. -/
def fieldsFrom (offset : Nat) : List (Member × StorageOffset) → List Field
  | [] => []
  | (m, place) :: rest =>
    if m.ty.isMapping then ⟨m.name, m.ty, place, none⟩ :: fieldsFrom offset rest
    else ⟨m.name, m.ty, place, some offset⟩ :: fieldsFrom (offset + 32) rest

/-- The members of a declaration in order, with their places. -/
def fields (structs : StructTable) (d : StructId) : List Field :=
  let decl := structs.decl d
  fieldsFrom 0 (decl.members.zip decl.layout.offsets)

/-- The members of a struct type in declaration order, their types relocated to its data
location. -/
def membersOf (structs : StructTable) : Ty → Except Fault (List Field)
  | .struct d location =>
    .ok ((structs.fields d).map fun f => { f with ty := f.ty.located location })
  | _ => .error .membersOfNonStruct

/-- Every field comes from a member of its type. -/
theorem exists_member_of_mem_fieldsFrom {f : Field} {offset : Nat}
    {members : List (Member × StorageOffset)} (h : f ∈ fieldsFrom offset members) :
    ∃ p ∈ members, f.ty = p.1.ty := by
  induction members generalizing offset with
  | nil => simp [fieldsFrom] at h
  | cons p rest ih =>
    rw [fieldsFrom] at h
    split at h <;> rcases List.mem_cons.1 h with rfl | h
    all_goals first
      | exact ⟨p, List.mem_cons_self, rfl⟩
      | exact (ih h).imp fun q hq => ⟨List.mem_cons_of_mem _ hq.1, hq.2⟩

/-- The fields of a declaration nest earlier declarations only. -/
theorem nestsBelow_of_mem_fields {structs : StructTable} {d : StructId} {f : Field}
    (h : f ∈ structs.fields d) : f.ty.nestsBelow d = true := by
  obtain ⟨p, hp, hf⟩ := exists_member_of_mem_fieldsFrom h
  have hm := (List.of_mem_zip hp).1
  rw [hf]
  by_cases hd : d < structs.decls.size
  · rw [decl, Array.getElem?_eq_getElem hd, Option.getD_some] at hm
    exact structs.ordered d hd _ hm
  · rw [decl, Array.getElem?_eq_none (Nat.le_of_not_lt hd)] at hm
    simp [default, instInhabitedStructDecl.default] at hm

/-- A struct nests only structs declared before it. -/
theorem lt_of_mem_fields {structs : StructTable} {d d' : StructId} {f : Field}
    {location : DataLocation} (h : f ∈ structs.fields d) (hty : f.ty = .struct d' location) :
    d' < d := by
  have := nestsBelow_of_mem_fields h
  rw [hty] at this
  simpa [Ty.nestsBelow] using this

end StructTable

end WordPlaces
