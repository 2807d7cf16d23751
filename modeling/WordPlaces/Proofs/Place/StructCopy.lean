import WordPlaces.Proofs.Codec
import WordPlaces.Proofs.Machine.Step
import WordPlaces.Proofs.Ty.Leaves

/-!
# Copying the leaves of a struct

A struct in storage is copied to another one leaf by leaf.  Every leaf is read into its stack form and
packed again next to what the slot holds, so that in the end the bytes of the leaves are those of the
source and no other byte has changed.

## Main definitions

* `Leaf.Covers` — the bytes that a leaf of a value type takes, for a struct in a given slot.
* `Machine.writeLeaf` — the machine after the bytes of one leaf were replaced.
* `copyLeaf` — the machine after one leaf was copied.
* `Copied` — the storage after some leaves were copied.
* `Ty.Assignable`, `Ty.Copyable` — the leaves that can be written, or copied within storage, or are
  left alone.

## Main results

* `StructTable.Row.pairwise_not_covers`, `StructTable.Row.not_covers_mapping` — leaves do not share
  bytes, and mappings do not share their slot.
* `copied_foldl` — what copying leaf by leaf makes of storage.
-/

set_option autoImplicit false

namespace WordPlaces

open Machine

/-! ## Leaves in storage -/

namespace Leaf

/-- The slot of the leaf, for a struct that begins in slot `base`. -/
def slotFrom (leaf : Leaf) (base : Word) : Word := base + BitVec.ofNat 256 leaf.place.slot

/-- The bytes that the leaf takes, for a struct that begins in slot `base`.  Only value types are kept
in the slots of the struct. -/
def Covers (leaf : Leaf) (base key : Word) (i : Nat) : Prop :=
  leaf.ty.isMapping = false ∧ leaf.slotFrom base = key ∧
    leaf.place.byte ≤ i ∧ i < leaf.place.byte + leaf.ty.storageBytes

/-- A leaf that lies further on has the slot it has in a struct that lies further on. -/
theorem slotFrom_shift (slots : Nat) (leaf : Leaf) (base : Word) :
    (leaf.shift slots).slotFrom base = leaf.slotFrom (base + BitVec.ofNat 256 slots) := by
  rw [slotFrom, slotFrom, BitVec.add_assoc, ← BitVec.ofNat_add]
  rfl

/-- Leaves that lie in one slot for one struct do so for every other. -/
theorem slotFrom_congr {leaf leaf' : Leaf} {base : Word}
    (h : leaf.slotFrom base = leaf'.slotFrom base) (other : Word) :
    leaf.slotFrom other = leaf'.slotFrom other := by
  rw [slotFrom, slotFrom, BitVec.add_right_inj] at h
  rw [slotFrom, slotFrom, h]

end Leaf

/-- The byte of persistent storage under a key. -/
def Machine.byte (m : Machine) (key : Word) (i : Nat) : Byte := (m.persistent.read key).byteAt i

/-- The machine after the bytes of a leaf were replaced in the struct in slot `target`. -/
def Machine.writeLeaf (m : Machine) (target : Word) (leaf : Leaf) (bytes : Word) : Machine :=
  m.writeStorage .persistent (leaf.slotFrom target)
    (withBytes leaf.ty.storageBytes leaf.place.byte (m.persistent.read (leaf.slotFrom target)) bytes)

namespace Machine

variable (m : Machine) (target : Word) (leaf : Leaf) (bytes : Word)

/-- A leaf that lies further on is written as one of a struct that lies further on. -/
theorem writeLeaf_shift (slots : Nat) :
    m.writeLeaf target (leaf.shift slots) bytes =
      m.writeLeaf (target + BitVec.ofNat 256 slots) leaf bytes := by
  rw [writeLeaf, Leaf.slotFrom_shift]
  rfl

/-- The bytes of the leaf are those that were written, and no other byte has changed. -/
theorem byte_writeLeaf (hvalue : leaf.ty.isMapping = false)
    (hfits : leaf.place.byte + leaf.ty.storageBytes ≤ 32) (key : Word) (i : Nat) :
    (leaf.Covers target key i →
      (m.writeLeaf target leaf bytes).byte key i = bytes.byteAt (i - leaf.place.byte)) ∧
    (¬leaf.Covers target key i → (m.writeLeaf target leaf bytes).byte key i = m.byte key i) := by
  have hwritten : (m.writeLeaf target leaf bytes).byte key i =
      (if key = leaf.slotFrom target then withBytes leaf.ty.storageBytes leaf.place.byte
        (m.persistent.read (leaf.slotFrom target)) bytes
      else m.persistent.read key).byteAt i :=
    congrArg (Word.byteAt · i) (WordMap.read_write _ _ _ _)
  rw [hwritten]
  refine ⟨?_, fun hout => ?_⟩
  · rintro ⟨-, rfl, hle, hlt⟩
    rw [if_pos rfl, byteAt_withBytes_of_mem _ _ hfits hle hlt]
  · split
    · rename_i hkey
      subst hkey
      refine byteAt_withBytes_of_not_mem _ _ ?_
      by_contra hin
      exact hout ⟨hvalue, rfl, by omega, by omega⟩
    · rfl

end Machine

/-! ## Leaves that are assigned -/

/-- The types that an assignment writes or leaves alone: value types that are written to storage, and
mappings. -/
def Ty.Assignable (ty : Ty) : Prop := ty.isMapping = true ∨ ∃ e, ty.Writable e

/-- The types that an assignment copies or leaves alone: storable value types, and mappings. -/
def Ty.Copyable (ty : Ty) : Prop := ty.isMapping = true ∨ ∃ e, ty.Storable e

/-- A leaf that an assignment copies, within its slot, or leaves alone. -/
def Leaf.Copyable (leaf : Leaf) : Prop :=
  leaf.ty.isMapping = true ∨ ∃ e, leaf.ty.Storable e ∧ leaf.place.byte + e.bytes ≤ 32

/-- Leaves that can be copied can be assigned. -/
theorem Ty.Copyable.assignable {ty : Ty} (h : ty.Copyable) : ty.Assignable :=
  h.imp_right fun ⟨e, hstorable⟩ => ⟨e, hstorable.writable⟩

namespace Ty.Assignable

variable {ty : Ty}

/-- A leaf that can be assigned has a width that a slot has room for. -/
theorem hasWidth (h : ty.Assignable) : ty.HasWidth := by
  rcases h with hmapping | ⟨e, hwritable⟩
  · rw [HasWidth, storageBytes_of_not_isValueType (isValueType_of_isMapping hmapping)]
    decide
  · rw [HasWidth, ← bytes_of_encoding?_eq_ok hwritable.encoding]
    exact ⟨hwritable.one_le_bytes, hwritable.bytes_le⟩

/-- What can be assigned and is no mapping is a value type. -/
theorem isValueType (h : ty.Assignable) (hty : ty.isMapping = false) : ty.isValueType = true := by
  rcases h with hmapping | ⟨e, hwritable⟩
  · rw [hmapping] at hty
    contradiction
  · exact isValueType_of_encoding?_eq_ok hwritable.encoding

end Ty.Assignable

namespace StructTable.Row

variable {structs : StructTable} {leaves : List Leaf} {slots : Nat}

/-- A leaf lies in the slots of its struct. -/
theorem slot_lt_of_hasWidth (hrow : structs.Row 0 leaves (32 * slots)) {leaf : Leaf}
    (hleaf : leaf ∈ leaves) (hwidth : leaf.ty.HasWidth) : leaf.place.slot < slots := by
  have hstop := (hrow.within leaf hleaf).2
  have hroom : 1 ≤ structs.room leaf.ty := by
    rw [room]
    split
    · exact hwidth.1
    · rename_i hvalue
      obtain ⟨-, count, hcount, hpos⟩ :=
        (hrow.wellPlaced leaf hleaf).whole_slots (Bool.eq_false_iff.2 hvalue)
      rw [hcount]
      exact Nat.le_trans hpos (Nat.le_mul_of_pos_left _ (by decide))
  simp only [stop, StorageOffset.index] at hstop
  omega

/-- Assignable leaves lie in the slots of their struct. -/
theorem slot_lt (hrow : structs.Row 0 leaves (32 * slots)) {leaf : Leaf} (hleaf : leaf ∈ leaves)
    (hassignable : leaf.ty.Assignable) : leaf.place.slot < slots :=
  hrow.slot_lt_of_hasWidth hleaf hassignable.hasWidth

/-- A leaf that is no mapping is a value type within one slot. -/
theorem within_slot (hrow : structs.Row 0 leaves (32 * slots)) {leaf : Leaf} (hleaf : leaf ∈ leaves)
    (hassignable : leaf.ty.Assignable) (hty : leaf.ty.isMapping = false) :
    structs.room leaf.ty = leaf.ty.storageBytes ∧ leaf.place.byte + leaf.ty.storageBytes ≤ 32 := by
  have hvalue := hassignable.isValueType hty
  exact ⟨if_pos hvalue, (hrow.wellPlaced leaf hleaf).within_slot hvalue⟩

/-- Of two leaves in one slot, the one that stops where the other begins has the lower bytes. -/
theorem byte_le_of_stop_le (hrow : structs.Row 0 leaves (32 * slots)) (hslots : slots < countLimit)
    (hassignable : ∀ leaf ∈ leaves, leaf.ty.Assignable) {a b : Leaf} (ha : a ∈ leaves)
    (hb : b ∈ leaves) (hstop : structs.stop a ≤ b.place.index) {target : Word}
    (hslot : a.slotFrom target = b.slotFrom target) :
    a.place.byte + structs.room a.ty ≤ b.place.byte := by
  have haSlot := hrow.slot_lt ha (hassignable a ha)
  have hbSlot := hrow.slot_lt hb (hassignable b hb)
  have heq : a.place.slot = b.place.slot := by
    rw [Leaf.slotFrom, Leaf.slotFrom, BitVec.add_right_inj] at hslot
    have hnat := congrArg BitVec.toNat hslot
    rw [BitVec.toNat_ofNat, BitVec.toNat_ofNat] at hnat
    simp only [countLimit] at hslots
    omega
  simp only [stop, StorageOffset.index] at hstop
  omega

/-- No byte is taken by two leaves. -/
theorem pairwise_not_covers (hrow : structs.Row 0 leaves (32 * slots)) (hslots : slots < countLimit)
    (hassignable : ∀ leaf ∈ leaves, leaf.ty.Assignable) (target : Word) :
    leaves.Pairwise fun a b => ∀ key i, a.Covers target key i → ¬b.Covers target key i := by
  refine hrow.ordered.imp_of_mem fun {a b} ha hb hstop key i hcovers hcovers' => ?_
  have hbyte := hrow.byte_le_of_stop_le hslots hassignable ha hb hstop
    (hcovers.2.1.trans hcovers'.2.1.symm)
  rw [(hrow.within_slot ha (hassignable a ha) hcovers.1).1] at hbyte
  have hlt := hcovers.2.2.2
  have hle := hcovers'.2.2.1
  omega

/-- A value type has no byte in the slots that another leaf takes as a whole.

**Proof sketch.** Of the two leaves one stops where the other begins, or before.  Their slots lie within
the struct, so that they are the same word only if they are the same number. -/
theorem not_covers_whole (hrow : structs.Row 0 leaves (32 * slots)) (hslots : slots < countLimit)
    {whole leaf : Leaf} (hwhole : whole ∈ leaves) (hwholeTy : whole.ty.isValueType = false)
    {count : Nat} (hcount : structs.storageSlots whole.ty = .ok count) (hleaf : leaf ∈ leaves)
    (hvalue : leaf.ty.isValueType = true) (hwidth : leaf.ty.HasWidth) (target : Word) {k : Nat}
    (hk : k < count) (i : Nat) :
    ¬leaf.Covers target (whole.slotFrom target + BitVec.ofNat 256 k) i := by
  rintro ⟨-, hslot, -, -⟩
  have hne : whole ≠ leaf := by
    rintro rfl
    rw [hwholeTy] at hvalue
    contradiction
  have hroom : structs.room whole.ty = 32 * count := by
    rw [room, hwholeTy, hcount]
    rfl
  have hleafRoom : structs.room leaf.ty = leaf.ty.storageBytes := if_pos hvalue
  have hbyte := ((hrow.wellPlaced whole hwhole).whole_slots hwholeTy).1
  have hwithin := (hrow.wellPlaced leaf hleaf).within_slot hvalue
  have hwholeStop := (hrow.within whole hwhole).2
  have hleafSlot := hrow.slot_lt_of_hasWidth hleaf hwidth
  have hpos := hwidth.1
  simp only [stop, StorageOffset.index, hroom] at hwholeStop
  -- both slots are numbers below the limit of a counter
  have hsame : leaf.place.slot = whole.place.slot + k := by
    rw [Leaf.slotFrom, Leaf.slotFrom, BitVec.add_assoc, ← BitVec.ofNat_add, BitVec.add_right_inj] at hslot
    have hnat := congrArg BitVec.toNat hslot
    rw [BitVec.toNat_ofNat, BitVec.toNat_ofNat] at hnat
    simp only [countLimit] at hslots
    omega
  rcases hrow.stop_le_or hwhole hleaf hne with hstop | hstop
  · simp only [stop, StorageOffset.index, hroom] at hstop
    omega
  · simp only [stop, StorageOffset.index, hleafRoom] at hstop
    omega

/-- The slot of a mapping is not shared. -/
theorem not_covers_mapping (hrow : structs.Row 0 leaves (32 * slots)) (hslots : slots < countLimit)
    (hassignable : ∀ leaf ∈ leaves, leaf.ty.Assignable) {mapping leaf : Leaf}
    (hmapping : mapping ∈ leaves) (hty : mapping.ty.isMapping = true) (hleaf : leaf ∈ leaves)
    (target : Word) (i : Nat) : ¬leaf.Covers target (mapping.slotFrom target) i := by
  intro hcovers
  have hone : structs.storageSlots mapping.ty = .ok 1 := by
    cases h : mapping.ty <;> rw [h] at hty <;> first | rfl | contradiction
  have hvalue := (hassignable leaf hleaf).isValueType hcovers.1
  have hfirst := hrow.not_covers_whole hslots hmapping (Ty.isValueType_of_isMapping hty) hone hleaf hvalue
    (hassignable leaf hleaf).hasWidth target Nat.one_pos i
  rw [BitVec.add_zero] at hfirst
  exact hfirst hcovers

/-- Where the bytes that no leaf takes are unchanged, so are the slots of mappings and all slots
outside of the struct. -/
theorem read_eq_of_frame (hrow : structs.Row 0 leaves (32 * slots)) (hslots : slots < countLimit)
    (hassignable : ∀ leaf ∈ leaves, leaf.ty.Assignable) {target : Word} {m m' : Machine}
    (hframe : ∀ key i, (∀ leaf ∈ leaves, ¬leaf.Covers target key i) → m'.byte key i = m.byte key i) :
    (∀ leaf ∈ leaves, leaf.ty.isMapping = true →
      m'.persistent.read (leaf.slotFrom target) = m.persistent.read (leaf.slotFrom target)) ∧
    (∀ key, (∀ slot < slots, target + BitVec.ofNat 256 slot ≠ key) →
      m'.persistent.read key = m.persistent.read key) := by
  refine ⟨fun mapping hmapping hty => ?_, fun key hkey => ?_⟩
  · refine Word.eq_of_byteAt_eq fun i _ => hframe _ i fun leaf hleaf => ?_
    exact hrow.not_covers_mapping hslots hassignable hmapping hty hleaf target i
  · refine Word.eq_of_byteAt_eq fun i _ => hframe key i fun leaf hleaf hcovers => ?_
    exact hkey _ (hrow.slot_lt hleaf (hassignable leaf hleaf)) hcovers.2.1

end StructTable.Row

/-! ## Copying one leaf -/

/-- The machine after a leaf was copied from the struct in slot `source` to the one in slot
`target`. -/
def copyLeaf (source target : Word) (m : Machine) (leaf : Leaf) : Machine :=
  match leaf.ty.encoding? with
  | .error _ => m
  | .ok e => m.writeStorage .persistent (leaf.slotFrom target)
      (withBytes e.bytes leaf.place.byte (m.persistent.read (leaf.slotFrom target))
        (leaf.ty.packed e (e.valueAt leaf.place.byte (m.persistent.read (leaf.slotFrom source)))))

/-- A value type is read from the source and written to the target. -/
theorem copyLeaf_eq_writeLeaf {leaf : Leaf} {e : Encoding} (he : leaf.ty.encoding? = .ok e)
    (source target : Word) (m : Machine) :
    copyLeaf source target m leaf = m.writeLeaf target leaf
      (leaf.ty.packed e (e.valueAt leaf.place.byte (m.persistent.read (leaf.slotFrom source)))) := by
  rw [copyLeaf, he, Machine.writeLeaf, ← Ty.bytes_of_encoding?_eq_ok he]

/-- A leaf that lies further on is copied as one of structs that lie further on. -/
theorem copyLeaf_shift (source target : Word) (m : Machine) (leaf : Leaf) (slots : Nat) :
    copyLeaf source target m (leaf.shift slots) =
      copyLeaf (source + BitVec.ofNat 256 slots) (target + BitVec.ofNat 256 slots) m leaf := by
  unfold copyLeaf
  rw [Leaf.slotFrom_shift, Leaf.slotFrom_shift]
  rfl

/-- Mappings are left alone. -/
theorem copyLeaf_of_isMapping {leaf : Leaf} (h : leaf.ty.isMapping = true) (source target : Word)
    (m : Machine) : copyLeaf source target m leaf = m := by
  unfold copyLeaf
  cases hty : leaf.ty with
  | mapping => rfl
  | _ => rw [hty] at h; contradiction

/-! ## Copying leaf by leaf -/

/-- The bytes of the leaves are those of the source before, and no other byte has changed. -/
structure Copied (leaves : List Leaf) (source target : Word) (m m' : Machine) : Prop where
  copied : ∀ leaf ∈ leaves, ∀ key i, leaf.Covers target key i →
    m'.byte key i = m.byte (leaf.slotFrom source) i
  frame : ∀ key i, (∀ leaf ∈ leaves, ¬leaf.Covers target key i) → m'.byte key i = m.byte key i

/-- The structs in the two slots are one, or have no slot in common. -/
def SameOrApart (slots : Nat) (source target : Word) : Prop :=
  source = target ∨ ∀ i < slots, ∀ j < slots,
    source + BitVec.ofNat 256 i ≠ target + BitVec.ofNat 256 j

/-- The source keeps its bytes while leaves are copied. -/
theorem Copied.byte_source {leaves : List Leaf} {source target : Word} {m m' : Machine} {slots : Nat}
    (h : Copied leaves source target m m') (hapart : SameOrApart slots source target)
    (hslots : ∀ leaf ∈ leaves, leaf.ty.isMapping = false → leaf.place.slot < slots) {slot : Nat}
    (hslot : slot < slots) (i : Nat) :
    m'.byte (source + BitVec.ofNat 256 slot) i = m.byte (source + BitVec.ofNat 256 slot) i := by
  by_cases hcovered : ∃ leaf ∈ leaves, leaf.Covers target (source + BitVec.ofNat 256 slot) i
  · obtain ⟨leaf, hmem, hcovers⟩ := hcovered
    rw [h.copied leaf hmem _ i hcovers]
    rcases hapart with rfl | hne
    · rw [hcovers.2.1]
    · exact absurd hcovers.2.1.symm (hne _ hslot _ (hslots leaf hmem hcovers.1))
  · refine h.frame _ i fun leaf hmem hcovers => hcovered ⟨leaf, hmem, hcovers⟩

/-- The bytes after one leaf was copied. -/
theorem byte_copyLeaf {leaf : Leaf} {e : Encoding} (hstorable : leaf.ty.Storable e)
    (hfits : leaf.place.byte + e.bytes ≤ 32) (source target : Word) (m : Machine)
    (hbool : leaf.ty = .bool → m.byte (leaf.slotFrom source) leaf.place.byte = 0 ∨
      m.byte (leaf.slotFrom source) leaf.place.byte = 1) (key : Word) (i : Nat) :
    (leaf.Covers target key i → (copyLeaf source target m leaf).byte key i =
      m.byte (leaf.slotFrom source) i) ∧
    (¬leaf.Covers target key i → (copyLeaf source target m leaf).byte key i = m.byte key i) := by
  have hwidth := Ty.bytes_of_encoding?_eq_ok hstorable.encoding
  have hmapping := Ty.isMapping_of_encoding?_eq_ok hstorable.encoding
  -- what is packed is what was read, since a truth value has its canonical byte
  have hpacked : leaf.ty.packed e
      (e.valueAt leaf.place.byte (m.persistent.read (leaf.slotFrom source))) =
        bytesIn e.bytes leaf.place.byte (m.persistent.read (leaf.slotFrom source)) := by
    refine hstorable.packed_valueOf (bytesIn_and_lowBytesMask _) fun hty => ?_
    have hone : e.bytes = 1 := by
      rw [hwidth, hty]
      rfl
    rw [hone, bytesIn_one]
    rcases hbool hty with h | h
    · rw [byte] at h
      rw [h]
      exact .inl rfl
    · rw [byte] at h
      rw [h]
      exact .inr rfl
  obtain ⟨hcovered, hframe⟩ := m.byte_writeLeaf target leaf
    (bytesIn e.bytes leaf.place.byte (m.persistent.read (leaf.slotFrom source))) hmapping
    (hwidth ▸ hfits) key i
  rw [copyLeaf_eq_writeLeaf hstorable.encoding, hpacked]
  refine ⟨fun hcovers => ?_, hframe⟩
  obtain ⟨-, -, hle, hlt⟩ := id hcovers
  rw [hcovered hcovers, byteAt_bytesIn _ (by omega), Nat.add_sub_cancel' hle]
  rfl

/-- What an assignment needs of the leaves: value types lie in the slots of the struct, and the truth
values of the source are truth values. -/
structure ReadyToCopy (leaves : List Leaf) (slots : Nat) (source : Word) (m : Machine) : Prop where
  copyable : ∀ leaf ∈ leaves, leaf.Copyable
  slot_lt : ∀ leaf ∈ leaves, leaf.ty.isMapping = false → leaf.place.slot < slots
  bool : ∀ leaf ∈ leaves, leaf.ty = .bool → m.byte (leaf.slotFrom source) leaf.place.byte = 0 ∨
    m.byte (leaf.slotFrom source) leaf.place.byte = 1

/-- Copying one more leaf. -/
theorem Copied.copyLeaf {done : List Leaf} {leaf : Leaf} {leaves : List Leaf} {slots : Nat}
    {source target : Word} {m m' : Machine} (h : Copied done source target m m')
    (hready : ReadyToCopy leaves slots source m) (hapart : SameOrApart slots source target)
    (hdone : ∀ leaf ∈ done, leaf ∈ leaves) (hleaf : leaf ∈ leaves) :
    Copied (done ++ [leaf]) source target m (copyLeaf source target m' leaf) := by
  rcases hready.copyable leaf hleaf with hmapping | ⟨e, hstorable, hfits⟩
  · rw [copyLeaf_of_isMapping hmapping]
    refine ⟨fun leaf' hmem key i hcovers => ?_, fun key i hout => ?_⟩
    · rcases List.mem_append.1 hmem with hmem | hmem
      · exact h.copied leaf' hmem key i hcovers
      · obtain rfl := List.mem_singleton.1 hmem
        rw [hcovers.1] at hmapping
        contradiction
    · exact h.frame key i fun leaf' hmem => hout leaf' (List.mem_append_left _ hmem)
  · have hvalue : leaf.ty.isMapping = false := Ty.isMapping_of_encoding?_eq_ok hstorable.encoding
    have hsource : ∀ i, m'.byte (leaf.slotFrom source) i = m.byte (leaf.slotFrom source) i :=
      h.byte_source hapart (fun leaf' hmem hm => hready.slot_lt leaf' (hdone leaf' hmem) hm)
        (hready.slot_lt leaf hleaf hvalue)
    have hbool : leaf.ty = .bool → m'.byte (leaf.slotFrom source) leaf.place.byte = 0 ∨
        m'.byte (leaf.slotFrom source) leaf.place.byte = 1 := by
      rw [hsource]
      exact hready.bool leaf hleaf
    have hbyte := byte_copyLeaf hstorable hfits source target m' hbool
    refine ⟨fun leaf' hmem key i hcovers => ?_, fun key i hout => ?_⟩
    · by_cases hlast : leaf.Covers target key i
      · -- leaves that take one byte have it from one byte of the source
        have hslots : leaf'.slotFrom source = leaf.slotFrom source :=
          Leaf.slotFrom_congr (hcovers.2.1.trans hlast.2.1.symm) source
        rw [(hbyte key i).1 hlast, hsource, hslots]
      · rw [(hbyte key i).2 hlast]
        rcases List.mem_append.1 hmem with hmem | hmem
        · exact h.copied leaf' hmem key i hcovers
        · obtain rfl := List.mem_singleton.1 hmem
          exact absurd hcovers hlast
    · rw [(hbyte key i).2 (hout leaf (List.mem_append_right _ (List.mem_singleton_self leaf)))]
      exact h.frame key i fun leaf' hmem => hout leaf' (List.mem_append_left _ hmem)

/-- Copying leaves one after the other.

**Proof sketch.** Induction on the leaves that are left, over those that are done.  The source keeps
its bytes on the way: it has no slot in common with the target, or what is written to a byte is what
it holds (`Copied.byte_source`). -/
theorem copied_foldl {leaves : List Leaf} {slots : Nat} {source target : Word} {m : Machine}
    (hready : ReadyToCopy leaves slots source m) (hapart : SameOrApart slots source target) :
    Copied leaves source target m (leaves.foldl (copyLeaf source target) m) := by
  suffices h : ∀ left done m', done ++ left = leaves → Copied done source target m m' →
      Copied leaves source target m (left.foldl (copyLeaf source target) m') from
    h leaves [] m rfl ⟨fun leaf hmem => absurd hmem List.not_mem_nil, fun key i _ => rfl⟩
  intro left
  induction left with
  | nil =>
    intro done m' hdone h
    rw [← hdone, List.append_nil]
    exact h
  | cons leaf left ih =>
    intro done m' hdone h
    refine ih (done ++ [leaf]) _ (by simpa using hdone) (h.copyLeaf hready hapart ?_ ?_)
    · intro leaf' hmem
      rw [← hdone]
      exact List.mem_append_left _ hmem
    · rw [← hdone]
      exact List.mem_append_right _ List.mem_cons_self

/-- Copying leaves changes persistent storage only. -/
theorem foldl_copyLeaf_frame (leaves : List Leaf) (source target : Word) (m : Machine) :
    m.SameElsewhere (leaves.foldl (copyLeaf source target) m) ∧
      (leaves.foldl (copyLeaf source target) m).transient = m.transient ∧
      (leaves.foldl (copyLeaf source target) m).stack = m.stack := by
  induction leaves generalizing m with
  | nil => exact ⟨.refl m, rfl, rfl⟩
  | cons leaf leaves ih =>
    obtain ⟨hsame, htransient, hstack⟩ := ih (copyLeaf source target m leaf)
    have hleaf : m.SameElsewhere (copyLeaf source target m leaf) ∧
        (copyLeaf source target m leaf).transient = m.transient ∧
        (copyLeaf source target m leaf).stack = m.stack := by
      unfold copyLeaf
      split
      · exact ⟨.refl m, rfl, rfl⟩
      · exact ⟨sameElsewhere_writeStorage _ _ _ _, rfl, rfl⟩
    exact ⟨hleaf.1.trans hsame, htransient.trans hleaf.2.1, hstack.trans hleaf.2.2⟩

end WordPlaces
