import Mathlib.Data.List.Pairwise
import WordPlaces.PackedField
import WordPlaces.Proofs.Ty.Growth
import WordPlaces.Proofs.Ty.Placement
import WordPlaces.Proofs.Ty.Width

/-!
# The leaves of a struct

A struct that nests other structs is, in storage, a row of values that are no structs: its leaves.
A value type takes a run of bytes of one slot, every other leaf takes whole slots.

## Main definitions

* `Leaf`, `StructTable.leaves` — the leaves of a struct with their places.
* `StructTable.room`, `StructTable.stop` — the bytes that a leaf takes, and the end of them.
* `StructTable.WellPlaced` — a leaf does not share bytes that its accesses expect for themselves.
* `StructTable.Row` — leaves that lie one after the other within a range of bytes.

## Main results

* `StructTable.row_leaves` — the leaves of a struct are a row of well placed leaves.
* `TypeTable.leaves_disjoint_of_declareStruct` — the same for every struct that can be declared,
  with the layout that is found at any later time.
-/

set_option autoImplicit false

namespace WordPlaces

/-! ## Leaves -/

/-- A value in a struct that is no struct itself, with its place relative to the first slot of
the struct. -/
structure Leaf where
  ty : Ty
  place : StorageOffset
  deriving Repr, DecidableEq, Inhabited

/-- The leaf of a struct that lies a number of slots further on. -/
def Leaf.shift (slots : Nat) (leaf : Leaf) : Leaf :=
  { leaf with place.slot := slots + leaf.place.slot }

/-- A leaf that lies further on starts as many bytes later as the slots have. -/
theorem Leaf.shift_index (slots : Nat) (leaf : Leaf) :
    (leaf.shift slots).place.index = 32 * slots + leaf.place.index := by
  simp only [shift, StorageOffset.index]
  omega

namespace StructTable

/-- The leaves of a struct, in the order in which they are declared. -/
def leaves (structs : StructTable) (d : StructId) : List Leaf :=
  (structs.fields d).attach.flatMap fun ⟨f, _⟩ =>
    match _ : f.ty with
    | .struct d' _ => (structs.leaves d').map (Leaf.shift f.storage.slot)
    | ty => [⟨ty, f.storage⟩]
termination_by d
decreasing_by exact lt_of_mem_fields ‹_› ‹_›

/-- The leaves of one member. -/
def leavesOf (structs : StructTable) (f : Field) : List Leaf :=
  match f.ty with
  | .struct d' _ => (structs.leaves d').map (Leaf.shift f.storage.slot)
  | ty => [⟨ty, f.storage⟩]

/-- The leaves of a member are those of a nested struct, or the member itself. -/
theorem leavesOf_eq (structs : StructTable) (f : Field) :
    (∃ d location, f.ty = .struct d location ∧
      structs.leavesOf f = (structs.leaves d).map (Leaf.shift f.storage.slot)) ∨
    (∀ d location, f.ty ≠ .struct d location) ∧ structs.leavesOf f = [⟨f.ty, f.storage⟩] := by
  rw [leavesOf]
  split
  · rename_i d location hty
    exact .inl ⟨d, location, hty, rfl⟩
  · rename_i hne
    exact .inr ⟨hne, rfl⟩

/-- The leaves of a struct are those of its members. -/
theorem leaves_eq (structs : StructTable) (d : StructId) :
    structs.leaves d = (structs.fields d).flatMap structs.leavesOf := by
  have h : ∀ f : { f // f ∈ structs.fields d },
      (match _ : f.1.ty with
        | .struct d' _ => (structs.leaves d').map (Leaf.shift f.1.storage.slot)
        | ty => [⟨ty, f.1.storage⟩]) = structs.leavesOf f.1 := by
    intro f
    rw [leavesOf]
    split <;> rename_i hty <;> simp only [hty]
  rw [leaves]
  simp only [h]
  rw [List.flatMap_subtype (fun f _ => rfl), List.unattach_attach]

/-- A leaf of a member is a leaf of the struct. -/
theorem mem_leaves {structs : StructTable} {d : StructId} {f : Field} (hf : f ∈ structs.fields d)
    {leaf : Leaf} (hleaf : leaf ∈ structs.leavesOf f) : leaf ∈ structs.leaves d := by
  rw [leaves_eq]
  exact List.mem_flatMap.2 ⟨f, hf, hleaf⟩

/-- A leaf of a nested struct lies further on in the struct. -/
theorem shift_mem_leaves {structs : StructTable} {d d' : StructId} {f : Field}
    {location : DataLocation} (hf : f ∈ structs.fields d) (hty : f.ty = .struct d' location)
    {leaf : Leaf} (hleaf : leaf ∈ structs.leaves d') :
    leaf.shift f.storage.slot ∈ structs.leaves d := by
  refine mem_leaves hf ?_
  rw [leavesOf, hty]
  exact List.mem_map_of_mem hleaf

/-- Every other member is a leaf itself. -/
theorem mem_leaves_of_ne_struct {structs : StructTable} {d : StructId} {f : Field}
    (hf : f ∈ structs.fields d) (hne : ∀ d' location, f.ty ≠ .struct d' location) :
    ⟨f.ty, f.storage⟩ ∈ structs.leaves d := by
  refine mem_leaves hf ?_
  rcases structs.leavesOf_eq f with ⟨d', location, hty, -⟩ | ⟨-, heq⟩
  · exact absurd hty (hne d' location)
  · rw [heq]
    exact List.mem_singleton_self _

/-- Mappings are the members without a place in memory. -/
theorem memoryOffset_isNone {structs : StructTable} {d : StructId} {f : Field}
    (h : f ∈ structs.fields d) : f.memoryOffset.isNone = f.ty.isMapping := by
  suffices hfrom : ∀ members offset, f ∈ fieldsFrom offset members →
      f.memoryOffset.isNone = f.ty.isMapping from hfrom _ _ h
  intro members
  induction members with
  | nil => exact fun _ hf => absurd hf List.not_mem_nil
  | cons p members ih =>
    intro offset hf
    rw [fieldsFrom] at hf
    split at hf
    · rename_i hmapping
      rcases List.mem_cons.1 hf with rfl | hf
      · exact hmapping.symm
      · exact ih _ hf
    · rename_i hmapping
      rcases List.mem_cons.1 hf with rfl | hf
      · exact (Bool.eq_false_iff.2 hmapping).symm
      · exact ih _ hf

/-! ## The bytes of a leaf -/

/-- The bytes that a leaf of the given type takes: those of its width for a value type, and whole
slots for every other type. -/
def room (structs : StructTable) (ty : Ty) : Nat :=
  if ty.isValueType then ty.storageBytes
  else 32 * (structs.storageSlots ty).toOption.getD 0

/-- The byte of storage behind a leaf. -/
def stop (structs : StructTable) (leaf : Leaf) : Nat :=
  leaf.place.index + structs.room leaf.ty

/-- The bytes of a leaf that is a value type lie within one slot, so that they are a packed field,
and every other leaf takes whole slots, of which there is at least one. -/
structure WellPlaced (structs : StructTable) (leaf : Leaf) : Prop where
  within_slot : leaf.ty.isValueType = true → leaf.place.byte + leaf.ty.storageBytes ≤ 32
  whole_slots : leaf.ty.isValueType = false →
    leaf.place.byte = 0 ∧ ∃ slots, structs.storageSlots leaf.ty = .ok slots ∧ 1 ≤ slots

/-- A leaf that lies further on ends as many bytes later as the slots have. -/
theorem stop_shift (structs : StructTable) (slots : Nat) (leaf : Leaf) :
    structs.stop (leaf.shift slots) = 32 * slots + structs.stop leaf := by
  rw [stop, stop, Leaf.shift_index, Nat.add_assoc]
  rfl

/-- Whole slots before a leaf keep it well placed. -/
theorem WellPlaced.shift {structs : StructTable} {leaf : Leaf} (h : structs.WellPlaced leaf)
    (slots : Nat) : structs.WellPlaced (leaf.shift slots) := ⟨h.within_slot, h.whole_slots⟩

/-! ## Rows -/

/-- Well placed leaves that lie one after the other from byte `start` up to byte `stop`, some leaf
up to the last slot before that. -/
structure Row (structs : StructTable) (start : Nat) (leaves : List Leaf) (stop : Nat) : Prop where
  ordered : leaves.Pairwise fun a b => structs.stop a ≤ b.place.index
  within : ∀ leaf ∈ leaves, start ≤ leaf.place.index ∧ structs.stop leaf ≤ stop
  wellPlaced : ∀ leaf ∈ leaves, structs.WellPlaced leaf
  reached : start < stop →
    ∃ leaf ∈ leaves, ∀ slot, 32 * slot < stop → 32 * slot < structs.stop leaf

namespace Row

variable {structs : StructTable} {start middle stop : Nat} {leaves leaves' : List Leaf}

/-- A row of one leaf. -/
theorem single {leaf : Leaf} (h : structs.WellPlaced leaf) :
    structs.Row leaf.place.index [leaf] (structs.stop leaf) where
  ordered := List.pairwise_singleton _ _
  within := by
    intro leaf' hleaf'
    obtain rfl := List.mem_singleton.1 hleaf'
    exact ⟨Nat.le_refl _, Nat.le_refl _⟩
  wellPlaced := by
    intro leaf' hleaf'
    obtain rfl := List.mem_singleton.1 hleaf'
    exact h
  reached _ := ⟨leaf, List.mem_singleton_self _, fun _ hslot => hslot⟩

/-- A row in a struct that lies a number of slots further on. -/
theorem shift (h : structs.Row start leaves stop) (slots : Nat) :
    structs.Row (32 * slots + start) (leaves.map (Leaf.shift slots)) (32 * slots + stop) where
  ordered := by
    rw [List.pairwise_map]
    refine h.ordered.imp fun {a b} hab => ?_
    rw [stop_shift, Leaf.shift_index]
    omega
  within := by
    intro leaf' hleaf'
    obtain ⟨leaf, hleaf, rfl⟩ := List.mem_map.1 hleaf'
    have := h.within leaf hleaf
    rw [stop_shift, Leaf.shift_index]
    omega
  wellPlaced := by
    intro leaf' hleaf'
    obtain ⟨leaf, hleaf, rfl⟩ := List.mem_map.1 hleaf'
    exact (h.wellPlaced leaf hleaf).shift slots
  reached hlt := by
    obtain ⟨leaf, hleaf, hstop⟩ := h.reached (by omega)
    refine ⟨_, List.mem_map_of_mem hleaf, fun slot hslot => ?_⟩
    have := hstop (slot - slots)
    rw [stop_shift]
    omega

/-- A row with another one that begins where it ends. -/
theorem append {first : Nat} (h : structs.Row first leaves middle)
    (h' : structs.Row middle leaves' stop) (hstart : start ≤ first) (hfirst : first < middle)
    (hstop : middle ≤ stop) : structs.Row start (leaves ++ leaves') stop where
  ordered := by
    refine List.pairwise_append.2 ⟨h.ordered, h'.ordered, fun a ha b hb => ?_⟩
    exact Nat.le_trans (h.within a ha).2 (h'.within b hb).1
  within := by
    intro leaf hleaf
    rcases List.mem_append.1 hleaf with hl | hl
    · have := h.within leaf hl
      omega
    · have := h'.within leaf hl
      omega
  wellPlaced := by
    intro leaf hleaf
    rcases List.mem_append.1 hleaf with hl | hl
    · exact h.wellPlaced leaf hl
    · exact h'.wellPlaced leaf hl
  reached _ := by
    rcases Nat.lt_or_eq_of_le hstop with hlt | rfl
    · obtain ⟨leaf, hleaf, hreach⟩ := h'.reached hlt
      exact ⟨leaf, List.mem_append_right _ hleaf, hreach⟩
    · obtain ⟨leaf, hleaf, hreach⟩ := h.reached hfirst
      exact ⟨leaf, List.mem_append_left _ hleaf, hreach⟩

/-- Two leaves of a row do not overlap. -/
theorem stop_le_or (h : structs.Row start leaves stop) {a b : Leaf} (ha : a ∈ leaves)
    (hb : b ∈ leaves) (hne : a ≠ b) :
    structs.stop a ≤ b.place.index ∨ structs.stop b ≤ a.place.index := by
  have hsymm : Std.Symm fun a b : Leaf =>
      structs.stop a ≤ b.place.index ∨ structs.stop b ≤ a.place.index := ⟨fun _ _ => Or.symm⟩
  have hordered : leaves.Pairwise fun a b =>
      structs.stop a ≤ b.place.index ∨ structs.stop b ≤ a.place.index :=
    h.ordered.imp fun hab => Or.inl hab
  exact hordered.forall ha hb hne

/-- A row that is counted in whole slots. -/
theorem whole {slots : Nat} (h : structs.Row 0 leaves stop) (hle : stop ≤ 32 * slots)
    (hlt : 32 * slots < stop + 32) : structs.Row 0 leaves (32 * slots) where
  ordered := h.ordered
  within leaf hleaf := ⟨Nat.zero_le _, Nat.le_trans (h.within leaf hleaf).2 hle⟩
  wellPlaced := h.wellPlaced
  reached hpos := by
    obtain ⟨leaf, hleaf, hreach⟩ := h.reached (by omega)
    exact ⟨leaf, hleaf, fun slot hslot => hreach slot (by omega)⟩

end Row

/-! ## The row of a struct -/

/-- The size of a member whose leaves have widths that a slot has room for. -/
theorem regular_of_storageSize_eq_ok {structs : StructTable} {ty : Ty} {size : StorageSize}
    (h : structs.storageSize ty = .ok size) (hwidth : ty.HasWidth) :
    size.Regular ∧ structs.storageSlots ty = .ok size.slots ∧ size.bytes = ty.storageBytes := by
  obtain ⟨slots, hslots, rfl⟩ := Except.exists_of_map_eq_ok h
  refine ⟨⟨hwidth.1, hwidth.2, fun hlt => ?_⟩, hslots, rfl⟩
  cases hvalue : ty.isValueType with
  | false => exact Ty.storageBytes_of_not_isValueType hvalue
  | true =>
    rw [Ty.storageSlots_of_isValueType structs hvalue] at hslots
    obtain rfl := Except.ok.inj hslots
    contradiction

/-- The leaves of a member take the bytes that the member was given. -/
theorem row_leavesOf {structs : StructTable} {f : Field} {size : StorageSize}
    (hsize : structs.storageSize f.ty = .ok size) (hslots : 1 ≤ size.slots)
    (hfits : f.storage.byte + size.bytes ≤ 32)
    (hnested : ∀ d location, f.ty = .struct d location →
      structs.Row 0 (structs.leaves d) (32 * (structs.decl d).layout.slots)) :
    structs.Row f.storage.index (structs.leavesOf f) (f.storage.index + size.span) := by
  obtain ⟨slots, hty, rfl⟩ := Except.exists_of_map_eq_ok hsize
  change 1 ≤ slots at hslots
  change f.storage.byte + f.ty.storageBytes ≤ 32 at hfits
  rw [leavesOf]
  split
  · rename_i d location hf
    rw [hf] at hty hfits
    obtain rfl := Except.ok.inj hty
    have hbyte : f.storage.byte = 0 := by
      simp only [Ty.storageBytes] at hfits
      omega
    have hrow := (hnested d location hf).shift f.storage.slot
    rw [hf]
    simpa [StorageOffset.index, hbyte, StorageSize.span, Ty.storageBytes] using hrow
  · have hroom : structs.room f.ty = StorageSize.span ⟨slots, f.ty.storageBytes⟩ := by
      simp only [room, StorageSize.span]
      cases hvalue : f.ty.isValueType with
      | false =>
        rw [Ty.storageBytes_of_not_isValueType hvalue, hty]
        rfl
      | true =>
        rw [Ty.storageSlots_of_isValueType structs hvalue] at hty
        obtain rfl := Except.ok.inj hty
        simp only [if_true]
        split <;> omega
    have hplaced : structs.WellPlaced ⟨f.ty, f.storage⟩ := by
      refine ⟨fun _ => hfits, fun hvalue => ⟨?_, slots, hty, hslots⟩⟩
      rw [Ty.storageBytes_of_not_isValueType hvalue] at hfits
      simpa using hfits
    rw [← hroom]
    exact .single hplaced

/-- The places of members that lie one after the other make a row of leaves.

**Proof sketch.** Induction on the members: the leaves of the first one take the bytes that it was
given, and those of the others begin behind them. -/
theorem row_of_placed {structs : StructTable} {members : List Member} {sizes : List StorageSize}
    {offsets : List StorageOffset} {start stop : Nat} (memoryOffset : Nat)
    (hplaced : Placed start sizes offsets stop)
    (hsizes : List.Forall₂ (fun m s => structs.storageSize m.ty = .ok s) members sizes)
    (hpos : ∀ s ∈ sizes, 1 ≤ s.bytes)
    (hnested : ∀ m ∈ members, ∀ d location, m.ty = .struct d location →
      structs.Row 0 (structs.leaves d) (32 * (structs.decl d).layout.slots)) :
    structs.Row start
      ((fieldsFrom memoryOffset (members.zip offsets)).flatMap structs.leavesOf) stop := by
  induction hplaced generalizing members memoryOffset with
  | nil k =>
    obtain rfl := List.forall₂_nil_right_iff.1 hsizes
    exact ⟨List.Pairwise.nil, by simp [fieldsFrom], by simp [fieldsFrom], by omega⟩
  | @cons k stop size place sizes offsets hle hfits hslots hrest ih =>
    obtain ⟨m, members, hm, hothers, rfl⟩ := List.forall₂_cons_right_iff.1 hsizes
    obtain ⟨f, memoryOffset', hcons, hty, hplace⟩ :
        ∃ f memoryOffset', fieldsFrom memoryOffset ((m, place) :: members.zip offsets) =
          f :: fieldsFrom memoryOffset' (members.zip offsets) ∧ f.ty = m.ty ∧ f.storage = place := by
      rw [fieldsFrom]
      split
      · exact ⟨_, _, rfl, rfl, rfl⟩
      · exact ⟨_, _, rfl, rfl, rfl⟩
    have hfirst : structs.Row f.storage.index (structs.leavesOf f) (f.storage.index + size.span) :=
      row_leavesOf (hty ▸ hm) hslots (hplace ▸ hfits)
        fun d location hf => hnested m List.mem_cons_self d location (hty ▸ hf)
    have hrow := ih memoryOffset' hothers (fun s hs => hpos s (List.mem_cons_of_mem _ hs))
      fun m' hm' => hnested m' (List.mem_cons_of_mem _ hm')
    have hspan := StorageSize.one_le_span (hpos size List.mem_cons_self) hslots
    rw [List.zip_cons_cons, hcons, List.flatMap_cons]
    rw [hplace] at hfirst
    exact hfirst.append hrow hle (by omega) hrest.le

/-- Every member has a field, if every member has a place. -/
theorem map_ty_fieldsFrom {members : List Member} {offsets : List StorageOffset}
    (hlength : offsets.length = members.length) (memoryOffset : Nat) :
    (fieldsFrom memoryOffset (members.zip offsets)).map (·.ty) = members.map (·.ty) := by
  induction members generalizing offsets memoryOffset with
  | nil => rfl
  | cons m members ih =>
    obtain ⟨place, offsets, rfl⟩ := List.exists_cons_of_length_eq_add_one hlength
    have hrest := ih (Nat.succ.inj hlength)
    rw [List.zip_cons_cons, fieldsFrom]
    split
    · exact congrArg (m.ty :: ·) (hrest memoryOffset)
    · exact congrArg (m.ty :: ·) (hrest (memoryOffset + 32))

/-- The members of a struct that is laid out have their fields. -/
theorem LaidOut.map_ty_fields {structs : StructTable} (hlaid : structs.LaidOut) {d : StructId}
    (hd : d < structs.decls.size) :
    (structs.fields d).map (·.ty) = (structs.decl d).members.map (·.ty) := by
  obtain ⟨sizes, hsizes, hlayout⟩ := Except.exists_of_bind_eq_ok (hlaid d hd)
  refine map_ty_fieldsFrom ((length_layoutFrom hlayout).trans ?_) 0
  exact (List.forall₂_of_mapM_eq_ok hsizes).length_eq.symm

/-- The leaves of a struct are a row of well placed leaves in the slots of the struct, of which
there are some if it has members.

**Proof sketch.** Induction on the number of the struct, since structs nest earlier ones only.  The
layout places the members one after the other (`layoutFrom_placed`), the leaves of each member take
the bytes of the member (`row_of_placed`), and the end is rounded up to whole slots. -/
theorem row_leaves {structs : StructTable} (hlaid : structs.LaidOut) {d : StructId}
    (hd : d < structs.decls.size) (hwidth : ∀ leaf ∈ structs.leaves d, leaf.ty.HasWidth) :
    structs.Row 0 (structs.leaves d) (32 * (structs.decl d).layout.slots) ∧
      ((structs.decl d).members ≠ [] → 1 ≤ (structs.decl d).layout.slots) := by
  induction d using Nat.strongRecOn with
  | ind d ih =>
    obtain ⟨sizes, hsizes, hlayout⟩ := Except.exists_of_bind_eq_ok (hlaid d hd)
    have hforall := List.forall₂_of_mapM_eq_ok hsizes
    have hleaves : ∀ m ∈ (structs.decl d).members, ∃ f : Field, f.ty = m.ty ∧
        ∀ leaf ∈ structs.leavesOf f, leaf.ty.HasWidth := by
      intro m hm
      have hty := List.mem_map_of_mem (f := Member.ty) hm
      rw [← hlaid.map_ty_fields hd] at hty
      obtain ⟨f, hf, hty⟩ := List.mem_map.1 hty
      exact ⟨f, hty, fun leaf hleaf => hwidth leaf (mem_leaves hf hleaf)⟩
    have hmembers : ∀ m ∈ (structs.decl d).members, m.ty.HasWidth := by
      intro m hm
      obtain ⟨f, hty, hf⟩ := hleaves m hm
      rw [leavesOf, hty] at hf
      split at hf
      · rename_i d' location hm'
        rw [hm']
        exact ⟨Nat.le_add_left 1 31, Nat.le_refl 32⟩
      · exact hf _ (List.mem_singleton_self _)
    have hnested : ∀ m ∈ (structs.decl d).members, ∀ d' location, m.ty = .struct d' location →
        structs.Row 0 (structs.leaves d') (32 * (structs.decl d').layout.slots) := by
      intro m hm d' location hm'
      have hlt : d' < d := by
        have := nestsBelow_of_mem_members hd hm
        rw [hm'] at this
        simpa [Ty.nestsBelow] using this
      refine (ih d' hlt (Nat.lt_trans hlt hd) fun leaf hleaf => ?_).1
      obtain ⟨f, hty, hf⟩ := hleaves m hm
      rw [leavesOf, hty, hm'] at hf
      exact hf (leaf.shift f.storage.slot) (List.mem_map_of_mem hleaf)
    have hregular : ∀ s ∈ sizes, s.Regular := by
      intro s hs
      obtain ⟨m, hm, hms⟩ := List.exists_mem_of_mem_mapM hsizes hs
      exact (regular_of_storageSize_eq_ok hms (hmembers m hm)).1
    obtain ⟨stop, hplaced, hle, hlt⟩ := layoutFrom_placed (Nat.zero_lt_succ 31) hregular hlayout
    have hpos := fun s hs => (hregular s hs).one_le_bytes
    refine ⟨?_, fun hne => ?_⟩
    · rw [leaves_eq]
      exact (row_of_placed 0 hplaced hforall hpos hnested).whole hle hlt
    · have hsizes_ne : sizes ≠ [] := fun hnil =>
        hne (List.eq_nil_of_length_eq_zero (hforall.length_eq.trans (congrArg List.length hnil)))
      have := hplaced.lt hsizes_ne hpos
      omega

/-- The slots of a struct can be counted. -/
theorem LaidOut.slots_lt {structs : StructTable} (hlaid : structs.LaidOut) {d : StructId}
    (hd : d < structs.decls.size) : (structs.decl d).layout.slots < countLimit := by
  obtain ⟨sizes, -, hlayout⟩ := Except.exists_of_bind_eq_ok (hlaid d hd)
  exact layoutFrom_slots_lt (by decide) hlayout

/-- The bytes of a well placed value type are a packed field. -/
theorem WellPlaced.ofEncoding?_eq_ok {structs : StructTable} {leaf : Leaf}
    (h : structs.WellPlaced leaf) (hwidth : leaf.ty.HasWidth) {e : Encoding}
    (he : leaf.ty.encoding? = .ok e) :
    PackedField.ofEncoding? e leaf.place.byte =
      .ok ⟨e.bytes, leaf.place.byte, e.alignment, e.signedness⟩ := by
  have hslot := h.within_slot (Ty.isValueType_of_encoding?_eq_ok he)
  have hbytes := Ty.bytes_of_encoding?_eq_ok he
  rw [← hbytes] at hslot
  refine if_pos ⟨?_, hslot⟩
  rw [hbytes]
  exact hwidth.1

end StructTable

/-- The leaves of a struct that can be declared in a table never overlap, as long as every width is
one that a slot has room for.  At any later time they lie one after the other in the order in which
they are declared, every value type within one slot and so in a packed field, every other leaf in
whole slots, all of them in the slots that are counted for the struct, of which the last one is
used; and the places are those that the members get from their sizes at that time.

**Proof sketch.** Declarations stay what they were and keep the layout that their members get
(`Reaches.extends`, `Reaches.laidOut`), so that the leaves are a row (`row_leaves`). -/
theorem TypeTable.leaves_disjoint_of_declareStruct {table table' later : TypeTable} {name : String}
    {members : List Member} {d : StructId} (hreach : Reaches {} table)
    (hdeclare : table.declareStruct name members = .ok (d, table'))
    (hlater : table'.Reaches later)
    (hwidth : ∀ leaf ∈ later.structs.leaves d, leaf.ty.HasWidth) :
    ∃ slots,
      (∀ location, later.structs.storageSlots (.struct d location) = .ok slots) ∧
      later.structs.decl d = table'.structs.decl d ∧
      later.structs.layoutMembers members = .ok (table'.structs.decl d).layout ∧
      (later.structs.fields d).map (·.ty) = members.map (·.ty) ∧
      (later.structs.leaves d).Pairwise (fun a b => later.structs.stop a ≤ b.place.index) ∧
      (∀ leaf ∈ later.structs.leaves d,
        later.structs.WellPlaced leaf ∧ later.structs.stop leaf ≤ 32 * slots ∧
        ∀ e, leaf.ty.encoding? = .ok e → PackedField.ofEncoding? e leaf.place.byte =
          .ok ⟨e.bytes, leaf.place.byte, e.alignment, e.signedness⟩) ∧
      (members ≠ [] → 1 ≤ slots ∧
        ∃ leaf ∈ later.structs.leaves d, 32 * (slots - 1) < later.structs.stop leaf) := by
  have hstep : table.Step table' := .declareStruct hdeclare
  have hlaid : later.structs.LaidOut := TypeTable.Reaches.laidOut ((hreach.tail hstep).trans hlater)
  obtain ⟨structs, hstructs, h⟩ := Except.exists_of_map_eq_ok hdeclare
  obtain ⟨rfl, rfl⟩ := Prod.mk.inj h
  obtain ⟨-, layout, -, hdecls⟩ := StructTable.declare_eq_ok hstructs
  have hd : table.structs.decls.size < structs.decls.size := by
    rw [hdecls, Array.size_push]
    exact Nat.lt_succ_self _
  have hd' := Nat.lt_of_lt_of_le hd hlater.extends.size_le
  have hdecl := hlater.extends.decl_eq _ hd
  have hmembers : (structs.decl table.structs.decls.size).members = members := by
    rw [StructTable.decl, hdecls, Array.getElem?_push_size, Option.getD_some]
  obtain ⟨hrow, hslots⟩ := StructTable.row_leaves hlaid hd' hwidth
  have hlayout := hlaid _ hd'
  have hfields := hlaid.map_ty_fields hd'
  rw [hdecl] at hlayout hfields hslots
  rw [hmembers] at hlayout hfields hslots
  refine ⟨_, fun location => rfl, hdecl, hlayout, hfields, hrow.ordered, ?_, ?_⟩
  · intro leaf hleaf
    have hplaced := hrow.wellPlaced leaf hleaf
    exact ⟨hplaced, (hrow.within leaf hleaf).2, fun e he =>
      hplaced.ofEncoding?_eq_ok (hwidth leaf hleaf) he⟩
  · intro hne
    have hpos := hslots hne
    rw [← hdecl] at hpos
    obtain ⟨leaf, hleaf, hreach⟩ := hrow.reached (by omega)
    exact ⟨hpos, leaf, hleaf, hreach _ (by omega)⟩

open StructTable in
/-- A struct that nests another one between members that share slots. -/
theorem TypeTable.leaves_disjoint_of_declareStruct_nested :
    ∃ table table' : TypeTable,
      TypeTable.declareStruct {} "Inner" [⟨"flag", .bool⟩, ⟨"map", .mapping .address .bool⟩] =
        .ok (0, table) ∧
      table.declareStruct "Outer" [⟨"x", .int 16 true⟩, ⟨"inner", .struct 0 .storage⟩,
        ⟨"y", .address⟩, ⟨"z", .fixedBytes 12⟩] = .ok (1, table') ∧
      (table'.structs.leaves 1).map (·.place) = [⟨0, 0⟩, ⟨1, 0⟩, ⟨2, 0⟩, ⟨3, 0⟩, ⟨3, 20⟩] ∧
      (∀ leaf ∈ table'.structs.leaves 1, leaf.ty.HasWidth) ∧
      (table'.structs.leaves 1).Pairwise (fun a b => table'.structs.stop a ≤ b.place.index) ∧
      ∃ slots, table'.structs.storageSlots (.struct 1 .storage) = .ok slots ∧
        ∃ leaf ∈ table'.structs.leaves 1, 32 * (slots - 1) < table'.structs.stop leaf := by
  obtain ⟨table, table', hinner, houter, hleaves⟩ : ∃ table table' : TypeTable,
      TypeTable.declareStruct {} "Inner" [⟨"flag", .bool⟩, ⟨"map", .mapping .address .bool⟩] =
        .ok (0, table) ∧
      table.declareStruct "Outer" [⟨"x", .int 16 true⟩, ⟨"inner", .struct 0 .storage⟩,
        ⟨"y", .address⟩, ⟨"z", .fixedBytes 12⟩] = .ok (1, table') ∧
      table'.structs.leaves 1 = [⟨.int 16 true, ⟨0, 0⟩⟩, ⟨.bool, ⟨1, 0⟩⟩,
        ⟨.mapping .address .bool, ⟨2, 0⟩⟩, ⟨.address, ⟨3, 0⟩⟩, ⟨.fixedBytes 12, ⟨3, 20⟩⟩] := by
    refine ⟨_, _, rfl, rfl, ?_⟩
    simp [leaves_eq, fields, fieldsFrom, leavesOf, decl, Ty.isMapping, Ty.storageBytes, Leaf.shift,
      StorageOffset.zero]
  have hwidth : ∀ leaf ∈ table'.structs.leaves 1, leaf.ty.HasWidth := by
    rw [hleaves]
    decide
  obtain ⟨slots, hslots, -, -, -, hordered, -, hlast⟩ :=
    TypeTable.leaves_disjoint_of_declareStruct (.single (.declareStruct hinner)) houter .refl hwidth
  refine ⟨table, table', hinner, houter, ?_, hwidth, hordered, slots, hslots .storage, ?_⟩
  · rw [hleaves]
    rfl
  · exact (hlast (List.cons_ne_nil _ _)).2

end WordPlaces
