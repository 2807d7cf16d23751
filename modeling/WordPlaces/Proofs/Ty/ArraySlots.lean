import WordPlaces.Proofs.Ty.Tightness
import WordPlaces.Proofs.Ty.Leaves

/-!
# The slots of a static array

The slots of a static array are computed by a division or a product, while the members of a struct are
placed one after the other.  An array takes the slots of a struct whose members are its elements: as
many elements share a slot as fit into it, whether or not they fill it.

## Main results

* `exists_placed_packed`, `exists_layoutFrom_packed` — one member that shares its slot with equal ones,
  and a run of them.
* `layoutFrom_whole` — equal members that take whole slots.
* `StructTable.storageSlots_array_eq_layoutOf` — a static array takes the slots of that many members,
  and it cannot be counted exactly where they cannot.
-/

set_option autoImplicit false

namespace WordPlaces

/-! ## Members that share slots -/

section Packed

variable {bytes slot filled : Nat}

/-- A member behind `filled` others of its size in a slot: behind it there is one more, counted through
all slots with as many to a slot as fit.  A slot that is full may have a rest of bytes, which the cursor
leaves when the next member is placed, or have none, and then the cursor has left it already. -/
theorem exists_placed_packed (hpos : 1 ≤ bytes) (hshares : bytes < 32) (hbyte : filled * bytes < 32)
    (hlt : slot + 1 < countLimit) :
    ∃ start slot' filled', StorageOffset.fitted ⟨slot, filled * bytes⟩ bytes = .ok start ∧
      start.after ⟨1, bytes⟩ = .ok ⟨slot', filled' * bytes⟩ ∧ filled' * bytes < 32 ∧
      slot' * (32 / bytes) + filled' = slot * (32 / bytes) + filled + 1 := by
  have hfits : ∀ k, k ≤ 32 / bytes ↔ k * bytes ≤ 32 := fun k => Nat.le_div_iff_mul_le hpos
  have hnext : (filled + 1) * bytes = filled * bytes + bytes := Nat.succ_mul filled bytes
  have hskip : ∀ byte, StorageOffset.skip ⟨slot, byte⟩ 1 = .ok ⟨slot + 1, 0⟩ :=
    fun byte => StorageOffset.skip_of_lt hlt
  have hslot : (slot + 1) * (32 / bytes) = slot * (32 / bytes) + 32 / bytes := Nat.succ_mul _ _
  by_cases hroom : filled + 1 ≤ 32 / bytes
  · -- There is room for the member, which may fill the slot.
    have hle := (hfits _).1 hroom
    have hstart : StorageOffset.fitted ⟨slot, filled * bytes⟩ bytes = .ok ⟨slot, filled * bytes⟩ :=
      if_neg (by simp only; omega)
    by_cases hfull : filled * bytes + bytes < 32
    · have hafter : StorageOffset.after ⟨slot, filled * bytes⟩ ⟨1, bytes⟩ =
          .ok ⟨slot, (filled + 1) * bytes⟩ := by
        rw [hnext]
        exact if_pos ⟨rfl, hfull⟩
      exact ⟨_, _, _, hstart, hafter, by omega, by omega⟩
    · have hafter : StorageOffset.after ⟨slot, filled * bytes⟩ ⟨1, bytes⟩ =
          .ok ⟨slot + 1, 0 * bytes⟩ := by
        rw [Nat.zero_mul]
        exact (if_neg fun h => hfull h.2).trans (hskip _)
      have hmore := mt (hfits (filled + 2)).1 (by rw [Nat.succ_mul]; omega)
      exact ⟨_, _, _, hstart, hafter, by omega, by omega⟩
  · have hover := mt (hfits _).2 hroom
    have hfilled := (hfits filled).2 hbyte.le
    have hstart : StorageOffset.fitted ⟨slot, filled * bytes⟩ bytes = .ok ⟨slot + 1, 0⟩ :=
      (if_pos (by simp only; omega)).trans (hskip _)
    have hafter : StorageOffset.after ⟨slot + 1, 0⟩ ⟨1, bytes⟩ = .ok ⟨slot + 1, 1 * bytes⟩ := by
      rw [Nat.one_mul]
      exact (if_pos ⟨rfl, by simpa using hshares⟩).trans (by rw [Nat.zero_add])
    exact ⟨_, _, _, hstart, hafter, by omega, by omega⟩

/-- Members of one size that share slots take as many slots as it takes to give each slot as many of
them as fit.

**Proof sketch.** Induction on the members.  The cursor is behind some number of members, counted
through all slots, and `exists_placed_packed` counts one more. -/
theorem exists_layoutFrom_packed (hpos : 1 ≤ bytes) (hshares : bytes < 32)
    (hbyte : filled * bytes < 32) {count : Nat}
    (hlt : (slot * (32 / bytes) + filled + count + 32 / bytes - 1) / (32 / bytes) < countLimit) :
    ∃ offsets, layoutFrom ⟨slot, filled * bytes⟩ (List.replicate count ⟨1, bytes⟩) =
      .ok ⟨offsets, (slot * (32 / bytes) + filled + count + 32 / bytes - 1) / (32 / bytes)⟩ := by
  have hone : 1 ≤ 32 / bytes := (Nat.le_div_iff_mul_le hpos).2 (by omega)
  have hslot : (slot + 1) * (32 / bytes) = slot * (32 / bytes) + 32 / bytes := Nat.succ_mul _ _
  induction count generalizing slot filled with
  | zero =>
    rw [List.replicate_zero, layoutFrom]
    split
    · rename_i hzero
      have hempty : filled = 0 := (Nat.mul_eq_zero.1 hzero).resolve_right (by omega)
      have hslots : (slot * (32 / bytes) + filled + 0 + 32 / bytes - 1) / (32 / bytes) = slot :=
        Nat.div_eq_of_lt_le (by omega) (by omega)
      exact ⟨[], by rw [hslots]; rfl⟩
    · rename_i hzero
      have hfilled : 1 ≤ filled := Nat.one_le_iff_ne_zero.2 fun h => hzero (by rw [h, Nat.zero_mul])
      have hle : filled ≤ 32 / bytes := (Nat.le_div_iff_mul_le hpos).2 hbyte.le
      have hslots : (slot * (32 / bytes) + filled + 0 + 32 / bytes - 1) / (32 / bytes) = slot + 1 :=
        Nat.div_eq_of_lt_le (by omega) (by rw [Nat.succ_mul]; omega)
      rw [hslots] at hlt ⊢
      rw [StorageOffset.skip_of_lt hlt]
      exact ⟨[], rfl⟩
  | succ count ih =>
    have hle : slot + 1 ≤ (slot * (32 / bytes) + filled + (count + 1) + 32 / bytes - 1) / (32 / bytes) :=
      (Nat.le_div_iff_mul_le hone).2 (by omega)
    obtain ⟨start, slot', filled', hstart, hafter, hbyte', hcount⟩ :=
      exists_placed_packed hpos hshares hbyte (show slot + 1 < countLimit by omega)
    have hsum : slot * (32 / bytes) + filled + (count + 1) = slot' * (32 / bytes) + filled' + count := by
      omega
    rw [hsum] at hlt ⊢
    obtain ⟨offsets, hrest⟩ := ih hbyte' hlt (Nat.succ_mul _ _)
    refine ⟨start :: offsets, ?_⟩
    rw [List.replicate_succ, layoutFrom_cons Nat.one_ne_zero hstart hafter, hrest]
    rfl

end Packed

/-! ## Members of whole slots -/

/-- Members of whole slots take their slots one after the other, if these can be counted. -/
theorem layoutFrom_whole {slot slots : Nat} (hslot : slot < countLimit) (hslots : 1 ≤ slots)
    (count : Nat) :
    (layoutFrom ⟨slot, 0⟩ (List.replicate count ⟨slots, 32⟩)).map (·.slots) =
      checkedCount (slot + count * slots) := by
  induction count generalizing slot with
  | zero =>
    rw [Nat.zero_mul, Nat.add_zero, checkedCount, if_pos hslot]
    rfl
  | succ count ih =>
    have hsum : slot + (count + 1) * slots = slot + slots + count * slots := by
      rw [Nat.succ_mul]
      omega
    have hstart : StorageOffset.fitted ⟨slot, 0⟩ 32 = .ok ⟨slot, 0⟩ := rfl
    have hafter : StorageOffset.after ⟨slot, 0⟩ ⟨slots, 32⟩ = StorageOffset.skip ⟨slot, 0⟩ slots :=
      if_neg fun h => Nat.lt_irrefl 32 h.2
    have hne : (⟨slots, 32⟩ : StorageSize).slots ≠ 0 := Nat.ne_of_gt hslots
    rw [hsum, List.replicate_succ]
    by_cases hlt : slot + slots < countLimit
    · rw [layoutFrom_cons hne hstart (hafter.trans (StorageOffset.skip_of_lt hlt)),
        ← ih hlt]
      cases layoutFrom ⟨slot + slots, 0⟩ (List.replicate count ⟨slots, 32⟩) <;> rfl
    · have herror : StorageOffset.skip ⟨slot, 0⟩ slots = .error .countOverflow := by
        rw [StorageOffset.skip, checkedCount, if_neg hlt]
        rfl
      rw [checkedCount, if_neg (by omega), layoutFrom, if_neg hne, hstart]
      change ((StorageOffset.after ⟨slot, 0⟩ ⟨slots, 32⟩ >>= fun next => _).map _) = _
      rw [hafter, herror]
      rfl

/-! ## Arrays -/

namespace StructTable

/-- An array takes the slots of as many members of the size of its elements.  It takes a number of slots
if these can be counted, element by element. -/
theorem arraySlots_eq_layoutOf {size : StorageSize} (hsize : size.Regular) (hslots : 1 ≤ size.slots)
    {length : Nat} (hlength : length < countLimit) :
    arraySlots size length = (layoutOf (List.replicate length size)).map (·.slots) ∧
      (length * size.slots < countLimit → ∃ total, arraySlots size length = .ok total) := by
  obtain ⟨slots, bytes⟩ := size
  obtain ⟨hpos, hle, hwhole⟩ := hsize
  simp only at hpos hle hwhole hslots
  rw [arraySlots]
  by_cases hshares : bytes < 32
  · obtain rfl : slots = 1 := by
      have := mt hwhole (by omega)
      omega
    have hone : 1 ≤ 32 / bytes := (Nat.le_div_iff_mul_le hpos).2 (by omega)
    have htotal : 0 * (32 / bytes) + 0 + length + 32 / bytes - 1 = length + 32 / bytes - 1 := by omega
    have hle : (length + 32 / bytes - 1) / (32 / bytes) ≤ length := by
      have hmul := Nat.le_mul_of_pos_right length hone
      rw [← Nat.lt_succ_iff, Nat.div_lt_iff_lt_mul hone, Nat.succ_mul]
      omega
    have hlt := Nat.lt_of_le_of_lt hle hlength
    have hzero : 0 * bytes < 32 := by omega
    obtain ⟨offsets, hlayout⟩ := exists_layoutFrom_packed hpos hshares hzero (htotal.symm ▸ hlt)
    rw [htotal, Nat.zero_mul] at hlayout
    rw [if_pos ⟨rfl, hshares⟩, if_neg (Nat.ne_of_gt hpos), layoutOf]
    have hstart : StorageOffset.zero = ⟨0, 0⟩ := rfl
    rw [hstart, hlayout]
    exact ⟨rfl, fun _ => ⟨_, rfl⟩⟩
  · obtain rfl : bytes = 32 := by omega
    have hlayout := layoutFrom_whole (show 0 < countLimit by decide) hslots length
    rw [Nat.zero_add] at hlayout
    rw [if_neg fun h => hshares h.2]
    exact ⟨hlayout.symm, fun hlt => ⟨_, if_pos hlt⟩⟩

variable {structs : StructTable} {element : Ty} {size : StorageSize}

/-- A static array takes the slots of a struct whose members are as many values of its element type,
elements that are arrays or structs themselves included.  If the slots of all elements can be counted,
both can; and if the array takes too many slots to be counted, so do the members.

**Proof sketch.** Elements of less than a slot are value types of one slot, and share slots
(`exists_layoutFrom_packed`).  All others take whole slots (`layoutFrom_whole`). -/
theorem storageSlots_array_eq_layoutOf (hwidth : element.HasWidth)
    (hsize : structs.storageSize element = .ok size) (hslots : 1 ≤ size.slots) {length : Nat}
    (hlength : length < countLimit) (location : DataLocation) :
    structs.storageSlots (.array element (some length) location) =
        (layoutOf (List.replicate length size)).map (·.slots) ∧
      (length * size.slots < countLimit →
        ∃ total, structs.storageSlots (.array element (some length) location) = .ok total) := by
  obtain ⟨hregular, helement, hbytes⟩ := regular_of_storageSize_eq_ok hsize hwidth
  have harray : structs.storageSlots (.array element (some length) location) =
      arraySlots size length := by
    rw [storageSlots, helement, ← hbytes]
    rfl
  rw [harray]
  exact arraySlots_eq_layoutOf hregular hslots hlength

/-- Four arrays of three structs of two slots, and thirteen values of five bytes, of which six share a
slot. -/
theorem storageSlots_array_eq_layoutOf_nested :
    ∃ structs : StructTable,
      declare {} "Pair" [⟨"first", .int 256 false⟩, ⟨"second", .bool⟩] = .ok structs ∧
      structs.storageSize (.array (.struct 0 .storage) (some 3) .storage) = .ok ⟨6, 32⟩ ∧
      structs.storageSlots (.array (.array (.struct 0 .storage) (some 3) .storage) (some 4) .storage) =
        (layoutOf (List.replicate 4 ⟨6, 32⟩)).map (·.slots) ∧
      structs.storageSize (.fixedBytes 5) = .ok ⟨1, 5⟩ ∧
      structs.storageSlots (.array (.fixedBytes 5) (some 13) .storage) =
        (layoutOf (List.replicate 13 ⟨1, 5⟩)).map (·.slots) ∧
      structs.storageSlots (.array (.fixedBytes 5) (some 13) .storage) = .ok 3 := by
  obtain ⟨structs, hdeclare, hpairs⟩ : ∃ structs : StructTable,
      declare {} "Pair" [⟨"first", .int 256 false⟩, ⟨"second", .bool⟩] = .ok structs ∧
        structs.storageSize (.array (.struct 0 .storage) (some 3) .storage) = .ok ⟨6, 32⟩ := ⟨_, rfl, rfl⟩
  have hbytes : structs.storageSize (.fixedBytes 5) = .ok ⟨1, 5⟩ := rfl
  obtain ⟨hfour, -⟩ := storageSlots_array_eq_layoutOf (by decide) hpairs (by decide)
    (show 4 < countLimit by decide) .storage
  obtain ⟨hthirteen, -⟩ := storageSlots_array_eq_layoutOf (by decide) hbytes (by decide)
    (show 13 < countLimit by decide) .storage
  exact ⟨structs, hdeclare, hpairs, hfour, hbytes, hthirteen, rfl⟩

end StructTable

end WordPlaces
