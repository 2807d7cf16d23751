import WordPlaces.Ty.Layout
import WordPlaces.Proofs.Except

/-!
# Where the layout puts members

Storage is read as one row of bytes, 32 to a slot.  The cursor of the layout is then a single
number: placing a member moves it to the end of the member, whether the member ends within a
slot, fills it, or takes whole slots.

## Main definitions

* `StorageOffset.index` — the number of a byte of storage.
* `StorageSize.Regular`, `StorageSize.span` — the sizes that types have, and their bytes.
* `Placed` — members that lie one after the other, none across the end of its first slot.

## Main results

* `layoutFrom_placed` — the layout places members one after the other, and the slots it counts
  are those up to the end of the last member.
-/

set_option autoImplicit false

namespace WordPlaces

/-! ## Bytes of storage -/

/-- The number of a byte of storage, 32 to a slot. -/
def StorageOffset.index (o : StorageOffset) : Nat := 32 * o.slot + o.byte

/-- A size that shares its slot only if it takes no more than one. -/
structure StorageSize.Regular (size : StorageSize) : Prop where
  one_le_bytes : 1 ≤ size.bytes
  bytes_le : size.bytes ≤ 32
  bytes_eq : 1 < size.slots → size.bytes = 32

/-- The bytes that a value takes: those of its last slot if it may share that, else whole slots. -/
def StorageSize.span (size : StorageSize) : Nat :=
  if size.bytes < 32 then size.bytes else 32 * size.slots

/-! ## The cursor -/

namespace StorageOffset

/-- Skipping slots goes to the start of a slot. -/
theorem skip_eq_ok {cursor next : StorageOffset} {count : Nat}
    (h : cursor.skip count = .ok next) : next = ⟨cursor.slot + count, 0⟩ := by
  simp only [skip, checkedCount] at h
  split at h
  · exact (Except.ok.inj h).symm
  · contradiction

/-- Skipping slots goes to one that can be counted. -/
theorem skip_lt {cursor next : StorageOffset} {count : Nat} (h : cursor.skip count = .ok next) :
    next.slot < countLimit := by
  simp only [skip, checkedCount] at h
  split at h
  · obtain rfl := Except.ok.inj h
    assumption
  · contradiction

/-- A member is placed at the cursor or behind it, and does not go across the end of its slot. -/
theorem fitted_eq_ok {cursor start : StorageOffset} {bytes : Nat} (hbytes : bytes ≤ 32)
    (h : cursor.fitted bytes = .ok start) (hbyte : cursor.byte < 32) :
    cursor.index ≤ start.index ∧ start.byte + bytes ≤ 32 := by
  simp only [fitted] at h
  split at h
  · obtain rfl := skip_eq_ok h
    simp only [index]
    omega
  · obtain rfl := Except.ok.inj h
    omega

/-- The cursor behind a member is at the end of the member. -/
theorem after_eq_ok {start next : StorageOffset} {size : StorageSize} (hsize : size.Regular)
    (hfits : start.byte + size.bytes ≤ 32) (hslots : size.slots ≠ 0)
    (h : start.after size = .ok next) :
    next.index = start.index + size.span ∧ next.byte < 32 := by
  have hbytes := hsize.bytes_eq
  simp only [after] at h
  split at h
  · rename_i hshares
    obtain rfl := Except.ok.inj h
    simp only [index, StorageSize.span]
    split <;> omega
  · obtain rfl := skip_eq_ok h
    simp only [index, StorageSize.span]
    split <;> omega

/-- A place that fits lies in a slot that can be counted. -/
theorem fitted_lt {cursor start : StorageOffset} {bytes : Nat} (hlt : cursor.slot < countLimit)
    (h : cursor.fitted bytes = .ok start) : start.slot < countLimit := by
  simp only [fitted] at h
  split at h
  · exact skip_lt h
  · obtain rfl := Except.ok.inj h
    exact hlt

/-- What comes after a member lies in a slot that can be counted. -/
theorem after_lt {start next : StorageOffset} {size : StorageSize} (hlt : start.slot < countLimit)
    (h : start.after size = .ok next) : next.slot < countLimit := by
  simp only [after] at h
  split at h
  · obtain rfl := Except.ok.inj h
    exact hlt
  · exact skip_lt h

end StorageOffset

/-! ## The layout -/

/-- Members of the given sizes lie at the given offsets one after the other, from byte `from` up
to byte `to`, and each starts in a slot that has room for its bytes. -/
inductive Placed : Nat → List StorageSize → List StorageOffset → Nat → Prop
  | nil (k : Nat) : Placed k [] [] k
  | cons {k stop : Nat} {size : StorageSize} {start : StorageOffset} {sizes : List StorageSize}
      {offsets : List StorageOffset} (le : k ≤ start.index)
      (fits : start.byte + size.bytes ≤ 32) (one_le_slots : 1 ≤ size.slots)
      (rest : Placed (start.index + size.span) sizes offsets stop) :
      Placed k (size :: sizes) (start :: offsets) stop

/-- A member that gets a place has it before those of the others. -/
theorem layoutFrom_cons {cursor start next : StorageOffset} {size : StorageSize}
    (hslots : size.slots ≠ 0) (hstart : cursor.fitted size.bytes = .ok start)
    (hnext : start.after size = .ok next) (sizes : List StorageSize) :
    layoutFrom cursor (size :: sizes) =
      (layoutFrom next sizes).map fun rest => { rest with offsets := start :: rest.offsets } := by
  rw [layoutFrom, if_neg hslots, hstart]
  change (start.after size >>= fun next => layoutFrom next sizes >>= fun rest => _) = _
  rw [hnext]
  change (layoutFrom next sizes >>= fun rest => _) = _
  cases layoutFrom next sizes <;> rfl

/-- Every member gets a place. -/
theorem length_layoutFrom {cursor : StorageOffset} {sizes : List StorageSize} {l : Layout}
    (h : layoutFrom cursor sizes = .ok l) : l.offsets.length = sizes.length := by
  induction sizes generalizing cursor l with
  | nil =>
    rw [layoutFrom] at h
    split at h
    · obtain rfl := Except.ok.inj h
      rfl
    · obtain ⟨last, -, hl⟩ := Except.exists_of_bind_eq_ok h
      obtain rfl := Except.ok.inj hl
      rfl
  | cons size sizes ih =>
    rw [layoutFrom] at h
    split at h
    · contradiction
    · obtain ⟨start, -, h⟩ := Except.exists_of_bind_eq_ok h
      obtain ⟨next, -, h⟩ := Except.exists_of_bind_eq_ok h
      obtain ⟨rest, hrest, hl⟩ := Except.exists_of_bind_eq_ok h
      obtain rfl := Except.ok.inj hl
      exact congrArg (· + 1) (ih hrest)

/-- The slots of a layout can be counted. -/
theorem layoutFrom_slots_lt {cursor : StorageOffset} {sizes : List StorageSize} {l : Layout}
    (hcursor : cursor.slot < countLimit) (h : layoutFrom cursor sizes = .ok l) :
    l.slots < countLimit := by
  induction sizes generalizing cursor l with
  | nil =>
    rw [layoutFrom] at h
    split at h
    · obtain rfl := Except.ok.inj h
      exact hcursor
    · obtain ⟨last, hlast, hl⟩ := Except.exists_of_bind_eq_ok h
      obtain rfl := Except.ok.inj hl
      exact StorageOffset.skip_lt hlast
  | cons size sizes ih =>
    rw [layoutFrom] at h
    split at h
    · contradiction
    · obtain ⟨start, hstart, h⟩ := Except.exists_of_bind_eq_ok h
      obtain ⟨next, hnext, h⟩ := Except.exists_of_bind_eq_ok h
      obtain ⟨rest, hrest, hl⟩ := Except.exists_of_bind_eq_ok h
      obtain rfl := Except.ok.inj hl
      have hlt := ih (StorageOffset.after_lt (StorageOffset.fitted_lt hcursor hstart) hnext) hrest
      exact hlt

/-- The layout places members one after the other, and the slots it counts are those up to the end
of the last member.

**Proof sketch.** Induction on the members.  The cursor starts in a slot, is moved to the start of
the member (`fitted_eq_ok`) and from there to its end (`after_eq_ok`). -/
theorem layoutFrom_placed {cursor : StorageOffset} {sizes : List StorageSize} {l : Layout}
    (hcursor : cursor.byte < 32) (hsizes : ∀ s ∈ sizes, s.Regular)
    (h : layoutFrom cursor sizes = .ok l) :
    ∃ stop, Placed cursor.index sizes l.offsets stop ∧ stop ≤ 32 * l.slots ∧
      32 * l.slots < stop + 32 := by
  induction sizes generalizing cursor l with
  | nil =>
    rw [layoutFrom] at h
    split at h
    · obtain rfl := Except.ok.inj h
      refine ⟨cursor.index, .nil _, ?_⟩
      simp only [StorageOffset.index]
      omega
    · obtain ⟨last, hlast, hl⟩ := Except.exists_of_bind_eq_ok h
      obtain rfl := StorageOffset.skip_eq_ok hlast
      obtain rfl := Except.ok.inj hl
      refine ⟨cursor.index, .nil _, ?_⟩
      simp only [StorageOffset.index]
      omega
  | cons size sizes ih =>
    rw [layoutFrom] at h
    split at h
    · contradiction
    · obtain ⟨start, hstart, h⟩ := Except.exists_of_bind_eq_ok h
      obtain ⟨next, hnext, h⟩ := Except.exists_of_bind_eq_ok h
      obtain ⟨rest, hrest, hl⟩ := Except.exists_of_bind_eq_ok h
      obtain rfl := Except.ok.inj hl
      have hsize := hsizes size List.mem_cons_self
      obtain ⟨hle, hfits⟩ := StorageOffset.fitted_eq_ok hsize.bytes_le hstart hcursor
      obtain ⟨hindex, hbyte⟩ := StorageOffset.after_eq_ok hsize hfits ‹_› hnext
      obtain ⟨stop, hplaced, hstop⟩ :=
        ih hbyte (fun s hs => hsizes s (List.mem_cons_of_mem _ hs)) hrest
      rw [hindex] at hplaced
      exact ⟨stop, .cons hle hfits (Nat.one_le_iff_ne_zero.2 ‹_›) hplaced, hstop⟩

/-- Members end no further to the left than they start. -/
theorem Placed.le {k stop : Nat} {sizes : List StorageSize} {offsets : List StorageOffset}
    (h : Placed k sizes offsets stop) : k ≤ stop := by
  induction h with
  | nil => exact Nat.le_refl _
  | cons le _ _ _ ih => omega

/-- A member takes a byte. -/
theorem StorageSize.one_le_span {size : StorageSize} (hbytes : 1 ≤ size.bytes)
    (hslots : 1 ≤ size.slots) : 1 ≤ size.span := by
  simp only [span]
  split <;> omega

/-- Members take bytes, if there are any. -/
theorem Placed.lt {k stop : Nat} {sizes : List StorageSize} {offsets : List StorageOffset}
    (h : Placed k sizes offsets stop) (hne : sizes ≠ []) (hbytes : ∀ s ∈ sizes, 1 ≤ s.bytes) :
    k < stop := by
  cases h with
  | nil => contradiction
  | cons le _ one_le_slots rest =>
    have hspan := StorageSize.one_le_span (hbytes _ List.mem_cons_self) one_le_slots
    have := rest.le
    omega

end WordPlaces
